import HeliosNano.Sql.SetvalUnique

namespace HeliosNano.Sql.Setval
open Foundation SeqRuntime Nextval List Function State

/-- The call belongs to a `setval`. -/
def Call.isSetval : Call → Bool
  | .fetching (.setval _ _) _ | .locking _ _ _ | .flushing _ _ _ | .unlocking _ | .evicting => true
  | _ => false

/-- `setval` has flushed and is about to evict the runtime. -/
def Call.evicts : Call → Bool
  | .unlocking _ | .evicting => true
  | _ => false

/-- What a call may become of in a step that neither serves a value nor flushes. -/
def Follows (a : Step) (s s' : State) (t : ThreadId) : Call → Prop
  | .fetching (.nextval begun) _ => begun = s.clock ∨ ∃ fetch, s.calls t = some (.fetching (.nextval begun) fetch)
  | .serving begun id take pc => take = ⟨none,0⟩ ∧ pc = .loadNext ∧ s'.store = some id ∧
      ∃ fetch, s.calls t = some (.fetching (.nextval begun) fetch)
  | _ => (∃ value isCalled, a = .beginSetval t value isCalled) ∨ ∃ old, s.calls t = some old ∧ old.isSetval = true

structure Idle (d : PersistedSequence) (a : Step) (s s' : State) : Prop where
  epoch : s'.epoch = s.epoch
  returned : s'.returned = s.returned
  disk : s'.disk = s.disk
  lastSet : s'.lastSet = s.lastSet
  clock : s'.clock = s.clock
  born : ∀ id, s'.born id = s.born id ∨ s'.born id = s.epoch
  windows : ∀ id, id < s'.allocated →
    (id < s.allocated ∧ s'.born id = s.born id ∧ (s'.runtimes id).next = (s.runtimes id).next ∧
      (s'.runtimes id).blockEnd = (s.runtimes id).blockEnd) ∨
    s.allocated ≤ id ∧ position d.incrementBy (s'.runtimes id).blockEnd < position d.incrementBy (s'.runtimes id).next
  calls : ∀ t new, s'.calls t = some new → s.calls t = some new ∨ Follows a s s' t new
  store : ∀ id, s'.store = some id → s'.born id = s'.epoch ∨ s.store = some id ∧ s'.born id = s.born id
  evicts : ∀ t old, s.calls t = some old → old.evicts = true →
    s'.store = none ∨ ∃ new, s'.calls t = some new ∧ new.evicts = true

section
variable {d : PersistedSequence} {a : Step} {s s' : State} {t : ThreadId}

theorem Idle.refl (d : PersistedSequence) (a : Step) (s : State) : Idle d a s s where
  epoch := rfl
  returned := rfl
  disk := rfl
  lastSet := rfl
  clock := rfl
  born _ := .inl rfl
  windows _ hid := .inl ⟨hid,rfl,rfl,rfl⟩
  calls _ _ hc := .inl hc
  store _ hs := .inr ⟨hs,rfl⟩
  evicts _ old hc he := .inr ⟨old,hc,he⟩

theorem idle_evict (d : PersistedSequence) (a : Step) (s : State) : Idle d a s { s with store := none } :=
  { Idle.refl d a s with
    calls := fun _ _ hc => .inl hc
    store := by simp
    evicts := fun _ _ _ _ => .inl rfl }

theorem idle_relock (d : PersistedSequence) (a : Step) (s : State) (id : RuntimeId) (refill : Option ThreadId) :
    Idle d a s (s.setRuntime id { s.runtimes id with refill := refill }) :=
  { Idle.refl d a s with
    windows := by
      intro id' hid
      refine .inl ⟨hid,rfl,?_⟩
      by_cases he : id' = id
      · subst he
        rw [setRuntime_self]
        exact ⟨rfl,rfl⟩
      · rw [setRuntime_of_ne _ he]
        exact ⟨rfl,rfl⟩
    calls := fun _ _ hc => .inl hc }

theorem idle_allocate (a : Step) {rt : SeqRuntime}
    (hem : position d.incrementBy rt.blockEnd < position d.incrementBy rt.next) : Idle d a s (s.allocate rt) :=
  { Idle.refl d a s with
    born := by
      intro id
      by_cases he : id = s.allocated
      · subst he
        exact .inr (update_self ..)
      · exact .inl (update_of_ne he ..)
    windows := by
      intro id hid
      by_cases he : id = s.allocated
      · subst he
        rw [allocate_self]
        exact .inr ⟨le_rfl,hem⟩
      · rw [allocate_of_ne _ he]
        exact .inl ⟨lt_of_le_of_ne (Nat.lt_succ_iff.mp hid) he,update_of_ne he ..,rfl,rfl⟩
    calls := fun _ _ hc => .inl hc
    store := by
      intro id hs
      obtain rfl : s.allocated = id := Option.some.inj hs
      exact .inl (update_self ..)
    evicts := fun _ old hc he => .inr ⟨old,hc,he⟩ }

theorem Idle.become (h : Idle d a s s') (hcl : s'.calls = s.calls) {call : Option Call}
    (hnew : ∀ new ∈ call, Follows a s s' t new) (hev : ∀ old, s.calls t = some old → old.evicts = true →
      s'.store = none ∨ ∃ new ∈ call, new.evicts = true) : Idle d a s (s'.become t call) :=
  { epoch := h.epoch
    returned := h.returned
    disk := h.disk
    lastSet := h.lastSet
    clock := h.clock
    born := h.born
    windows := h.windows
    calls := by
      intro t' new hc
      rcases calls_become hc with ⟨rfl,hn⟩ | ⟨-,hold⟩
      · exact .inr (hnew new hn)
      · exact .inl (hcl ▸ hold)
    store := h.store
    evicts := by
      intro t' old hc he
      by_cases ht : t' = t
      · subst ht
        rcases hev old hc he with hnn | ⟨new,hn,hnew⟩
        · exact .inl hnn
        · exact .inr ⟨new,(s'.become_calls_self t' call).trans hn,hnew⟩
      · rcases h.evicts t' old hc he with hnn | ⟨new,hn,hnew⟩
        · exact .inl hnn
        · exact .inr ⟨new,(become_calls_of_ne call ht).trans hn,hnew⟩ }

variable {fetch : Fetch} {purpose : Purpose}

theorem Idle.obtain (h : Idle d a s s') (hcl : s'.calls = s.calls) {id : RuntimeId} (hs : s'.store = some id)
    (hc : s.calls t = some (.fetching purpose fetch)) : Idle d a s (s'.obtain t id purpose) := by
  have hev : ∀ call : Option Call, ∀ old, s.calls t = some old → old.evicts = true →
      s'.store = none ∨ ∃ new ∈ call, new.evicts = true := by
    intro call old ho he
    rw [hc] at ho
    cases ho
    cases he
  cases purpose with
  | nextval begun =>
    refine h.become hcl ?_ (hev _)
    rintro _ ⟨rfl⟩
    exact ⟨rfl,rfl,hs,fetch,hc⟩
  | setval value isCalled =>
    rw [obtain]
    split
    · exact h.become hcl (by simp) (hev _)
    · refine h.become hcl ?_ (hev _)
      rintro _ ⟨rfl⟩
      exact .inr ⟨_,hc,rfl⟩

theorem idle_fetch (hs : Shape d s)
    (hc : s.calls t = some (.fetching purpose fetch)) (answer : Answer) : Idle d a s (s.fetch d t answer purpose fetch) := by
  have hev : ∀ call : Option Call, ∀ old, s.calls t = some old → old.evicts = true →
      s.store = none ∨ ∃ new ∈ call, new.evicts = true := by
    intro call old ho he
    rw [hc] at ho
    cases ho
    cases he
  have hf : ∀ fetch', Follows a s s t (.fetching purpose fetch') := by
    intro fetch'
    cases purpose with
    | nextval begun => exact .inr ⟨fetch,hc⟩
    | setval value isCalled => exact .inr ⟨_,hc,rfl⟩
  cases fetch with
  | lookup =>
    rw [fetch]
    split
    next id hst =>
      exact (Idle.refl d a s).obtain rfl hst hc
    · refine (Idle.refl d a s).become rfl ?_ (hev _)
      rintro _ ⟨rfl⟩
      exact hf _
  | readState =>
    have hb : Idle d a s (s.become t (some (.fetching purpose (.insert (fromPersisted d s.disk.visible false))))) := by
      refine (Idle.refl d a s).become rfl ?_ (hev _)
      rintro _ ⟨rfl⟩
      exact hf _
    cases answer with
    | readFailed error => exact (Idle.refl d a s).become rfl (by simp) (hev _)
    | done | notSaved error | notSynced reason => exact hb
  | insert rt =>
    rw [fetch]
    split
    next id hst =>
      exact (Idle.refl d a s).obtain rfl hst hc
    · obtain ⟨hrt,hem⟩ := (hs.call t _ hc).built purpose rt rfl
      rw [Exhausted,hrt.pos_eq,hrt.pos_eq] at hem
      exact (idle_allocate a hem).obtain rfl rfl hc

end

/-- The state after the flush of `setval`. -/
def State.flushed (s : State) (t : ThreadId) (id : RuntimeId) (value : Int) (isCalled : Bool) : State :=
  { s.become t (some (.unlocking id)) with
    disk := ⟨some ⟨value,isCalled⟩,some ⟨value,isCalled⟩⟩
    epoch := s.epoch+1
    lastSet := some value }

variable {s : State} {d : PersistedSequence}
variable {a : Step}

theorem act_cases (hs : Shape d s) (hok : RecordsHold d s a) : Idle d a s (act d s a) ∨
      (∃ t answer begun id take pc, s.calls t = some (.serving begun id take pc) ∧
        MeetsRecord d s answer (.serving begun id take pc) ∧ act d s a = s.serve t answer begun id take pc) ∨
      ∃ t id value isCalled, s.calls t = some (.flushing id value isCalled) ∧ act d s a = s.flushed t id value isCalled := by
  cases a with
  | beginNextval t =>
    refine .inl ?_
    rw [act]
    split
    next hn =>
      refine (Idle.refl d _ s).become rfl ?_ ?_
      · rintro _ ⟨rfl⟩
        exact .inl rfl
      · intro old ho
        rw [hn] at ho
        cases ho
    · exact .refl d _ s
  | beginSetval t value isCalled =>
    refine .inl ?_
    rw [act]
    split
    next hn =>
      refine (Idle.refl d _ s).become rfl ?_ ?_
      · rintro _ ⟨rfl⟩
        exact .inl ⟨value,isCalled,rfl⟩
      · intro old ho
        rw [hn] at ho
        cases ho
    · exact .refl d _ s
  | invalidateCache => exact .inl (idle_evict d _ s)
  | advance t answer =>
    rw [act]
    split
    · exact .inl (.refl d _ s)
    next call hc =>
      have hm := hok call hc
      cases call with
      | fetching purpose fetch => exact .inl (idle_fetch hs hc answer)
      | serving begun id take pc => exact .inr (.inl ⟨t,answer,begun,id,take,pc,hc,hm,rfl⟩)
      | locking id value isCalled =>
        refine .inl ?_
        rw [progress]
        split
        · refine (idle_relock d _ s id (some t)).become rfl ?_ ?_
          · rintro _ ⟨rfl⟩
            exact .inr ⟨_,hc,rfl⟩
          · intro old ho he
            rw [hc] at ho
            cases ho
            cases he
        · exact .refl d _ s
      | flushing id value isCalled =>
        cases answer with
        | notSaved error =>
          refine .inl ((idle_relock d _ s id none).become rfl (by simp) ?_)
          intro old ho he
          rw [hc] at ho
          cases ho
          cases he
        | notSynced reason => cases hm
        | done | readFailed error => exact .inr (.inr ⟨t,id,value,isCalled,hc,rfl⟩)
      | unlocking id =>
        refine .inl ((idle_relock d _ s id none).become rfl ?_ ?_)
        · rintro _ ⟨rfl⟩
          exact .inr ⟨_,hc,rfl⟩
        · intro old ho he
          exact .inr ⟨_,rfl,rfl⟩
      | evicting =>
        exact .inl ((idle_evict d _ s).become rfl (by simp) fun _ _ _ => .inl rfl)

theorem Idle.ledger {s' : State} (hi : Idle d a s s') (hs : Shape d s) (h : Ledger d s) : Ledger d s' := by
  refine h.idle hi.epoch hi.returned hi.disk (fun id w hw => ?_) (fun t begun id take pc hc => ?_)
  · rcases hi.windows id hw.1 with hold | ⟨hnew,he⟩
    · exact hold
    obtain ⟨-,-,⟨hl,hh⟩ | ⟨t',pc',first,last,hon,hb,-⟩⟩ := hw
    · exact absurd (hl.trans hh) he.not_ge
    obtain ⟨begun,take,hcall⟩ := callsOn_eq_some.mp hon
    rcases hi.calls t' _ hcall with hold | ⟨-,rfl,-⟩
    · exact absurd ((hs.call t' _ hold).known id rfl) hnew.not_gt
    · cases hb
  · rcases hi.calls t _ hc with hold | ⟨-,rfl,-⟩
    · exact .inl hold
    · exact .inr rfl

def Past (incr v : Int) (record : Option PersistedSeqState) : Prop :=
  ∃ st, record = some st ∧ position incr v ≤ position incr st.lastReserved

/-- What the notes say. -/
structure Book (d : PersistedSequence) (s : State) : Prop where
  born : ∀ id, s.born id ≤ s.epoch
  serving : ∀ t begun id take pc, s.calls t = some (.serving begun id take pc) → take.tag ≤ s.epoch ∧ begun < s.clock ∧
    (∀ r ∈ take.refilled, r < s.clock) ∧ (pc.taken = none → take.refilled = none)
  fetching : ∀ t begun fetch, s.calls t = some (.fetching (.nextval begun) fetch) → begun < s.clock
  returned : ∀ r ∈ s.returned, r.take.tag ≤ s.epoch ∧ r.begun < s.clock ∧ ∀ n ∈ r.take.refilled, n < s.clock
  evicts : ∀ id, s.store = some id → s.born id = s.epoch ∨ ∃ t call, s.calls t = some call ∧ call.evicts = true
  mark : ∀ v ∈ s.lastSet, Past d.incrementBy v s.disk.visible ∧ Past d.incrementBy v s.disk.synced

/-- The state after a step: only the clock moves. -/
def State.tick (s : State) : State := { s with clock := s.clock+1 }

theorem Shape.tick (h : Shape d s) : Shape d s.tick :=
  h.frame rfl rfl rfl (fun _ hs => hs) h.record

theorem Ledger.tick (h : Ledger d s) : Ledger d s.tick :=
  h.frame (fun _ _ hw => hw) (fun _ _ hv => hv) rfl (fun _ hv => hv)

section
variable {d : PersistedSequence} {a : Step} {s s' : State} {t : ThreadId} {answer : Answer} {begun : Nat}
  {id : RuntimeId} {take : Take} {pc : Pc}

theorem Idle.book (hi : Idle d a s s') (h : Book d s) : Book d s'.tick where
  born id := by
    have hold := h.born id
    have hep : s'.tick.epoch = s.epoch := hi.epoch
    rw [hep]
    rcases hi.born id with hb | hb
    · exact hb.le.trans hold
    · exact hb.le
  serving t begun id take pc hc := by
    have hcl : s'.tick.clock = s.clock+1 := congrArg (· + 1) hi.clock
    have hep : s'.tick.epoch = s.epoch := hi.epoch
    rw [hcl,hep]
    rcases hi.calls t _ hc with hold | ⟨rfl,rfl,-,fetch,hold⟩
    · obtain ⟨htg,hbg,hrf,htk⟩ := h.serving t begun id take pc hold
      exact ⟨htg,hbg.trans (Nat.lt_succ_self _),fun r hr => (hrf r hr).trans (Nat.lt_succ_self _),htk⟩
    · exact ⟨Nat.zero_le _,(h.fetching t begun fetch hold).trans (Nat.lt_succ_self _),by simp,fun _ => rfl⟩
  fetching t begun fetch hc := by
    have hcl : s'.tick.clock = s.clock+1 := congrArg (· + 1) hi.clock
    rw [hcl]
    rcases hi.calls t _ hc with hold | hbn | ⟨fetch',hold⟩
    · exact (h.fetching t begun fetch hold).trans (Nat.lt_succ_self _)
    · exact hbn ▸ Nat.lt_succ_self _
    · exact (h.fetching t begun fetch' hold).trans (Nat.lt_succ_self _)
  returned r hr := by
    have hcl : s'.tick.clock = s.clock+1 := congrArg (· + 1) hi.clock
    have hep : s'.tick.epoch = s.epoch := hi.epoch
    rw [hcl,hep]
    obtain ⟨htg,hbg,hrf⟩ := h.returned r (hi.returned ▸ hr)
    exact ⟨htg,hbg.trans (Nat.lt_succ_self _),fun n hn => (hrf n hn).trans (Nat.lt_succ_self _)⟩
  evicts id hs := by
    have hep : s'.tick.epoch = s.epoch := hi.epoch
    rcases hi.store id hs with hb | ⟨hold,hb⟩
    · exact .inl hb
    rcases h.evicts id hold with hbr | ⟨t,call,hc,he⟩
    · refine .inl ?_
      rw [hep,← hbr]
      exact hb
    · rcases hi.evicts t call hc he with hnn | hnew
      · have hs' : s'.store = some id := hs
        rw [hnn] at hs'
        cases hs'
      · exact .inr ⟨t,hnew⟩
  mark v hv := by
    have hv' : v ∈ s.lastSet := hi.lastSet ▸ hv
    have hd : s'.tick.disk = s.disk := hi.disk
    rw [hd]
    exact h.mark v hv'

theorem Book.flushed (h : Book d s) {value : Int} {isCalled : Bool} : Book d (s.flushed t id value isCalled).tick where
  born id := (h.born id).trans (Nat.le_succ _)
  serving t' begun id' take pc hc := by
    rcases calls_become hc with ⟨-,hn⟩ | ⟨-,hold⟩
    · cases hn
    · obtain ⟨htg,hb,hrf,htk⟩ := h.serving t' begun id' take pc hold
      exact ⟨htg.trans (Nat.le_succ _),hb.trans (Nat.lt_succ_self _),
        fun r hr => (hrf r hr).trans (Nat.lt_succ_self _),htk⟩
  fetching t' begun fetch hc := by
    rcases calls_become hc with ⟨-,hn⟩ | ⟨-,hold⟩
    · cases hn
    · exact (h.fetching t' begun fetch hold).trans (Nat.lt_succ_self _)
  returned r hr := by
    obtain ⟨htg,hb,hrf⟩ := h.returned r hr
    exact ⟨htg.trans (Nat.le_succ _),hb.trans (Nat.lt_succ_self _),
      fun n hn => (hrf n hn).trans (Nat.lt_succ_self _)⟩
  evicts _ _ := .inr ⟨t,.unlocking id,s.become_calls_self t _,rfl⟩
  mark v hv := by
    obtain rfl : value = v := Option.some.inj hv
    exact ⟨⟨_,rfl,le_rfl⟩,⟨_,rfl,le_rfl⟩⟩

theorem Shape.mark_serve (hs : Shape d s) (hc : s.calls t = some (.serving begun id take pc))
    (hok : MeetsRecord d s answer (.serving begun id take pc)) {v : Int}
    (h : Past d.incrementBy v s.disk.visible ∧ Past d.incrementBy v s.disk.synced) :
    Past d.incrementBy v (s.serve t answer begun id take pc).disk.visible ∧
      Past d.incrementBy v (s.serve t answer begun id take pc).disk.synced := by
  have hcall := hs.call t _ hc
  have hrt := hs.runtime id (hcall.known id rfl)
  rcases @advance_disk (s.runtimes id) s.disk t answer pc hrt.runs.durable with hd | ⟨durable,first,last,rfl,hv,hsy⟩
  · have hd' : (s.serve t answer begun id take pc).disk = s.disk := hd
    rw [hd']
    exact h
  · obtain ⟨-,ho⟩ := hrt.window.fits t _ (callsOn_eq_some.mpr ⟨begun,take,hc⟩)
    have hor := ho.ordered
    rw [hrt.pos_eq,hrt.pos_eq] at hor
    obtain ⟨⟨st,hvs,hle⟩,hp⟩ := h
    have hr : s.disk.visible = durable := hok.2
    have ha := (hcall.aimed begun id take durable first last rfl st (hr ▸ hvs)).1
    have hl : position d.incrementBy v ≤ position d.incrementBy last := (hle.trans ha).trans hor
    refine ⟨⟨_,hv,hl⟩,?_⟩
    rcases hsy with hsame | hnew
    · have hs' : (s.serve t answer begun id take (.flush durable first last)).disk.synced = s.disk.synced := hsame
      rw [hs']
      exact hp
    · exact ⟨_,hnew,hl⟩

theorem reborn_cases (progress : Progress) (id' : RuntimeId) :
    s.reborn id progress id' = s.born id' ∨ s.reborn id progress id' = s.epoch := by
  unfold reborn
  split
  · split
    · exact .inr rfl
    · exact .inl rfl
  · exact .inl rfl

theorem Book.serve (h : Book d s) (hs : Shape d s) (hc : s.calls t = some (.serving begun id take pc))
    (hok : MeetsRecord d s answer (.serving begun id take pc)) : Book d (s.serve t answer begun id take pc).tick := by
  obtain ⟨htg,hbg,hrf,hnn⟩ := h.serving t begun id take pc hc
  refine ⟨fun id' => ?_,fun t' begun' id' take' pc' hcall => ?_,fun t' begun' fetch hcall => ?_,fun r hr => ?_,
    fun id' hst => ?_,fun v hv => hs.mark_serve hc hok (h.mark v hv)⟩
  · rcases @reborn_cases s id ((s.runtimes id).advance s.disk t answer pc).2.2 id' with hb | hb
    · exact hb.le.trans (h.born id')
    · exact hb.le
  · rcases calls_serve hcall with ⟨rfl,hnew⟩ | ⟨-,hold⟩
    · cases hp : ((s.runtimes id).advance s.disk t' answer pc).2.2 with
      | goto new =>
        rw [hp] at hnew
        cases hnew
        refine ⟨?_,hbg.trans (Nat.lt_succ_self _),?_,fun htk => ?_⟩
        · cases pc' with
          | storeCalled cur => exact h.born _
          | publishNext first last => exact le_rfl
          | _ => exact htg
        · cases pc' with
          | publishNext first last =>
            rintro _ ⟨rfl⟩
            exact Nat.lt_succ_self _
          | _ => exact fun r hr => (hrf r hr).trans (Nat.lt_succ_self _)
        · have hrt : s.retake id take pc' = take := by
            refine retake_eq ?_ ?_
            · rintro cur rfl
              cases htk
            · rintro first last rfl
              cases htk
          rw [hrt]
          refine hnn ?_
          -- A call that has taken a value keeps it until it returns.
          cases hpc : pc.taken with
          | none => rfl
          | some v =>
            obtain ⟨-,-,hg⟩ := @SeqRuntime.advance_taken (s.runtimes id) s.disk t' answer pc v hpc
            rcases hg with ⟨hre,-⟩ | ⟨new',hgt,hsame,-⟩
            · rw [hre] at hp
              cases hp
            rw [hgt] at hp
            cases hp
            rw [htk] at hsame
            cases hsame
      | again | returned value | failed error =>
        rw [hp] at hnew
        cases hnew
    · obtain ⟨ht',hb',hr',hn'⟩ := h.serving t' begun' id' take' pc' hold
      exact ⟨ht',hb'.trans (Nat.lt_succ_self _),fun r hr => (hr' r hr).trans (Nat.lt_succ_self _),hn'⟩
  · rcases calls_serve hcall with ⟨rfl,hnew⟩ | ⟨-,hold⟩
    · cases hp : ((s.runtimes id).advance s.disk t' answer pc).2.2 with
      | again =>
        rw [hp] at hnew
        cases hnew
        exact hbg.trans (Nat.lt_succ_self _)
      | goto new | returned value | failed error =>
        rw [hp] at hnew
        cases hnew
    · exact (h.fetching t' begun' fetch hold).trans (Nat.lt_succ_self _)
  · rcases mem_append.mp hr with hold | hnew
    · obtain ⟨ht',hb',hr'⟩ := h.returned r hold
      exact ⟨ht',hb'.trans (Nat.lt_succ_self _),fun n hn => (hr' n hn).trans (Nat.lt_succ_self _)⟩
    · obtain ⟨value,-,rfl⟩ := mem_map.mp hnew
      exact ⟨htg,hbg.trans (Nat.lt_succ_self _),fun n hn => (hrf n hn).trans (Nat.lt_succ_self _)⟩
  · rcases @reborn_cases s id ((s.runtimes id).advance s.disk t answer pc).2.2 id' with hb | hb
    · rcases h.evicts id' hst with hbr | ⟨t',call,hcall,he⟩
      · exact .inl (hb.trans hbr)
      refine .inr ⟨t',call,?_,he⟩
      have ht : t' ≠ t := by
        rintro rfl
        rw [hc] at hcall
        cases hcall
        cases he
      exact (update_of_ne ht _ _).trans hcall
    · exact .inl hb

end

/-- The call began at the time or later, or reserved its block then. -/
def Late (time begun : Nat) (take : Take) : Prop := time ≤ begun ∨ ∃ r ∈ take.refilled, time ≤ r
deriving Decidable

/-- After the last `setval` the values of the late calls are all of the last epoch. -/
structure After (time : Nat) (s : State) : Prop where
  noSetval : ∀ t call, s.calls t = some call → call.isSetval = false
  stored : ∀ id, s.store = some id → s.born id = s.epoch
  serving : ∀ t begun id take pc, s.calls t = some (.serving begun id take pc) →
    (time ≤ begun → s.born id = s.epoch) ∧ (pc.taken ≠ none → Late time begun take → take.tag = s.epoch)
  returned : ∀ r ∈ s.returned, Late time r.begun r.take → r.take.tag = s.epoch

section
variable {d : PersistedSequence} {a : Step} {s s' : State} {time : Nat} {t : ThreadId} {answer : Answer} {begun : Nat}
  {id : RuntimeId} {take : Take} {pc : Pc}

theorem Book.after (h : Book d s) (hqt : ∀ t call, s.calls t = some call → call.isSetval = false) : After s.clock s where
  noSetval := hqt
  stored id hs := by
    rcases h.evicts id hs with hb | ⟨t,call,hc,he⟩
    · exact hb
    · have hst : call.isSetval = true := by cases call <;> first | rfl | cases he
      rw [hqt t call hc] at hst
      cases hst
  serving t begun id take pc hc := by
    obtain ⟨-,hbg,hrf,-⟩ := h.serving t begun id take pc hc
    refine ⟨fun hle => absurd hbg hle.not_gt,fun _ hlate => ?_⟩
    rcases hlate with hle | ⟨r,hr,hle⟩
    · exact absurd hbg hle.not_gt
    · exact absurd (hrf r hr) hle.not_gt
  returned r hr hlate := by
    obtain ⟨-,hbg,hrf⟩ := h.returned r hr
    rcases hlate with hle | ⟨n,hn,hle⟩
    · exact absurd hbg hle.not_gt
    · exact absurd (hrf n hn) hle.not_gt

theorem Idle.after (hi : Idle d a s s') (h : After time s) (ha : ∀ t value isCalled, a ≠ .beginSetval t value isCalled) :
    After time s'.tick where
  noSetval t call hc := by
    rcases hi.calls t call hc with hold | hf
    · exact h.noSetval t call hold
    have hnew : ¬((∃ value isCalled, a = .beginSetval t value isCalled) ∨
        ∃ old, s.calls t = some old ∧ old.isSetval = true) := by
      rintro (⟨value,isCalled,rfl⟩ | ⟨old,hold,hst⟩)
      · exact ha t value isCalled rfl
      · rw [h.noSetval t old hold] at hst
        cases hst
    cases call with
    | fetching purpose fetch =>
      cases purpose with
      | nextval begun => rfl
      | setval value isCalled => exact absurd hf hnew
    | serving begun id take pc => rfl
    | locking | flushing | unlocking | evicting => exact absurd hf hnew
  stored id hs := by
    rcases hi.store id hs with hb | ⟨hold,hb⟩
    · exact hb
    · have hep : s'.tick.epoch = s.epoch := hi.epoch
      rw [hep,← h.stored id hold]
      exact hb
  serving t begun id take pc hc := by
    have hep : s'.tick.epoch = s.epoch := hi.epoch
    rw [hep]
    rcases hi.calls t _ hc with hold | ⟨rfl,rfl,hso,-⟩
    · obtain ⟨hbr,htg⟩ := h.serving t begun id take pc hold
      refine ⟨fun hle => ?_,htg⟩
      rcases hi.born id with hb | hb
      · exact hb.trans (hbr hle)
      · exact hb
    · refine ⟨fun _ => ?_,fun hne => absurd rfl hne⟩
      rcases hi.store id hso with hb | ⟨hold,hb⟩
      · exact hb.trans hi.epoch
      · exact hb.trans (h.stored id hold)
  returned r hr hlate := by
    have hep : s'.tick.epoch = s.epoch := hi.epoch
    rw [hep]
    exact h.returned r (hi.returned ▸ hr) hlate

theorem After.serve (h : After time s) (hb : Book d s) (hc : s.calls t = some (.serving begun id take pc)) :
    After time (s.serve t answer begun id take pc).tick := by
  obtain ⟨hbr,htg⟩ := h.serving t begun id take pc hc
  have hrb : ∀ id', s.born id' = s.epoch → (s.serve t answer begun id take pc).tick.born id' = s.epoch := by
    intro id' he
    rcases @reborn_cases s id ((s.runtimes id).advance s.disk t answer pc).2.2 id' with hr | hr
    · exact hr.trans he
    · exact hr
  refine ⟨fun t' call hcall => ?_,fun id' hs => hrb id' (h.stored id' hs),
    fun t' begun' id' take' pc' hcall => ?_,fun r hr => ?_⟩
  · rcases calls_serve hcall with ⟨rfl,hnew⟩ | ⟨-,hold⟩
    · cases hp : ((s.runtimes id).advance s.disk t' answer pc).2.2 with
      | goto new | again =>
        rw [hp] at hnew
        cases hnew
        rfl
      | returned value | failed error =>
        rw [hp] at hnew
        cases hnew
    · exact h.noSetval t' call hold
  · rcases calls_serve hcall with ⟨rfl,hnew⟩ | ⟨-,hold⟩
    · cases hp : ((s.runtimes id).advance s.disk t' answer pc).2.2 with
      | goto new =>
        rw [hp] at hnew
        cases hnew
        refine ⟨fun hle => hrb id (hbr hle),fun htk hl => ?_⟩
        cases hpc : pc.taken with
        | some v =>
          have hrt : s.retake id take pc' = take := by
            refine retake_eq ?_ ?_
            · rintro cur rfl
              obtain ⟨⟨stop,rfl⟩,-⟩ := advance_goto hp
              cases hpc
            · rintro first last rfl
              obtain ⟨durable,rfl⟩ := advance_goto hp
              cases hpc
          rw [hrt] at hl ⊢
          exact htg (by simp [hpc]) hl
        | none =>
          rcases (@advance_takes (s.runtimes id) s.disk t' answer pc hpc).2 pc' hp with
            hn | ⟨cur,rfl⟩ | ⟨first,last,rfl⟩
          · exact absurd hn htk
          · rcases hl with hle | ⟨r,hr,-⟩
            · exact hbr hle
            · rw [retake,(hb.serving t' begun id take pc hc).2.2.2 hpc] at hr
              cases hr
          · rfl
      | again | returned value | failed error =>
        rw [hp] at hnew
        cases hnew
    · obtain ⟨hb',ht'⟩ := h.serving t' begun' id' take' pc' hold
      exact ⟨fun hle => hrb id' (hb' hle),ht'⟩
  · rcases mem_append.mp hr with hold | hnew
    · exact h.returned r hold
    obtain ⟨value,hv,rfl⟩ := mem_map.mp hnew
    refine htg fun hpc => ?_
    have hm : value ∈ ((s.runtimes id).advance s.disk t answer pc).2.2.handed := hv
    rw [(advance_takes hpc).1] at hm
    cases hm

end

structure Inv (d : PersistedSequence) (s : State) : Prop where
  shape : Shape d s
  ledger : Ledger d s
  book : Book d s

theorem inv_start {record : Option PersistedSeqState}
    (hr : Within d (recordOf d record).lastReserved) : Inv d (start d record) where
  shape := ⟨fun _ hid => absurd hid (Nat.not_lt_zero _),by simp [start],by simp [start],hr⟩
  ledger := by
    have hf : ∀ id w, ¬Free d (start d record) id w := fun id w hw => absurd hw.1 (Nat.not_lt_zero _)
    have hp : ∀ t v, ¬Pending (start d record) t v := by
      rintro t v ⟨begun,id,take,pc,hc,-⟩
      cases hc
    refine ⟨fun id w hw => absurd hw (hf id w),?_,fun v id hv hw => hf id v hw,
      fun id _ w hw _ => absurd hw (hf id w),nodup_nil,fun t v hv => absurd hv (hp t v),
      fun t _ v hv _ => absurd hv (hp t v)⟩
    rintro v (hv | ⟨t,hv⟩)
    · cases hv
    · exact absurd hv (hp t v)
  book := ⟨fun _ => le_rfl,by simp [start],by simp [start],by simp [start],by simp [start],by simp [start]⟩

section
variable {d : PersistedSequence} {s : State}
variable {a : Step} {t' : ThreadId}

theorem step_eq_tick (hs : Shape d s) (hok : RecordsHold d s a) : step d s a = (act d s a).tick := by
  have hc : (act d s a).clock = s.clock := by
    rcases act_cases hs hok with hi | ⟨t,answer,begun,id,take,pc,-,-,he⟩ | ⟨t,id,value,isCalled,-,he⟩
    · exact hi.clock
    · rw [he]
      rfl
    · rw [he]
      rfl
  rw [step,tick,hc]

theorem Inv.step (hd : Proper d) (h : Inv d s) {a : Step} (hok : RecordsHold d s a) : Inv d (step d s a) := by
  rw [step_eq_tick h.shape hok]
  have hs := h.shape.act hd a hok
  rcases act_cases h.shape hok with hi | ⟨t,answer,begun,id,take,pc,hc,hm,he⟩ | ⟨t,id,value,isCalled,hc,he⟩
  · exact ⟨hs.tick,(hi.ledger h.shape h.ledger).tick,hi.book h.book⟩
  · rw [he] at hs ⊢
    exact ⟨hs.tick,(h.ledger.serve h.shape hc hm).tick,h.book.serve h.shape hc hm⟩
  rw [he] at hs ⊢
  refine ⟨hs.tick,(Ledger.fresh ?_ ?_ ?_).tick,h.book.flushed⟩
  · exact fun id' => Nat.lt_succ_of_le (h.book.born id')
  · intro t' begun id' take pc hcall
    rcases calls_become hcall with ⟨-,hn⟩ | ⟨-,hold⟩
    · cases hn
    · exact Nat.lt_succ_of_le (h.book.serving t' begun id' take pc hold).1
  · exact fun r hr => Nat.lt_succ_of_le (h.book.returned r hr).1

/-- The step begins no `setval`. -/
def Step.keeps : Step → Bool
  | .beginSetval _ _ _ => false
  | _ => true

theorem After.step {time : Nat} (h : After time s) (hin : Inv d s) {a : Step} (hok : RecordsHold d s a)
    (ha : a.keeps = true) : After time (step d s a) := by
  rw [step_eq_tick hin.shape hok]
  rcases act_cases hin.shape hok with hi | ⟨t,answer,begun,id,take,pc,hc,-,he⟩ | ⟨t,id,value,isCalled,hc,he⟩
  · refine hi.after h ?_
    rintro t value isCalled rfl
    cases ha
  · rw [he]
    exact h.serve hin.book hc
  · cases h.noSetval t _ hc

/-- No `setval` is in flight. -/
def Quiescent (s : State) : Prop := ∀ t call, s.calls t = some call → call.isSetval = false

/-- The values of the calls that began at the time or later, or reserved a block then. -/
def lateValues (s : State) (time : Nat) : List Int :=
  (s.returned.filter fun r => Late time r.begun r.take).map (·.value)

/-- What `setval` promises of a run: the mark stays past the value that was set last, and once
the last `setval` has returned no late value is returned twice. -/
structure Settles (d : PersistedSequence) (record : Option PersistedSeqState) (steps : List Step) : Prop where
  marked : ∀ v ∈ (run (step d) (start d record) steps).lastSet,
    Past d.incrementBy v (run (step d) (start d record) steps).disk.visible ∧
      Past d.incrementBy v (run (step d) (start d record) steps).disk.synced
  distinct : ∀ first rest, steps = first ++ rest → Quiescent (run (step d) (start d record) first) →
    (∀ a ∈ rest, a.keeps = true) →
    (lateValues (run (step d) (start d record) steps) (run (step d) (start d record) first).clock).Nodup

theorem After.nodup {time : Nat} (h : After time s) (hl : Ledger d s) : (lateValues s time).Nodup := by
  have hf : (s.returned.filter fun r => Late time r.begun r.take) =
      (s.returned.filter fun r => r.take.tag = s.epoch).filter fun r => Late time r.begun r.take := by
    rw [filter_filter]
    refine filter_congr fun r hr => ?_
    by_cases hlt : Late time r.begun r.take
    · simp [hlt,h.returned r hr hlt]
    · simp [hlt]
  rw [lateValues,hf]
  exact List.Nodup.sublist (filter_sublist.map _) hl.unique

/-- The late values are distinct and the mark stays past the last `setval` in every run in
which the refills flush on the record that they have read and read one that agrees with
their runtime. -/
theorem setval_settles (d : PersistedSequence) (hd : Proper d) (record : Option PersistedSeqState)
    (hrecord : ∀ st ∈ record, d.minValue ≤ st.lastReserved ∧ st.lastReserved ≤ d.maxValue) (steps : List Step)
    (hguard : Guarded (step d) (RecordsHold d) (start d record) steps) : Settles d record steps := by
  have hwithin : Within d (recordOf d record).lastReserved := by
    cases record with
    | none => exact hd.started
    | some st => exact hrecord st rfl
  have hrun : ∀ {steps}, Guarded (step d) (RecordsHold d) (start d record) steps →
      Inv d (run (step d) (start d record) steps) :=
    fun hg => guarded_run_invariant (step d) (Inv d) (fun s a h hok => h.step hd hok) (inv_start hwithin) hg
  refine ⟨(hrun hguard).book.mark,?_⟩
  rintro first rest rfl hquiet hrest
  obtain ⟨hfirst,hsecond⟩ := (guarded_append (step d)).mp hguard
  have hafter := (hrun hfirst).book.after hquiet
  have hend := guarded_run_invariant (step d)
    (fun s => Inv d s ∧ After (run (step d) (start d record) first).clock s)
    (fun s a h hok => ⟨h.1.step hd hok.1,h.2.step h.1 hok.1 hok.2⟩) ⟨hrun hfirst,hafter⟩
    (hsecond.and_forall (step d) hrest)
  rw [run_append]
  exact hend.2.nodup hend.1.ledger

/-- The accesses of a call that builds its runtime, up to the flush, and from there to the return. -/
def untilFlush (t : ThreadId) : List Step := .beginNextval t :: List.replicate 11 (.advance t .done)
def fromFlush (t : ThreadId) : List Step := List.replicate 6 (.advance t .done)

/-- A call of `setval` that builds its runtime. -/
def settingCall (t : ThreadId) (value : Int) (isCalled : Bool) : List Step :=
  .beginSetval t value isCalled :: List.replicate 7 (.advance t .done)

/-- A sequence from one without a cache. -/
def plainSequence : PersistedSequence := ⟨"s",1,1,1,100,1,false⟩

theorem plainSequence_proper : Proper plainSequence := ⟨by decide,by decide,by decide,by decide,by decide⟩

/-- A call that is in flight when `setval` returns and refills after it. -/
theorem setval_settles_sample : (lateValues (run (step plainSequence) (start plainSequence none)
      ([.beginNextval 1] ++ settingCall 2 10 true ++ (untilFlush 3 ++ fromFlush 3) ++
        List.replicate 15 (.advance 1 .done))) 9) = [11,12] ∧
    Settles plainSequence none ([.beginNextval 1] ++ settingCall 2 10 true ++ (untilFlush 3 ++ fromFlush 3) ++
      List.replicate 15 (.advance 1 .done)) :=
  ⟨by decide +kernel,setval_settles plainSequence plainSequence_proper none (by simp) _ (by decide +kernel)⟩

def Step.thread : Step → Option ThreadId
  | .beginNextval t | .beginSetval t _ _ | .advance t _ => some t
  | .invalidateCache => none

variable {t : ThreadId}

theorem obtain_calls_of_ne (h : t' ≠ t) (id : RuntimeId) (purpose : Purpose) : (s.obtain t id purpose).calls t' = s.calls t' := by
  cases purpose with
  | nextval begun => exact become_calls_of_ne _ h
  | setval value isCalled =>
    rw [obtain]
    split <;> exact become_calls_of_ne _ h

theorem fetch_calls_of_ne (h : t' ≠ t) (answer : Answer) (purpose : Purpose) (fetch : Fetch) :
    (s.fetch d t answer purpose fetch).calls t' = s.calls t' := by
  cases fetch with
  | lookup =>
    rw [fetch]
    split
    · exact obtain_calls_of_ne h _ _
    · exact become_calls_of_ne _ h
  | readState => cases answer <;> exact become_calls_of_ne _ h
  | insert rt =>
    rw [fetch]
    split
    · exact obtain_calls_of_ne h _ _
    · exact obtain_calls_of_ne h _ _

theorem step_calls_of_ne (h : a.thread ≠ some t) : (step d s a).calls t = s.calls t := by
  cases a with
  | beginNextval t' | beginSetval t' value isCalled =>
    have ht : t ≠ t' := fun he => h (he ▸ rfl)
    rw [step,act]
    split
    · exact become_calls_of_ne _ ht
    · rfl
  | invalidateCache => rfl
  | advance t' answer =>
    have ht : t ≠ t' := fun he => h (he ▸ rfl)
    rw [step,act]
    split
    · rfl
    next call _ =>
      cases call with
      | fetching purpose fetch => exact fetch_calls_of_ne ht answer purpose fetch
      | serving begun id take pc => exact update_of_ne ht _ _
      | locking id value isCalled =>
        rw [progress]
        split
        · exact become_calls_of_ne _ ht
        · rfl
      | flushing id value isCalled => cases answer <;> exact become_calls_of_ne _ ht
      | unlocking id | evicting => exact become_calls_of_ne _ ht

theorem run_calls_of_ne {steps : List Step} (h : ∀ a ∈ steps, a.thread ≠ some t) :
    (run (step d) s steps).calls t = s.calls t := by
  induction steps generalizing s with
  | nil => rfl
  | cons a rest ih =>
    obtain ⟨ha,hrest⟩ := forall_mem_cons.mp h
    rw [run_cons,ih hrest,step_calls_of_ne ha]

/-- A refill that has read the record before an eviction flushes after the `setval`: the mark
moves back behind the value set, and a value is returned twice. -/
theorem stale_refill_undoes_setval :
    ¬Settles plainSequence none (untilFlush 1 ++ [.invalidateCache] ++ settingCall 2 10 true ++ fromFlush 1) ∧
    ¬Settles plainSequence none (untilFlush 1 ++ [.invalidateCache] ++ settingCall 2 1 false ++
      (untilFlush 3 ++ fromFlush 3 ++ fromFlush 1)) := by
  constructor
  · intro h
    obtain ⟨-,st,hst,hle⟩ := h.marked 10 (by decide +kernel)
    have hback : (run (step plainSequence) (start plainSequence none)
        (untilFlush 1 ++ [.invalidateCache] ++ settingCall 2 10 true ++ fromFlush 1)).disk.synced = some ⟨1,true⟩ := by
      decide +kernel
    rw [hback] at hst
    cases hst
    exact absurd hle (by decide)
  · intro h
    have hquiet : Quiescent (run (step plainSequence) (start plainSequence none)
        (untilFlush 1 ++ [.invalidateCache] ++ settingCall 2 1 false)) := by
      intro t call hc
      by_cases h₁ : t = 1
      · subst h₁
        have hflush : (run (step plainSequence) (start plainSequence none)
            (untilFlush 1 ++ [.invalidateCache] ++ settingCall 2 1 false)).calls 1 =
              some (.serving 0 0 ⟨none,0⟩ (.flush none 1 1)) := by
          decide +kernel
        rw [hflush] at hc
        cases hc
        rfl
      · by_cases h₂ : t = 2
        · subst h₂
          have hdone : (run (step plainSequence) (start plainSequence none)
              (untilFlush 1 ++ [.invalidateCache] ++ settingCall 2 1 false)).calls 2 = none := by
            decide +kernel
          rw [hdone] at hc
          cases hc
        · rw [run_calls_of_ne] at hc
          · cases hc
          · intro a ha hthread
            have hnamed : ∀ a ∈ untilFlush 1 ++ [.invalidateCache] ++ settingCall 2 1 false,
                a.thread ∈ [none,some 1,some 2] := by
              decide
            have hmem := hnamed a ha
            rw [hthread] at hmem
            simp [h₁,h₂] at hmem
    have htwice := h.distinct _ _ rfl hquiet (by decide)
    exact absurd htwice (by decide +kernel)

end

end HeliosNano.Sql.Setval
