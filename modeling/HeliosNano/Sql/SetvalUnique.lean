import HeliosNano.Sql.Setval

namespace HeliosNano.Sql.Setval
open Foundation SeqRuntime Nextval List Function Option State Call

section
variable {d : PersistedSequence} {rt : SeqRuntime} {calls : ThreadId → Option Pc}
variable (h : RuntimeOk d rt calls)
include h

theorem RuntimeOk.pos_eq (v : Int) : rt.pos v = position d.incrementBy v := by
  rw [pos,h.runs.increment]

theorem RuntimeOk.within {v : Int} (hv : Within d v) : rt.lowest ≤ rt.pos v ∧ rt.pos v ≤ rt.highest := by
  apply within_iff.mpr
  rw [h.runs.minValue,h.runs.maxValue]
  exact hv

theorem RuntimeOk.firstOfBlock {inMemCalled : Bool} {record : Option PersistedSeqState}
    (hr : Within d (recordOf d record).lastReserved) (ha : Agrees rt inMemCalled record) {first : Int}
    (hf : rt.firstOfBlock rt.blockEnd inMemCalled record = .ok first) :
    (rt.lowest ≤ rt.pos first ∧ rt.pos first ≤ rt.highest ∧ rt.pos rt.blockEnd < rt.pos first) ∧
      ∀ st, record = some st → rt.pos st.lastReserved ≤ rt.pos first ∧
        (st.isCalled = true → rt.pos st.lastReserved < rt.pos first) := by
  have hp := h.window.proper
  have hm := hp.moves
  have hfl := h.floor
  unfold Agrees at ha
  unfold SeqRuntime.firstOfBlock at hf
  dsimp only at hf
  by_cases hcl : ((record.map (·.isCalled)).getD false || inMemCalled) = true
  · rw [if_pos hcl] at ha
    rw [hcl,Bool.not_true,if_neg (by simp)] at hf
    obtain ⟨had,hh⟩ := checkedStep_ok hp hf
    cases record with
    | none =>
      simp only [map_none,getD_none,max_self] at had
      refine ⟨⟨?_,hh,?_⟩,by simp⟩
      all_goals
        unfold pos position lowest at *
        split_ifs at * <;> omega
    | some st =>
      obtain ⟨hl,-⟩ := h.within hr
      simp only [recordOf,getD_some] at hl
      simp only [map_some,getD_some] at had ha
      have hps : rt.pos st.lastReserved < rt.pos first := by
        unfold pos position lowest at *
        split_ifs at * <;> omega
      refine ⟨⟨hl.trans hps.le,hh,?_⟩,?_⟩
      · unfold pos position lowest at *
        split_ifs at * <;> omega
      · rintro _ ⟨rfl⟩
        exact ⟨hps.le,fun _ => hps⟩
  · rw [if_neg hcl] at ha
    rw [Bool.not_eq_true] at hcl
    rw [hcl,Bool.not_false,if_pos rfl] at hf
    cases record with
    | none =>
      obtain rfl := Except.ok.inj hf
      obtain ⟨hl,hh⟩ := h.within h.target
      exact ⟨⟨hl,hh,ha⟩,by simp⟩
    | some st =>
      have hn : st.isCalled = false := by
        simp only [map_some,getD_some,Bool.or_eq_false_iff] at hcl
        exact hcl.1
      simp only [hn,Bool.false_eq_true,if_false,Except.ok.injEq] at hf
      subst hf
      obtain ⟨hl,hh⟩ := h.within hr
      refine ⟨⟨hl,hh,ha⟩,?_⟩
      rintro _ ⟨rfl⟩
      refine ⟨le_rfl,fun hc => ?_⟩
      rw [hn] at hc
      cases hc

end

section
variable {d : PersistedSequence} {s : State} {t : ThreadId} {answer : Answer} {begun : Nat} {id : RuntimeId}
  {take : Take} {pc : Pc}

theorem serve_runtime_self : (s.serve t answer begun id take pc).runtimes id =
    ((s.runtimes id).advance s.disk t answer pc).1 := by
  simp [serve]

theorem serve_runtime_of_ne {id' : RuntimeId} (h : id' ≠ id) :
    (s.serve t answer begun id take pc).runtimes id' = s.runtimes id' := by
  simp [serve,update_of_ne h]

theorem calls_serve {t' : ThreadId} {new : Call} (h : (s.serve t answer begun id take pc).calls t' = some new) :
    t' = t ∧ s.goesOn begun id take ((s.runtimes id).advance s.disk t answer pc).2.2 = some new ∨
      t' ≠ t ∧ s.calls t' = some new := by
  by_cases ht : t' = t
  · subst ht
    refine .inl ⟨rfl,?_⟩
    simpa [serve] using h
  · refine .inr ⟨ht,?_⟩
    simpa [serve,update_of_ne ht] using h

theorem pcOn_goesOn (s : State) (begun : Nat) (id id' : RuntimeId) (take : Take) (progress : Progress) :
    pcOn id' (s.goesOn begun id take progress) = if id = id' then progress.stays else none := by
  cases progress with
  | goto new => rfl
  | again | returned value | failed error => simp [State.goesOn,pcOn,Progress.stays]

theorem callsOn_serve (id' : RuntimeId) : callsOn (s.serve t answer begun id take pc) id' = Function.update (callsOn s id') t
      (if id = id' then ((s.runtimes id).advance s.disk t answer pc).2.2.stays else none) := by
  rw [← pcOn_goesOn s begun id id' take]
  funext t'
  by_cases ht : t' = t
  · subst ht
    simp [callsOn,serve]
  · simp [callsOn,serve,update_of_ne ht]

theorem Shape.opensPast (h : Shape d s) (hc : s.calls t = some (.serving begun id take pc))
    (hok : MeetsRecord d s answer (.serving begun id take pc)) : (s.runtimes id).OpensPast s.disk answer pc ∧
      ∀ durable first last, ((s.runtimes id).advance s.disk t answer pc).2.2 = .goto (.flush durable first last) →
        ∀ st, durable = some st → position d.incrementBy st.lastReserved ≤ position d.incrementBy first ∧
          (st.isCalled = true → position d.incrementBy st.lastReserved < position d.incrementBy first) := by
  have hrt := h.runtime id ((h.call t _ hc).known id rfl)
  have hon : callsOn s id t = some pc := callsOn_eq_some.mpr ⟨begun,take,hc⟩
  have hr : ∀ durable, (s.runtimes id).readDurable s.disk answer = .ok durable → durable = s.disk.visible := by
    intro durable hd
    simp only [readDurable,hrt.runs.durable,Bool.false_eq_true,if_false] at hd
    split at hd
    · cases hd
    · exact (Except.ok.inj hd).symm
  constructor
  · cases pc with
    | readState inMemHigh inMemCalled =>
      obtain ⟨-,rfl,-⟩ := hrt.window.fits t _ hon
      intro durable first hd hf
      rw [hr durable hd] at hf
      exact (hrt.firstOfBlock h.record hok.2 hf).1
    | _ => trivial
  · intro durable first last hg st hst
    obtain ⟨inMemHigh,inMemCalled,rfl,hd,hf⟩ := advance_goto hg
    obtain ⟨-,rfl,-⟩ := hrt.window.fits t _ hon
    rw [hr durable hd] at hf hst
    rw [← hrt.pos_eq,← hrt.pos_eq]
    exact (hrt.firstOfBlock h.record hok.2 hf).2 st hst

theorem RuntimeOk.within_last {rt : SeqRuntime} {calls : ThreadId → Option Pc} (h : RuntimeOk d rt calls) {first last : Int}
    (ho : rt.Opens first last) : Within d last := by
  have hin := within_iff.mp ⟨ho.low.trans ho.ordered,ho.high⟩
  rwa [h.runs.minValue,h.runs.maxValue] at hin

theorem Shape.serve (h : Shape d s) (hc : s.calls t = some (.serving begun id take pc))
    (hok : MeetsRecord d s answer (.serving begun id take pc)) : Shape d (s.serve t answer begun id take pc) := by
  have hid := (h.call t _ hc).known id rfl
  have hrt := h.runtime id hid
  have hon : callsOn s id t = some pc := callsOn_eq_some.mpr ⟨begun,take,hc⟩
  have hf := hrt.window.fits t pc hon
  obtain ⟨hopen,ha⟩ := h.opensPast hc hok
  have hsame : (s.runtimes id).SameDefinition ((s.runtimes id).advance s.disk t answer pc).1 := advance_same
  refine ⟨fun id' hid' => ?_,fun t' call hcall => ?_,h.stored,?_⟩
  · rw [callsOn_serve]
    by_cases he : id' = id
    · subst he
      rw [serve_runtime_self,if_pos rfl]
      have haf := hrt.window.advance hon s.disk answer hok.1 hopen
      refine ⟨hrt.runs.same hsame,haf.weaken fun _ _ hs => hs,?_,?_⟩
      · rw [hsame.lowest_eq,hsame.pos_eq]
        rcases @advance_blockEnd (s.runtimes id') s.disk t answer pc with hb | hb
        · rw [hb]
          exact hrt.floor
        · obtain ⟨-,first,ho⟩ := publishes_opens hf hb
          have hlw := ho.low.trans ho.ordered
          omega
      · rw [hsame.notCalledTarget]
        exact hrt.target
    · rw [serve_runtime_of_ne he,if_neg (Ne.symm he)]
      have hoh := h.runtime id' hid'
      refine hoh.of_calls (hoh.window.weaken fun t' pc' hs => ?_)
      by_cases ht : t' = t
      · subst ht
        simp at hs
      · rwa [update_of_ne ht] at hs
  · rcases calls_serve hcall with ⟨rfl,hnew⟩ | ⟨ht,hold⟩
    · cases hp : ((s.runtimes id).advance s.disk t' answer pc).2.2 with
      | goto new =>
        rw [hp] at hnew
        cases hnew
        refine ⟨?_,by simp [Call.locks],by simp [Call.sets],by simp,?_⟩
        · rintro _ ⟨rfl⟩
          exact hid
        · rintro begun' id' take' durable first last ⟨rfl,rfl,rfl,rfl⟩
          exact ha durable first last hp
      | again =>
        rw [hp] at hnew
        cases hnew
        exact ⟨by simp [Call.runtime],by simp [Call.locks],by simp [Call.sets],by simp,by simp⟩
      | returned value | failed error =>
        rw [hp] at hnew
        cases hnew
    · refine (h.call t' call hold).mono le_rfl fun id' hl => ?_
      by_cases he : id' = id
      · subst he
        rw [serve_runtime_self]
        have hh := (h.call t' call hold).held id' hl
        rcases @advance_refill (s.runtimes id') s.disk t answer pc with hr | hr | hcr
        · exact hr
        · rw [hr] at hh
          cases hh
        · rw [hrt.window.held t pc hon hcr] at hh
          exact absurd (Option.some.inj hh).symm ht
      · rw [serve_runtime_of_ne he]
  · rcases @advance_disk (s.runtimes id) s.disk t answer pc hrt.runs.durable with hd | ⟨durable,first,last,rfl,hv,-⟩
    · have hd' : (s.serve t answer begun id take pc).disk = s.disk := hd
      rw [hd']
      exact h.record
    · have hv' : (s.serve t answer begun id take (.flush durable first last)).disk.visible = some ⟨last,true⟩ := hv
      rw [hv']
      exact hrt.within_last hf.2

end

section
variable {d : PersistedSequence} {s : State} {t : ThreadId}

theorem callOk_fetching {purpose : Purpose} {fetch : Fetch}
    (h : ∀ rt, fetch = .insert rt → RuntimeOk d rt (fun _ => none) ∧ rt.Exhausted) : CallOk d s t (.fetching purpose fetch) := by
  refine ⟨by simp [runtime],by simp [locks],by simp [sets],?_,by simp⟩
  rintro purpose' rt ⟨rfl,rfl⟩
  exact h rt rfl

variable {id : RuntimeId}

theorem Shape.obtain (h : Shape d s) (hid : id < s.allocated) (purpose : Purpose) : Shape d (s.obtain t id purpose) := by
  cases purpose with
  | nextval begun =>
    refine h.become ?_ ?_
    · intro id' pc hp
      simp only [pcOn,ite_none_right_eq_some,some.injEq] at hp
      exact hp.2.symm
    · rintro _ ⟨rfl⟩
      refine ⟨?_,by simp [locks],by simp [sets],by simp,by simp⟩
      rintro _ ⟨rfl⟩
      exact hid
  | setval value isCalled =>
    rw [State.obtain]
    split
    · exact h.become (by simp [pcOn]) (by simp)
    next hin =>
      refine h.become (by simp [pcOn]) ?_
      rintro _ ⟨rfl⟩
      refine ⟨?_,by simp [locks],?_,by simp,by simp⟩
      · rintro _ ⟨rfl⟩
        exact hid
      · rintro _ ⟨rfl⟩
        have hr := (h.runtime id hid).runs
        rw [not_or,not_lt,not_lt,hr.minValue,hr.maxValue] at hin
        exact hin

theorem runtimeOk_fromPersisted (hd : Proper d) {record : Option PersistedSeqState}
    (hr : Within d (recordOf d record).lastReserved) (hp : ¬ParksBeyond d record) :
    RuntimeOk d (fromPersisted d record false) (fun _ => none) ∧ (fromPersisted d record false).Exhausted := by
  have hi := @inv_resume d record hd [] ⟨hr,nodup_nil,by simp,by simp,by simp⟩ hp
  have hi64 : IsI64 (recordOf d record).lastReserved :=
    ⟨hd.low.1.trans hr.1,hr.2.trans hd.high.2⟩
  refine ⟨⟨hi.runs,hi.window,hi.floor,hr⟩,?_⟩
  have hps : ∀ v, (fromPersisted d record false).pos v = position d.incrementBy v := fun v => rfl
  rw [Exhausted,hps,hps]
  cases hc : (recordOf d record).isCalled with
  | true =>
    obtain ⟨he,hn⟩ := fromPersisted_called hc hi64 hp
    rw [he,hn]
    omega
  | false =>
    obtain ⟨hn,he⟩ := fromPersisted_not_called hd hc hi64 hp
    rw [he,hn]
    omega

theorem Shape.fetch (hd : Proper d) (h : Shape d s) {purpose : Purpose} {fetch : Fetch}
    (hc : s.calls t = some (.fetching purpose fetch)) (answer : Answer)
    (hok : MeetsRecord d s answer (.fetching purpose fetch)) : Shape d (s.fetch d t answer purpose fetch) := by
  cases fetch with
  | lookup =>
    rw [State.fetch]
    split
    next id hs =>
      exact h.obtain (h.stored id hs) purpose
    · refine h.become (by simp [pcOn]) ?_
      rintro _ ⟨rfl⟩
      exact callOk_fetching (by simp)
  | readState =>
    have hb : Shape d (s.become t (some (.fetching purpose (.insert (fromPersisted d s.disk.visible false))))) := by
      refine h.become (by simp [pcOn]) ?_
      rintro _ ⟨rfl⟩
      refine callOk_fetching ?_
      rintro _ ⟨rfl⟩
      exact runtimeOk_fromPersisted hd h.record hok
    cases answer with
    | readFailed error => exact h.become (by simp [pcOn]) (by simp)
    | done | notSaved error | notSynced reason => exact hb
  | insert rt =>
    rw [State.fetch]
    split
    next id hs =>
      exact h.obtain (h.stored id hs) purpose
    · exact (h.allocate ((h.call t _ hc).built purpose rt rfl).1).obtain (Nat.lt_succ_self _) purpose

theorem become_unlock (id : RuntimeId) (call : Option Call) : (s.unlock id).become t call = (s.become t call).unlock id :=
  rfl

variable (h : Shape d s)
include h

theorem Shape.outside {call : Call} (hc : s.calls t = some call)
    (hl : call.locks = some id) (hid : id < s.allocated) (t' : ThreadId) (pc : Pc) (hon : callsOn s id t' = some pc) :
    pc.critical = false := by
  by_contra hcr
  rw [Bool.not_eq_false] at hcr
  have hh := (h.runtime id hid).window.held t' pc hon hcr
  rw [(h.call t call hc).held id hl] at hh
  obtain rfl := Option.some.inj hh
  obtain ⟨begun,take,hs⟩ := callsOn_eq_some.mp hon
  rw [hc] at hs
  cases hs
  cases hl

theorem Shape.unlock {call : Call} (hc : s.calls t = some call)
    (hl : call.locks = some id) (hr : call.runtime = some id) {new : Option Call}
    (hnew : ∀ next ∈ new, next = .evicting) : Shape d ((s.unlock id).become t new) := by
  have hid := (h.call t call hc).known id hr
  have hpc : ∀ id' pc, pcOn id' new = some pc → pc = .loadNext := by
    intro id' pc hp
    cases new with
    | none => cases hp
    | some next =>
      rw [hnew next rfl] at hp
      cases hp
  have hb : Shape d (s.become t new) := by
    refine h.become hpc ?_
    intro next hn
    rw [hnew next hn]
    exact ⟨by simp [Call.runtime],by simp [Call.locks],by simp [Call.sets],by simp,by simp⟩
  rw [become_unlock]
  refine hb.relock id none ?_ ?_
  · intro t' pc hon
    obtain ⟨begun,take,hcall⟩ := callsOn_eq_some.mp hon
    rcases calls_become hcall with ⟨rfl,hn⟩ | ⟨-,hold⟩
    · cases hnew _ hn
    · exact h.outside hc hl hid t' pc (callsOn_eq_some.mpr ⟨begun,take,hold⟩)
  · intro t' call' hcall hl'
    rcases calls_become hcall with ⟨rfl,hn⟩ | ⟨ht,hold⟩
    · rw [hnew call' hn] at hl'
      cases hl'
    · have hh := (h.call t' call' hold).held id hl'
      rw [(h.call t call hc).held id hl] at hh
      exact ht (Option.some.inj hh).symm

theorem Shape.frame {s' : State} (hr : s'.runtimes = s.runtimes) (ha : s'.allocated = s.allocated) (hcl : s'.calls = s.calls)
    (hs : ∀ id, s'.store = some id → s.store = some id)
    (hrc : Within d (recordOf d s'.disk.visible).lastReserved) : Shape d s' where
  runtime id hid := by
    have hon : callsOn s' id = callsOn s id := by
      unfold callsOn
      rw [hcl]
    rw [hr,hon]
    exact h.runtime id (ha ▸ hid)
  call t call hc := (h.call t call (hcl ▸ hc)).mono ha.ge fun id _ => by rw [hr]
  stored id hid := ha ▸ h.stored id (hs id hid)
  record := hrc

theorem Shape.lock {value : Int} {isCalled : Bool}
    (hc : s.calls t = some (.locking id value isCalled)) (hf : (s.runtimes id).refill = none) :
    Shape d ((s.setRuntime id { s.runtimes id with refill := some t }).become t (some (.flushing id value isCalled))) := by
  have hold := h.call t _ hc
  have hlk : Shape d (s.setRuntime id { s.runtimes id with refill := some t }) := by
    refine h.relock id (some t) (fun t' pc hon => ?_) (fun t' call hcall hl => ?_)
    · by_contra hcr
      rw [Bool.not_eq_false] at hcr
      have hh := (h.runtime id (hold.known id rfl)).window.held t' pc hon hcr
      rw [hf] at hh
      cases hh
    · have hh := (h.call t' call hcall).held id hl
      rw [hf] at hh
      cases hh
  refine hlk.become (by simp [pcOn]) ?_
  rintro _ ⟨rfl⟩
  refine ⟨hold.known,?_,hold.bounded,by simp,by simp⟩
  rintro _ ⟨rfl⟩
  rw [setRuntime_self]

omit h

theorem Shape.act (hd : Proper d) (h : Shape d s) (a : Step) (hok : RecordsHold d s a) : Shape d (act d s a) := by
  cases a with
  | beginNextval t | beginSetval t value isCalled =>
    rw [Setval.act]
    split
    · refine h.become (by simp [pcOn]) ?_
      rintro _ ⟨rfl⟩
      exact callOk_fetching (by simp)
    · exact h
  | invalidateCache => exact h.frame rfl rfl rfl (by simp [Setval.act]) h.record
  | advance t answer =>
    rw [Setval.act]
    split
    · exact h
    next call hc =>
      have hm := hok call hc
      cases call with
      | fetching purpose fetch => exact h.fetch hd hc answer hm
      | serving begun id take pc => exact h.serve hc hm
      | locking id value isCalled =>
        rw [progress]
        split
        next hfr =>
          exact h.lock hc hfr
        · exact h
      | flushing id value isCalled =>
        have hf : Shape d (s.become t (some (.unlocking id))) := by
          refine h.become (by simp [pcOn]) ?_
          rintro _ ⟨rfl⟩
          exact ⟨(h.call t _ hc).known,(h.call t _ hc).held,by simp [sets],by simp,by simp⟩
        have hw := (h.call t _ hc).bounded value rfl
        cases answer with
        | notSaved error => exact h.unlock hc rfl rfl (by simp)
        | notSynced reason => cases hm
        | done | readFailed error => exact hf.frame rfl rfl rfl (fun _ hs => hs) hw
      | unlocking id => exact h.unlock hc rfl rfl (by simp)
      | evicting =>
        have hg : Shape d (s.become t none) := h.become (by simp [pcOn]) (by simp)
        exact hg.frame rfl rfl rfl (by simp [progress]) h.record

end

section
variable {d : PersistedSequence} {s : State}

def block : Pc → Option (Int × Int)
  | .publishNext first last | .publishCalled first last | .publishServed first last
  | .publishEnd first last => some (first,last)
  | _ => none

/-- The runtime may still hand out the value: it lies in the open window, or in a block that
is flushed and not open yet. -/
def Free (d : PersistedSequence) (s : State) (id : RuntimeId) (w : Int) : Prop :=
  id < s.allocated ∧ s.born id = s.epoch ∧
    (position d.incrementBy (s.runtimes id).next ≤ position d.incrementBy w ∧
        position d.incrementBy w ≤ position d.incrementBy (s.runtimes id).blockEnd ∨
      ∃ t pc first last, callsOn s id t = some pc ∧ block pc = some (first,last) ∧
        position d.incrementBy first < position d.incrementBy w ∧
        position d.incrementBy w ≤ position d.incrementBy last)

/-- A call has taken the value in this epoch and not returned it yet. -/
def Pending (s : State) (t : ThreadId) (v : Int) : Prop :=
  ∃ begun id take pc, s.calls t = some (.serving begun id take pc) ∧ pc.taken = some v ∧ take.tag = s.epoch

def current (s : State) : List Int := (s.returned.filter fun r => r.take.tag = s.epoch).map (·.value)

def Taken (s : State) (v : Int) : Prop := v ∈ current s ∨ ∃ t, Pending s t v

structure Ledger (d : PersistedSequence) (s : State) : Prop where
  freeCovered : ∀ id w, Free d s id w → Reaches d.incrementBy w s.disk.visible
  takenCovered : ∀ v, Taken s v → Reaches d.incrementBy v s.disk.visible
  takenNotFree : ∀ v id, Taken s v → ¬Free d s id v
  freeApart : ∀ id id' w, Free d s id w → Free d s id' w → id = id'
  unique : (current s).Nodup
  apart : ∀ t v, Pending s t v → v ∉ current s
  distinct : ∀ t t' v, Pending s t v → Pending s t' v → t = t'

variable {s' : State} {id' : RuntimeId} {w : Int} {t' : ThreadId} {v last first : Int}

theorem Ledger.frame (h : Ledger d s) (hf : ∀ id w, Free d s' id w → Free d s id w)
    (hp : ∀ t v, Pending s' t v → Pending s t v) (hc : current s' = current s)
    (hvs : ∀ v, Reaches d.incrementBy v s.disk.visible → Reaches d.incrementBy v s'.disk.visible) : Ledger d s' := by
  have htk : ∀ v, Taken s' v → Taken s v := by
    rintro v (hv | ⟨t,hv⟩)
    · exact .inl (hc ▸ hv)
    · exact .inr ⟨t,hp t v hv⟩
  exact
    { freeCovered := fun id w hw => hvs w (h.freeCovered id w (hf id w hw))
      takenCovered := fun v hv => hvs v (h.takenCovered v (htk v hv))
      takenNotFree := fun v id hv hw => h.takenNotFree v id (htk v hv) (hf id v hw)
      freeApart := fun id id' w hw hw' => h.freeApart id id' w (hf id w hw) (hf id' w hw')
      unique := by rw [hc]; exact h.unique
      apart := fun t v hv => by rw [hc]; exact h.apart t v (hp t v hv)
      distinct := fun t t' v hv hv' => h.distinct t t' v (hp t v hv) (hp t' v hv') }

variable {t : ThreadId} {answer : Answer} {begun : Nat} {id : RuntimeId} {take : Take} {pc : Pc}

theorem callsOn_serve_of_ne (hc : s.calls t = some (.serving begun id take pc)) (h : id' ≠ id) :
    callsOn (s.serve t answer begun id take pc) id' = callsOn s id' := by
  rw [callsOn_serve,if_neg (Ne.symm h)]
  have hn : callsOn s id' t = none := by
    rw [callsOn,hc]
    exact if_neg (Ne.symm h)
  rw [← hn,update_eq_self]

theorem reborn_of_ne (h : id' ≠ id) (progress : Progress) : s.reborn id progress id' = s.born id' := by
  unfold reborn
  split
  · rw [if_neg h]
  · rfl

theorem free_serve_of_ne (hc : s.calls t = some (.serving begun id take pc)) (h : id' ≠ id)
    (hw : Free d (s.serve t answer begun id take pc) id' w) : Free d s id' w := by
  obtain ⟨hid,hb,hrest⟩ := hw
  have hb' : s.born id' = s.epoch := by
    rw [← reborn_of_ne h]
    exact hb
  rw [serve_runtime_of_ne h] at hrest
  simp only [callsOn_serve_of_ne hc h] at hrest
  exact ⟨hid,hb',hrest⟩

theorem pending_serve (hv : Pending (s.serve t answer begun id take pc) t' v) :
    t' ≠ t ∧ Pending s t' v ∨ t' = t ∧ ∃ new, ((s.runtimes id).advance s.disk t answer pc).2.2 = .goto new ∧
      new.taken = some v ∧ (s.retake id take new).tag = s.epoch := by
  obtain ⟨begun',id',take',pc',hcall,htk,htg⟩ := hv
  rcases calls_serve hcall with ⟨rfl,hnew⟩ | ⟨ht,hold⟩
  · refine .inr ⟨rfl,?_⟩
    cases hp : ((s.runtimes id).advance s.disk t' answer pc).2.2 with
    | goto new =>
      rw [hp] at hnew
      cases hnew
      exact ⟨pc',rfl,htk,htg⟩
    | again | returned value | failed error =>
      rw [hp] at hnew
      cases hnew
  · exact .inl ⟨ht,begun',id',take',pc',hold,htk,htg⟩

theorem free_serve_self (hc : s.calls t = some (.serving begun id take pc)) (hw : Free d (s.serve t answer begun id take pc) id w)
    (hbr : s.reborn id ((s.runtimes id).advance s.disk t answer pc).2.2 id = s.born id)
    (hwn : position d.incrementBy ((s.runtimes id).advance s.disk t answer pc).1.next ≤ position d.incrementBy w →
      position d.incrementBy w ≤ position d.incrementBy ((s.runtimes id).advance s.disk t answer pc).1.blockEnd →
      s.born id = s.epoch → Free d s id w)
    (hbk : ∀ new first last, ((s.runtimes id).advance s.disk t answer pc).2.2 = .goto new →
      block new = some (first,last) → block pc = some (first,last)) : Free d s id w := by
  obtain ⟨hid,hb,hrest⟩ := hw
  have hb' : s.born id = s.epoch := hbr.symm.trans hb
  rw [serve_runtime_self] at hrest
  rcases hrest with ⟨hl,hh⟩ | ⟨t',pc',first,last,hon,hbl,hl,hh⟩
  · exact hwn hl hh hb'
  rw [callsOn_serve,if_pos rfl] at hon
  by_cases ht : t' = t
  · subst ht
    rw [update_self] at hon
    cases hp : ((s.runtimes id).advance s.disk t' answer pc).2.2 with
    | goto new =>
      rw [hp] at hon
      cases hon
      exact ⟨hid,hb',.inr ⟨t',pc,first,last,callsOn_eq_some.mpr ⟨begun,take,hc⟩,
        hbk pc' first last hp hbl,hl,hh⟩⟩
    | again | returned value | failed error =>
      rw [hp] at hon
      cases hon
  · rw [update_of_ne ht] at hon
    exact ⟨hid,hb',.inr ⟨t',pc',first,last,hon,hbl,hl,hh⟩⟩

theorem reborn_eq {progress : Progress} (h : ∀ first last, progress ≠ .goto (.publishNext first last)) (id' : RuntimeId) :
    s.reborn id progress id' = s.born id' := by
  unfold reborn
  split
  · exact absurd rfl (h _ _)
  · rfl

theorem retake_eq {new : Pc} (hs : ∀ cur, new ≠ .storeCalled cur) (hp : ∀ first last, new ≠ .publishNext first last) :
    s.retake id take new = take := by
  unfold retake
  split
  · exact absurd rfl (hs _)
  · exact absurd rfl (hp _ _)
  · rfl

theorem current_serve_of_none (h : ((s.runtimes id).advance s.disk t answer pc).2.2.handed = []) :
    current (s.serve t answer begun id take pc) = current s := by
  simp only [current,serve,h,map_nil,append_nil]

theorem block_eq_none {new : Pc} (h : new.publishes = none) : block new = none := by
  cases new <;> first | rfl | cases h

theorem Ledger.serve_plain (h : Ledger d s) (hc : s.calls t = some (.serving begun id take pc))
    (htk : pc.taken = none) (hexch : ∀ cur stop, pc = .exchange cur stop → (s.runtimes id).next ≠ cur)
    (hf : ∀ durable first last, pc ≠ .flush durable first last) : Ledger d (s.serve t answer begun id take pc) := by
  obtain ⟨⟨refill,hrt⟩,hd,hh,hnew⟩ :=
    @advance_plain (s.runtimes id) s.disk t answer pc htk hexch hf
  have hd' : (s.serve t answer begun id take pc).disk = s.disk := hd
  refine h.frame (fun id' w hw => ?_) (fun t' v hv => ?_) (current_serve_of_none hh) (by rw [hd']; exact fun v hv => hv)
  · by_cases he : id' = id
    · subst he
      refine free_serve_self hc hw ?_ ?_ ?_
      · refine reborn_eq (fun first last hp => ?_) _
        cases (hnew _ hp).2
      · rw [hrt]
        exact fun hl hhg hbr => ⟨hw.1,hbr,.inl ⟨hl,hhg⟩⟩
      · intro new first last hp hb
        rw [block_eq_none (hnew new hp).2] at hb
        cases hb
    · exact free_serve_of_ne hc he hw
  · rcases pending_serve hv with ⟨-,hold⟩ | ⟨rfl,new,hp,hnv,-⟩
    · exact hold
    · rw [(hnew new hp).1] at hnv
      cases hnv

theorem free_serve_taken (hs : Shape d s) (hc : s.calls t = some (.serving begun id take pc))
    (hsa : ¬(s.runtimes id).Saturating pc) (htk : pc.taken = some v)
    (hw : Free d (s.serve t answer begun id take pc) id' w) : Free d s id' w := by
  by_cases he : id' = id
  · subst he
    have hon : callsOn s id' t = some pc := callsOn_eq_some.mpr ⟨begun,take,hc⟩
    have hrt := hs.runtime id' ((hs.call t _ hc).known id' rfl)
    have hf := hrt.window.fits t pc hon
    have hopen : ∀ {first last : Int}, block pc = some (first,last) → position d.incrementBy first < position d.incrementBy w →
        position d.incrementBy w ≤ position d.incrementBy last → s.born id' = s.epoch → Free d s id' w :=
      fun hb hl hh hbr => ⟨hw.1,hbr,.inr ⟨t,pc,_,_,hon,hb,hl,hh⟩⟩
    refine free_serve_self hc hw (reborn_eq (fun first last hp => ?_) _) ?_ ?_
    · obtain ⟨durable,rfl⟩ := advance_goto hp
      cases htk
    · cases pc with
      | publishNext first last =>
        intro hl hh hbr
        obtain ⟨-,ho⟩ := hf
        have hst := pos_lt_stepped hrt.window.proper ho.ordered ho.low ho.high hsa
        have hps := ho.past
        rw [hrt.pos_eq,hrt.pos_eq] at hst hps
        simp only [SeqRuntime.advance] at hl hh
        omega
      | publishEnd first last =>
        intro hl hh hbr
        obtain ⟨-,ho,hn⟩ := hf
        rw [hrt.pos_eq,hrt.pos_eq] at hn
        exact hopen rfl (hn.trans_le hl) hh hbr
      | storeCalled | storeServed | publishCalled | publishServed | unlockAndReturn =>
        exact fun hl hh hbr => ⟨hw.1,hbr,.inl ⟨hl,hh⟩⟩
      | _ => cases htk
    · intro new first last hp hb
      cases pc with
      | publishNext | publishCalled | publishServed =>
        cases hp
        exact hb
      | storeCalled | publishEnd =>
        cases hp
        cases hb
      | storeServed | unlockAndReturn => cases hp
      | _ => cases htk
  · exact free_serve_of_ne hc he hw

theorem pending_serve_taken (hc : s.calls t = some (.serving begun id take pc)) (htk : pc.taken = some v)
    {v' : Int} (hv' : Pending (s.serve t answer begun id take pc) t' v') : Pending s t' v' := by
  rcases pending_serve hv' with ⟨-,hold⟩ | ⟨rfl,new,hp,hnv,htg⟩
  · exact hold
  have hr : s.retake id take new = take := by
    refine retake_eq ?_ ?_
    · rintro cur rfl
      obtain ⟨⟨stop,rfl⟩,-⟩ := advance_goto hp
      cases htk
    · rintro first last rfl
      obtain ⟨durable,rfl⟩ := advance_goto hp
      cases htk
  obtain ⟨-,-,hg⟩ := @SeqRuntime.advance_taken (s.runtimes id) s.disk t' answer pc v htk
  rcases hg with ⟨hrt,-⟩ | ⟨new',hgt,hsame,-⟩
  · rw [hrt] at hp
    cases hp
  rw [hgt] at hp
  cases hp
  rw [hr] at htg
  exact ⟨begun,id,take,pc,hc,by rw [htk,← hsame,hnv],htg⟩

theorem Ledger.serve_taken (h : Ledger d s) (hs : Shape d s) (hc : s.calls t = some (.serving begun id take pc))
    (hst : ¬(s.runtimes id).Saturating pc) (htk : pc.taken = some v) : Ledger d (s.serve t answer begun id take pc) := by
  obtain ⟨hd,-,hg⟩ := @SeqRuntime.advance_taken (s.runtimes id) s.disk t answer pc v htk
  have hd' : (s.serve t answer begun id take pc).disk = s.disk := hd
  have hf : ∀ id' w, Free d (s.serve t answer begun id take pc) id' w → Free d s id' w :=
    fun id' w hw => free_serve_taken hs hc hst htk hw
  have hpn : ∀ t' v', Pending (s.serve t answer begun id take pc) t' v' → Pending s t' v' :=
    fun t' v' hv => pending_serve_taken hc htk hv
  rcases hg with ⟨hr,-⟩ | ⟨new,hgt,-⟩
  · -- The value moves from the call to the returned ones.
    have hgn : ∀ v', ¬Pending (s.serve t answer begun id take pc) t v' := by
      intro v' hv'
      rcases pending_serve hv' with ⟨hne,-⟩ | ⟨-,new,hp,-⟩
      · exact hne rfl
      · rw [hr] at hp
        cases hp
    have hcr : current (s.serve t answer begun id take pc) =
        current s ++ if take.tag = s.epoch then [v] else [] := by
      simp only [current,serve,hr,Progress.handed,map_cons,map_nil,filter_append,map_append]
      by_cases htg : take.tag = s.epoch
      · simp [htg]
      · simp [htg]
    by_cases htg : take.tag = s.epoch
    · rw [if_pos htg] at hcr
      have hmn : Pending s t v := ⟨begun,id,take,pc,hc,htk,htg⟩
      have ht' : ∀ v', Taken (s.serve t answer begun id take pc) v' → Taken s v' := by
        rintro v' (hv' | ⟨t',hv'⟩)
        · rw [hcr,mem_append,mem_singleton] at hv'
          rcases hv' with hv' | rfl
          · exact .inl hv'
          · exact .inr ⟨t,hmn⟩
        · exact .inr ⟨t',hpn t' v' hv'⟩
      refine ⟨?_,?_,?_,?_,?_,?_,?_⟩
      · rw [hd']
        exact fun id' w hw => h.freeCovered id' w (hf id' w hw)
      · rw [hd']
        exact fun v' hv' => h.takenCovered v' (ht' v' hv')
      · exact fun v' id' hv' hw => h.takenNotFree v' id' (ht' v' hv') (hf id' v' hw)
      · exact fun id₁ id₂ w hw₁ hw₂ => h.freeApart id₁ id₂ w (hf id₁ w hw₁) (hf id₂ w hw₂)
      · rw [hcr,nodup_append]
        refine ⟨h.unique,nodup_singleton v,fun a ha b hb => ?_⟩
        rw [mem_singleton.mp hb]
        rintro rfl
        exact h.apart t _ hmn ha
      · intro t' v' hv' hm
        have hold := hpn t' v' hv'
        rw [hcr,mem_append,mem_singleton] at hm
        rcases hm with hm | rfl
        · exact h.apart t' v' hold hm
        · obtain rfl := h.distinct t' t v' hold hmn
          exact hgn v' hv'
      · exact fun t₁ t₂ v' h₁ h₂ => h.distinct t₁ t₂ v' (hpn t₁ v' h₁) (hpn t₂ v' h₂)
    · rw [if_neg htg,append_nil] at hcr
      exact h.frame hf hpn hcr (by rw [hd']; exact fun v hv => hv)
  · refine h.frame hf hpn (current_serve_of_none ?_) (by rw [hd']; exact fun v hv => hv)
    rw [hgt]
    rfl

theorem Ledger.handOver (h : Ledger d s) (t : ThreadId) {cur : Int} (hcr : Free d s id cur)
    (hf : ∀ id' w, Free d s' id' w → Free d s id' w ∧ w ≠ cur)
    (hp : ∀ t' v, Pending s' t' v → t' ≠ t ∧ Pending s t' v ∨ t' = t ∧ v = cur)
    (hc : current s' = current s) (hvs : s'.disk.visible = s.disk.visible) : Ledger d s' := by
  have htk : ∀ v, Taken s' v → Taken s v ∨ v = cur := by
    rintro v (hv | ⟨t',hv⟩)
    · exact .inl (.inl (hc ▸ hv))
    · rcases hp t' v hv with ⟨-,hold⟩ | ⟨-,rfl⟩
      · exact .inl (.inr ⟨t',hold⟩)
      · exact .inr rfl
  refine ⟨?_,?_,?_,?_,hc ▸ h.unique,?_,?_⟩
  · rw [hvs]
    exact fun id' w hw => h.freeCovered id' w (hf id' w hw).1
  · rw [hvs]
    intro v hv
    rcases htk v hv with hold | rfl
    · exact h.takenCovered v hold
    · exact h.freeCovered id v hcr
  · intro v id' hv hw
    obtain ⟨hw,hne⟩ := hf id' v hw
    rcases htk v hv with hold | rfl
    · exact h.takenNotFree v id' hold hw
    · exact hne rfl
  · exact fun id₁ id₂ w h₁ h₂ => h.freeApart id₁ id₂ w (hf id₁ w h₁).1 (hf id₂ w h₂).1
  · intro t' v hv
    rw [hc]
    rcases hp t' v hv with ⟨-,hold⟩ | ⟨-,rfl⟩
    · exact h.apart t' v hold
    · exact fun hm => h.takenNotFree v id (.inl hm) hcr
  · intro t₁ t₂ v h₁ h₂
    rcases hp t₁ v h₁ with ⟨-,ho₁⟩ | ⟨rfl,rfl⟩
    · rcases hp t₂ v h₂ with ⟨-,ho₂⟩ | ⟨-,rfl⟩
      · exact h.distinct t₁ t₂ v ho₁ ho₂
      · exact absurd hcr (h.takenNotFree v id (.inr ⟨t₁,ho₁⟩))
    · rcases hp t₂ v h₂ with ⟨-,ho₂⟩ | ⟨rfl,-⟩
      · exact absurd hcr (h.takenNotFree v id (.inr ⟨t₂,ho₂⟩))
      · rfl

theorem Ledger.reserve (h : Ledger d s) (t : ThreadId) (id : RuntimeId)
    (hps : ∀ v, Reaches d.incrementBy v s.disk.visible → position d.incrementBy v < position d.incrementBy first)
    (ho : position d.incrementBy first ≤ position d.incrementBy last)
    (hf : ∀ id' w, Free d s' id' w → Free d s id' w ∨ id' = id ∧
      position d.incrementBy first < position d.incrementBy w ∧ position d.incrementBy w ≤ position d.incrementBy last)
    (hp : ∀ t' v, Pending s' t' v → Pending s t' v ∨ t' = t ∧ v = first)
    (hc : current s' = current s) (hvs : s'.disk.visible = some ⟨last,true⟩) : Ledger d s' := by
  have htk : ∀ v, Taken s' v → Taken s v ∨ v = first := by
    rintro v (hv | ⟨t',hv⟩)
    · exact .inl (.inl (hc ▸ hv))
    · rcases hp t' v hv with hold | ⟨-,rfl⟩
      · exact .inl (.inr ⟨t',hold⟩)
      · exact .inr rfl
  -- What was taken or free before lies before the new block.
  have hb : ∀ v, Taken s v → position d.incrementBy v < position d.incrementBy first :=
    fun v hv => hps v (h.takenCovered v hv)
  have hb' : ∀ id' w, Free d s id' w → position d.incrementBy w < position d.incrementBy first :=
    fun id' w hw => hps w (h.freeCovered id' w hw)
  refine ⟨?_,?_,?_,?_,hc ▸ h.unique,?_,?_⟩
  · intro id' w hw
    refine ⟨last,hvs,?_⟩
    rcases hf id' w hw with hold | ⟨-,-,hl⟩
    · exact (hb' id' w hold).le.trans ho
    · exact hl
  · intro v hv
    refine ⟨last,hvs,?_⟩
    rcases htk v hv with hold | rfl
    · exact (hb v hold).le.trans ho
    · exact ho
  · intro v id' hv hw
    rcases htk v hv with hold | rfl
    · rcases hf id' v hw with hw | ⟨-,hfs,-⟩
      · exact h.takenNotFree v id' hold hw
      · exact absurd (hb v hold) hfs.le.not_gt
    · rcases hf id' v hw with hw | ⟨-,hfs,-⟩
      · exact lt_irrefl _ (hb' id' v hw)
      · exact lt_irrefl _ hfs
  · intro id₁ id₂ w h₁ h₂
    rcases hf id₁ w h₁ with ho₁ | ⟨rfl,hfs,-⟩
    · rcases hf id₂ w h₂ with ho₂ | ⟨-,hfs,-⟩
      · exact h.freeApart id₁ id₂ w ho₁ ho₂
      · exact absurd (hb' id₁ w ho₁) hfs.le.not_gt
    · rcases hf id₂ w h₂ with ho₂ | ⟨rfl,-,-⟩
      · exact absurd (hb' id₂ w ho₂) hfs.le.not_gt
      · rfl
  · intro t' v hv hm
    rw [hc] at hm
    rcases hp t' v hv with hold | ⟨-,rfl⟩
    · exact h.apart t' v hold hm
    · exact lt_irrefl _ (hb v (.inl hm))
  · intro t₁ t₂ v h₁ h₂
    rcases hp t₁ v h₁ with ho₁ | ⟨rfl,rfl⟩
    · rcases hp t₂ v h₂ with ho₂ | ⟨-,rfl⟩
      · exact h.distinct t₁ t₂ v ho₁ ho₂
      · exact absurd (hb v (.inr ⟨t₁,ho₁⟩)) (lt_irrefl _)
    · rcases hp t₂ v h₂ with ho₂ | ⟨rfl,-⟩
      · exact absurd (hb v (.inr ⟨t₂,ho₂⟩)) (lt_irrefl _)
      · rfl

theorem RuntimeOk.no_block {rt : SeqRuntime} {calls : ThreadId → Option Pc} (h : RuntimeOk d rt calls)
    (hopen : rt.pos rt.next ≤ rt.pos rt.blockEnd) {other : Pc} (ho : calls t' = some other) : block other = none := by
  have hf := h.window.fits t' other ho
  cases other with
  | publishNext | publishCalled | publishServed | publishEnd => exact absurd hf.1 hopen.not_gt
  | _ => rfl

theorem Ledger.serve_exchange (h : Ledger d s) (hs : Shape d s) {cur stop : Int}
    (hc : s.calls t = some (.serving begun id take (.exchange cur stop))) (hn : (s.runtimes id).next = cur)
    (hsa : ¬(s.runtimes id).Saturating (.exchange cur stop)) :
    Ledger d (s.serve t answer begun id take (.exchange cur stop)) := by
  have hid := (hs.call t _ hc).known id rfl
  have hrt := hs.runtime id hid
  obtain ⟨hbl,hsp⟩ := hrt.window.fits t _ (callsOn_eq_some.mpr ⟨begun,take,hc⟩)
  have ha : (s.runtimes id).advance s.disk t answer (.exchange cur stop) =
      ({ s.runtimes id with next := (s.runtimes id).stepped cur stop },s.disk,.goto (.storeCalled cur)) := by
    rw [SeqRuntime.advance,if_pos hn]
  have hopen : (s.runtimes id).pos (s.runtimes id).next ≤ (s.runtimes id).pos (s.runtimes id).blockEnd := by
    rw [hn]
    exact hbl.trans hsp
  have hm : position d.incrementBy cur < position d.incrementBy ((s.runtimes id).stepped cur stop) := by
    rw [← hrt.pos_eq,← hrt.pos_eq]
    refine pos_lt_stepped hrt.window.proper hbl ?_ ?_ fun hst => hsa ⟨hn,hst⟩
    · rw [← hn]
      exact hrt.window.ahead
    · exact hsp.trans hrt.window.capped
  have hd : (s.serve t answer begun id take (.exchange cur stop)).disk = s.disk := by
    simp only [serve,ha]
  have hcr : current (s.serve t answer begun id take (.exchange cur stop)) = current s := by
    refine current_serve_of_none ?_
    rw [ha]
    rfl
  have hr : ∀ id', s.reborn id ((s.runtimes id).advance s.disk t answer (.exchange cur stop)).2.2 id' = s.born id' := by
    rw [ha]
    exact fun id' => rfl
  have hsl : ∀ w, Free d (s.serve t answer begun id take (.exchange cur stop)) id w →
      s.born id = s.epoch ∧ Free d s id w ∧ w ≠ cur := by
    intro w hw
    have hbr : s.born id = s.epoch := (hr id).symm.trans hw.2.1
    obtain ⟨-,-,hrest⟩ := hw
    rw [serve_runtime_self,callsOn_serve,ha] at hrest
    rcases hrest with ⟨hl,hh⟩ | ⟨t',pc',first,last,hon,hb,-⟩
    · refine ⟨hbr,⟨hid,hbr,.inl ⟨?_,hh⟩⟩,?_⟩
      · rw [hn]
        exact hm.le.trans hl
      · rintro rfl
        exact absurd hm hl.not_gt
    · rw [if_pos rfl] at hon
      by_cases ht : t' = t
      · subst ht
        rw [update_self] at hon
        cases hon
        cases hb
      · rw [update_of_ne ht] at hon
        rw [hrt.no_block hopen hon] at hb
        cases hb
  have hp : ∀ t' v, Pending (s.serve t answer begun id take (.exchange cur stop)) t' v →
      t' ≠ t ∧ Pending s t' v ∨ t' = t ∧ v = cur ∧ s.born id = s.epoch := by
    intro t' v hv
    rcases pending_serve hv with hold | ⟨rfl,new,hg,htk,htg⟩
    · exact .inl hold
    · rw [ha] at hg
      cases hg
      exact .inr ⟨rfl,(Option.some.inj htk).symm,htg⟩
  by_cases hbr : s.born id = s.epoch
  · have hcu : Free d s id cur := by
      refine ⟨hid,hbr,.inl ⟨?_,?_⟩⟩
      · rw [hn]
      · rw [← hrt.pos_eq,← hrt.pos_eq]
        exact hbl.trans hsp
    refine h.handOver t hcu (fun id' w hw => ?_) (fun t' v hv => ?_) hcr (by rw [hd])
    · by_cases he : id' = id
      · subst he
        exact (hsl w hw).2
      have hold := free_serve_of_ne hc he hw
      refine ⟨hold,?_⟩
      rintro rfl
      exact he (h.freeApart id' id w hold hcu)
    · rcases hp t' v hv with hold | ⟨ht,hv,-⟩
      · exact .inl hold
      · exact .inr ⟨ht,hv⟩
  · -- The window is of an earlier epoch, and so is the value.
    refine h.frame (fun id' w hw => ?_) (fun t' v hv => ?_) hcr (by rw [hd]; exact fun v hv => hv)
    · by_cases he : id' = id
      · subst he
        exact absurd (hsl w hw).1 hbr
      · exact free_serve_of_ne hc he hw
    · rcases hp t' v hv with ⟨-,hold⟩ | ⟨-,-,htg⟩
      · exact hold
      · exact absurd htg hbr

variable {durable : Option PersistedSeqState}

theorem CallOk.past (h : CallOk d s t (.serving begun id take (.flush durable first last))) (hvs : s.disk.visible = durable)
    (hv : Reaches d.incrementBy v s.disk.visible) : position d.incrementBy v < position d.incrementBy first := by
  obtain ⟨high,hr,hle⟩ := hv
  have ha := h.aimed begun id take durable first last rfl ⟨high,true⟩ (hvs ▸ hr)
  exact hle.trans_lt (ha.2 rfl)

theorem Ledger.serve_flush (h : Ledger d s) (hs : Shape d s)
    (hc : s.calls t = some (.serving begun id take (.flush durable first last))) (hvs : s.disk.visible = durable) :
    Ledger d (s.serve t answer begun id take (.flush durable first last)) := by
  have hcall := hs.call t _ hc
  have hid := hcall.known id rfl
  have hrt := hs.runtime id hid
  have hon := callsOn_eq_some.mpr ⟨begun,take,hc⟩
  obtain ⟨hem,ho⟩ := hrt.window.fits t _ hon
  have hor := ho.ordered
  rw [hrt.pos_eq,hrt.pos_eq] at hor
  have hp : ∀ v, Reaches d.incrementBy v s.disk.visible → position d.incrementBy v < position d.incrementBy first :=
    fun v hv => hcall.past hvs hv
  rcases @persistHighWater_cases (s.runtimes id) s.disk answer hrt.runs.durable last with
    hw | ⟨disk',error,hw,-,hv⟩
  · have ha : (s.runtimes id).advance s.disk t answer (.flush durable first last) =
        (s.runtimes id,⟨some ⟨last,true⟩,some ⟨last,true⟩⟩,.goto (.publishNext first last)) := by
      rw [SeqRuntime.advance,hw]
    refine h.reserve t id hp hor (fun id' w hf => ?_) (fun t' v hv => ?_) (current_serve_of_none ?_) ?_
    · by_cases he : id' = id
      · subst he
        obtain ⟨-,-,hrest⟩ := hf
        rw [serve_runtime_self,callsOn_serve,ha] at hrest
        refine .inr ⟨rfl,?_⟩
        rcases hrest with ⟨hl,hh⟩ | ⟨t',pc',first',last',hon',hb,hl,hh⟩
        · rw [Exhausted,hrt.pos_eq,hrt.pos_eq] at hem
          exact absurd (hl.trans hh) hem.not_ge
        rw [if_pos rfl] at hon'
        by_cases ht : t' = t
        · subst ht
          rw [update_self] at hon'
          cases hon'
          cases hb
          exact ⟨hl,hh⟩
        · rw [update_of_ne ht] at hon'
          have hcr := hrt.window.not_critical hon rfl ht hon'
          cases pc' with
          | publishNext | publishCalled | publishServed | publishEnd => cases hcr
          | _ => cases hb
      · exact .inl (free_serve_of_ne hc he hf)
    · rcases pending_serve hv with ⟨-,hold⟩ | ⟨rfl,new,hg,htk,-⟩
      · exact .inl hold
      · rw [ha] at hg
        cases hg
        exact .inr ⟨rfl,(Option.some.inj htk).symm⟩
    · rw [ha]
      rfl
    · simp only [serve,ha]
  · have ha : (s.runtimes id).advance s.disk t answer (.flush durable first last) =
        (s.runtimes id,disk',.goto (.unlockAndFail error)) := by
      rw [SeqRuntime.advance,hw]
    have hd : (s.serve t answer begun id take (.flush durable first last)).disk = disk' := by
      simp only [serve,ha]
    refine h.frame (fun id' w hf => ?_) (fun t' v hv => ?_) (current_serve_of_none ?_) ?_
    · by_cases he : id' = id
      · subst he
        refine free_serve_self hc hf ?_ ?_ ?_
        · rw [ha]
          rfl
        · rw [ha]
          exact fun hl hh hbr => ⟨hid,hbr,.inl ⟨hl,hh⟩⟩
        · rw [ha]
          rintro _ first' last' ⟨rfl⟩ hb
          cases hb
      · exact free_serve_of_ne hc he hf
    · rcases pending_serve hv with ⟨-,hold⟩ | ⟨rfl,new,hg,htk,-⟩
      · exact hold
      · rw [ha] at hg
        cases hg
        cases htk
    · rw [ha]
      rfl
    · rw [hd]
      intro v hr
      rcases hv with hv | hv
      · rwa [hv]
      · exact ⟨last,hv,(hp v hr).le.trans hor⟩

theorem Ledger.serve (h : Ledger d s) (hs : Shape d s) (hc : s.calls t = some (.serving begun id take pc))
    (hok : MeetsRecord d s answer (.serving begun id take pc)) : Ledger d (s.serve t answer begun id take pc) := by
  cases htk : pc.taken with
  | some v => exact h.serve_taken hs hc hok.1 htk
  | none =>
    by_cases hexch : ∃ cur stop, pc = .exchange cur stop ∧ (s.runtimes id).next = cur
    · obtain ⟨cur,stop,rfl,hn⟩ := hexch
      exact h.serve_exchange hs hc hn hok.1
    by_cases hf : ∃ durable first last, pc = .flush durable first last
    · obtain ⟨durable,first,last,rfl⟩ := hf
      exact h.serve_flush hs hc hok.2
    · refine h.serve_plain hc htk ?_ ?_
      · exact fun cur stop hp hn => hexch ⟨cur,stop,hp,hn⟩
      · exact fun durable first last hp => hf ⟨durable,first,last,hp⟩

theorem Ledger.idle (h : Ledger d s) (hep : s'.epoch = s.epoch) (hr : s'.returned = s.returned)
    (hd : s'.disk = s.disk) (hrn : ∀ id w, Free d s' id w → id < s.allocated ∧ s'.born id = s.born id ∧
      (s'.runtimes id).next = (s.runtimes id).next ∧ (s'.runtimes id).blockEnd = (s.runtimes id).blockEnd)
    (hc : ∀ t begun id take pc, s'.calls t = some (.serving begun id take pc) →
      s.calls t = some (.serving begun id take pc) ∨ pc = .loadNext) : Ledger d s' := by
  refine h.frame (fun id w hw => ?_) (fun t v hv => ?_) ?_ (by rw [hd]; exact fun v hv => hv)
  · obtain ⟨hid,hbr,hn,he⟩ := hrn id w hw
    obtain ⟨-,hb,hrest⟩ := hw
    refine ⟨hid,by rw [← hbr,← hep,hb],?_⟩
    rw [hn,he] at hrest
    rcases hrest with hwn | ⟨t',pc',first,last,hon,hbl,hin⟩
    · exact .inl hwn
    obtain ⟨begun',take',hcall⟩ := callsOn_eq_some.mp hon
    rcases hc t' begun' id take' pc' hcall with hold | rfl
    · exact .inr ⟨t',pc',first,last,callsOn_eq_some.mpr ⟨begun',take',hold⟩,hbl,hin⟩
    · cases hbl
  · obtain ⟨begun',id',take',pc',hcall,htk,htg⟩ := hv
    rcases hc t begun' id' take' pc' hcall with hold | rfl
    · exact ⟨begun',id',take',pc',hold,htk,hep ▸ htg⟩
    · cases htk
  · rw [current,current,hr,hep]

theorem Ledger.fresh (hb : ∀ id, s'.born id < s'.epoch)
    (hc : ∀ t begun id take pc, s'.calls t = some (.serving begun id take pc) → take.tag < s'.epoch)
    (hrt : ∀ r ∈ s'.returned, r.take.tag < s'.epoch) : Ledger d s' := by
  have hf : ∀ id w, ¬Free d s' id w := fun id w hw => (hb id).ne hw.2.1
  have hp : ∀ t v, ¬Pending s' t v := by
    rintro t v ⟨begun',id',take',pc',hcall,-,htg⟩
    exact (hc t begun' id' take' pc' hcall).ne htg
  have hcr : current s' = [] := by
    have hn : s'.returned.filter (fun r => r.take.tag = s'.epoch) = [] := by
      rw [filter_eq_nil_iff]
      intro r hr
      simpa using (hrt r hr).ne
    rw [current,hn,map_nil]
  refine ⟨fun id w hw => absurd hw (hf id w),?_,fun v id hv hw => hf id v hw,fun id _ w hw _ => absurd hw (hf id w),?_,
    fun t v hv => absurd hv (hp t v),fun t _ v hv _ => absurd hv (hp t v)⟩
  · rintro v (hv | ⟨t,hv⟩)
    · rw [hcr] at hv
      cases hv
    · exact absurd hv (hp t v)
  · rw [hcr]
    exact nodup_nil

end

end HeliosNano.Sql.Setval
