import HeliosNano.Replication.Applicator

namespace HeliosNano.Replication.Applicator
open Foundation WalStore List Nat
def Step.isLifecycle : Step → Bool
  | .startWithStorage _ | .start | .stop | .pause | .resume | .promote | .apply _ => true
  | _ => false

namespace WalApplicator

def pending (a : WalApplicator) : List WalEntry :=
  match a.task with
  | .holding entry => entry::a.queue
  | _ => a.queue

def live (a : WalApplicator) : Bool :=
  match a.task with
  | .selecting | .holding _ | .advancing _ => true
  | _ => false

/-- Whoever applies the entries in turn from an LSN on passes no delivered one over, and at the end has reached them all. -/
def Covers (delivered : List WalEntry) : Lsn → List WalEntry → Prop
  | n, [] => ∀ d ∈ delivered, d.lsn ≤ n
  | n, e::rest => (∀ d ∈ delivered, n < d.lsn → e.lsn ≤ n ∨ e.lsn ≤ d.lsn) ∧ Covers delivered (max n e.lsn) rest

/-- What every run keeps: entries up to the cursor are applied, in order; those after it are still to come, in order. -/
structure Sound (a : WalApplicator) : Prop where
  ordered : a.storage.history.Pairwise fun d e => d.lsn < e.lsn
  bounded : ∀ e ∈ a.storage.history, e.lsn ≤ a.storage.cursor
  attained : a.storage.cursor = 0 ∨ ∃ e ∈ a.storage.history, e.lsn = a.storage.cursor
  unique : ∀ d ∈ a.known, ∀ e ∈ a.known, d.lsn = e.lsn → d = e
  applied : ∀ d ∈ a.delivered, d.lsn ≤ a.storage.cursor → d ∈ a.storage.history
  level : (∀ entry, a.task ≠ .advancing entry) → a.appliedLsn = a.storage.cursor
  ahead : ∀ entry, a.task = .advancing entry → a.appliedLsn ≤ entry.lsn ∧ entry.lsn = a.storage.cursor
  sent : ∀ e ∈ a.pending, e ∈ a.delivered
  flow : a.live = true → Covers a.delivered a.storage.cursor a.pending
  claimed : a.receiver ≠ .unclaimed

variable {a a' : WalApplicator} {delivered : List WalEntry} {n : Lsn}
variable {e : WalEntry} {held : List WalEntry}

theorem Covers.send {rest : List WalEntry} (h : Covers delivered n rest)
    (he : e ∈ delivered ∨ e.lsn ≤ n ∨ (∀ d ∈ delivered, d.lsn < e.lsn) ∧ ∀ d ∈ rest, d ∈ delivered) :
    Covers (delivered ++ [e]) n (rest ++ [e]) := by
  induction rest generalizing n with
  | nil =>
    refine ⟨fun d hd hlt => ?_,fun d hd => ?_⟩
    · obtain hd | hd := mem_append.mp hd
      · exact absurd (h d hd) (not_le.mpr hlt)
      · rw [mem_singleton.mp hd]
        exact .inr (le_refl _)
    · obtain hd | hd := mem_append.mp hd
      · exact le_max_of_le_left (h d hd)
      · rw [mem_singleton.mp hd]
        exact le_max_right _ _
  | cons x rest ih =>
    refine ⟨fun d hd hlt => ?_,ih h.2 ?_⟩
    · obtain hd | hd := mem_append.mp hd
      · exact h.1 d hd hlt
      rw [mem_singleton.mp hd] at hlt ⊢
      obtain he | he | ⟨he,hrest⟩ := he
      · exact h.1 e he hlt
      · exact absurd he (not_le.mpr hlt)
      · exact .inr (le_of_lt (he x (hrest x mem_cons_self)))
    · obtain he | he | ⟨he,hrest⟩ := he
      · exact .inl he
      · exact .inr (.inl (le_max_of_le_left he))
      · exact .inr (.inr ⟨he,fun d hd => hrest d (mem_cons_of_mem _ hd)⟩)

variable (h : a.Sound)
include h

theorem Sound.relabel (state : ApplicatorState) (signals : Nat) : { a with state := state, signals := signals }.Sound :=
  ⟨h.ordered,h.bounded,h.attained,h.unique,h.applied,h.level,h.ahead,h.sent,h.flow,h.claimed⟩

theorem Sound.keep (hs : a'.storage = a.storage) (hd : a'.delivered = a.delivered)
    (hl : a'.appliedLsn = a.storage.cursor) (hst : ∀ entry, a'.task ≠ .advancing entry) (hsn : ∀ e ∈ a'.pending, e ∈ a.pending)
    (hf : a'.live = true → Covers a.delivered a.storage.cursor a'.pending) (hc : a'.receiver ≠ .unclaimed) : a'.Sound := by
  refine ⟨?_,?_,?_,?_,?_,fun _ => ?_,fun entry hno => absurd hno (hst entry),?_,?_,hc⟩
  · rw [hs]
    exact h.ordered
  · rw [hs]
    exact h.bounded
  · rw [hs]
    exact h.attained
  · rw [known,hs,hd]
    exact h.unique
  · rw [hs,hd]
    exact h.applied
  · rw [hs]
    exact hl
  · rw [hd]
    exact fun e he => h.sent e (hsn e he)
  · rw [hs,hd]
    exact hf

theorem Sound.cursor_lt_of_fresh (hp : 0 < e.lsn) (hf : ∀ d ∈ a.known, d.lsn < e.lsn) : a.storage.cursor < e.lsn := by
  obtain hz | ⟨d,hd,hl⟩ := h.attained
  · rw [hz]
    exact hp
  · rw [← hl]
    exact hf d (mem_append_left _ hd)

theorem Sound.queueEntry (ho : a.InOrder (.queueEntry e)) : (a.queueEntry e).2.Sound := by
  rw [WalApplicator.queueEntry]
  split
  · exact h
  have hp : pending { a with queue := a.queue ++ [e], delivered := a.delivered ++ [e] } = a.pending ++ [e] := by
    unfold pending
    cases a.task <;> rfl
  have hkn : known { a with queue := a.queue ++ [e], delivered := a.delivered ++ [e] } = a.known ++ [e] :=
    (append_assoc _ _ _).symm
  refine ⟨h.ordered,h.bounded,h.attained,?_,fun d hd hle => ?_,h.level,h.ahead,fun d hd => ?_,fun hlv => ?_,h.claimed⟩
  · rw [hkn]
    have hl : ∀ d ∈ a.known, d.lsn = e.lsn → d = e := by
      intro d hd heq
      obtain he | ⟨-,hf⟩ := ho
      · exact h.unique d hd e he heq
      · exact absurd heq (Nat.ne_of_lt (hf d hd))
    intro d hd d' hd' heq
    rw [mem_append,mem_singleton] at hd hd'
    obtain hd | rfl := hd
    · obtain hd' | rfl := hd'
      · exact h.unique d hd d' hd' heq
      · exact hl d hd heq
    · obtain hd' | rfl := hd'
      · exact (hl d' hd' heq.symm).symm
      · rfl
  · obtain hd | hd := mem_append.mp hd
    · exact h.applied d hd hle
    rw [mem_singleton.mp hd] at hle ⊢
    obtain he | ⟨hps,hf⟩ := ho
    · obtain he | he := mem_append.mp he
      · exact he
      · exact h.applied e he hle
    · exact absurd (h.cursor_lt_of_fresh hps hf) (Nat.not_lt.mpr hle)
  · rw [hp,mem_append] at hd
    exact mem_append.mpr (hd.imp_left (h.sent d))
  · rw [hp]
    refine (h.flow hlv).send ?_
    obtain he | ⟨-,hf⟩ := ho
    · obtain he | he := mem_append.mp he
      · exact .inr (.inl (h.bounded e he))
      · exact .inl he
    · exact .inr (.inr ⟨fun d hd => hf d (mem_append_right _ hd),h.sent⟩)

theorem Sound.receiveShutdown : a.receiveShutdown.Sound := by
  unfold WalApplicator.receiveShutdown
  split
  next hts =>
    have hl := h.level fun entry hno => nomatch hts.symm.trans hno
    have hp : a.pending = a.queue := by rw [pending,hts]
    split
    · exact h
    split
    · refine h.keep rfl rfl hl nofun (fun e he => ?_) nofun h.claimed
      rw [hp]
      exact he
    · exact h.relabel a.state 0
  · exact h

theorem Sound.receiveEntry : a.receiveEntry.Sound := by
  unfold WalApplicator.receiveEntry
  split
  next hts =>
    have hlv := h.level fun entry hno => nomatch hts.symm.trans hno
    split
    · exact h
    next e queue hq =>
      have hp : a.pending = e::queue := by rw [pending,hts,hq]
      have hl : a.live = true := by rw [live,hts]
      have hf := h.flow hl
      rw [hp] at hf
      refine h.keep rfl rfl hlv nofun (fun d hd => ?_) (fun _ => hf) h.claimed
      rw [hp]
      exact hd
  · exact h

theorem Sound.applyEntryToStorage (hts : a.task = .holding e) (failure : Option String) :
    (a.applyEntryToStorage e failure).Sound := by
  have hl := h.level fun entry hno => nomatch hts.symm.trans hno
  have hp : a.pending = e::a.queue := by rw [pending,hts]
  have hlv : a.live = true := by rw [live,hts]
  obtain ⟨hn,hrest⟩ : Covers a.delivered a.storage.cursor (e::a.queue) := hp ▸ h.flow hlv
  have hq : ∀ d ∈ a.queue, d ∈ a.pending := fun d hd => by
    rw [hp]
    exact mem_cons_of_mem _ hd
  unfold WalApplicator.applyEntryToStorage
  split
  next hle =>
    rw [hl] at hle
    refine h.keep rfl rfl hl nofun hq (fun _ => ?_) h.claimed
    rw [max_eq_left hle] at hrest
    exact hrest
  next hlt =>
    rw [hl,not_le] at hlt
    cases failure with
    | some message => exact h.keep rfl rfl hl nofun hq nofun nofun
    | none =>
      have he : e ∈ a.delivered := h.sent e (by rw [hp]; exact mem_cons_self)
      refine ⟨?_,fun d hd => ?_,.inr ⟨e,mem_append_right _ mem_cons_self,rfl⟩,?_,fun d hd hle => ?_,
        fun hno => absurd rfl (hno e),fun entry hen => ?_,fun d hd => h.sent d (hq d hd),fun _ => ?_,h.claimed⟩
      · refine pairwise_append.mpr ⟨h.ordered,pairwise_singleton _ _,fun d hd d' hd' => ?_⟩
        rw [mem_singleton.mp hd']
        exact lt_of_le_of_lt (h.bounded d hd) hlt
      · obtain hd | hd := mem_append.mp hd
        · exact le_trans (h.bounded d hd) (le_of_lt hlt)
        · rw [mem_singleton.mp hd]
          exact le_refl _
      · have hsame : ∀ d ∈ known { a with
            storage := a.storage.applyReplicatedOperationAt e, task := .advancing e }, d ∈ a.known := by
          intro d hd
          obtain hd | hd := mem_append.mp hd
          · obtain hd | hd := mem_append.mp hd
            · exact mem_append_left _ hd
            · rw [mem_singleton.mp hd]
              exact mem_append_right _ he
          · exact mem_append_right _ hd
        exact fun d hd d' hd' => h.unique d (hsame d hd) d' (hsame d' hd')
      · change d.lsn ≤ e.lsn at hle
        by_cases hd' : d.lsn ≤ a.storage.cursor
        · exact mem_append_left _ (h.applied d hd hd')
        have hm := (hn d hd (not_le.mp hd')).resolve_left (not_le.mpr hlt)
        have heq := h.unique d (mem_append_right _ hd) e (mem_append_right _ he) (le_antisymm hle hm)
        rw [heq]
        exact mem_append_right _ mem_cons_self
      · rw [← Task.advancing.inj hen]
        refine ⟨?_,rfl⟩
        change a.appliedLsn ≤ e.lsn
        rw [hl]
        exact le_of_lt hlt
      · rw [max_eq_right (le_of_lt hlt)] at hrest
        exact hrest

theorem Sound.runTask {failure : Option String} (hs : a.Spares (.runTask failure)) : (a.runTask failure).Sound := by
  rw [Spares] at hs
  unfold WalApplicator.runTask
  cases hts : a.task with
  | holding e =>
    rw [hts] at hs
    have hl := h.level fun entry hno => nomatch hts.symm.trans hno
    have hp : a.pending = e::a.queue := by rw [pending,hts]
    have hlv : a.live = true := by rw [live,hts]
    have hq : ∀ d ∈ a.queue, d ∈ a.pending := fun d hd => by
      rw [hp]
      exact mem_cons_of_mem _ hd
    dsimp only at hs ⊢
    split
    next hps =>
      have hle := hs hps
      rw [hl] at hle
      refine h.keep rfl rfl hl nofun hq (fun _ => ?_) h.claimed
      have hrest : Covers a.delivered (max a.storage.cursor e.lsn) a.queue := (hp ▸ h.flow hlv).2
      rw [max_eq_left hle] at hrest
      exact hrest
    · split
      · exact h.keep rfl rfl hl nofun hq nofun nofun
      · exact h.applyEntryToStorage hts failure
  | advancing e =>
    have hc := (h.ahead e hts).2
    have hp : a.pending = a.queue := by rw [pending,hts]
    have hlv : a.live = true := by rw [live,hts]
    have hf := h.flow hlv
    rw [hp] at hf
    refine h.keep rfl rfl hc nofun (fun d hd => ?_) (fun _ => hf) h.claimed
    rw [hp]
    exact hd
  | leaving =>
    have hl := h.level fun entry hno => nomatch hts.symm.trans hno
    exact h.keep rfl rfl hl nofun (fun d hd => absurd hd not_mem_nil) nofun nofun
  | unspawned | selecting | exited => exact h

omit h

theorem ensureNotFailed_cases (state : ApplicatorState) :
    state = .error ∧ ensureNotFailed state = .error failed ∨ state ≠ .error ∧ ensureNotFailed state = .ok () := by
  rw [ensureNotFailed]
  by_cases he : state = .error
  · exact .inl ⟨he,if_pos he⟩
  · exact .inr ⟨he,if_neg he⟩

theorem step_lifecycle (hc : a.receiver ≠ .unclaimed) {s : Step} (hs : s.isLifecycle = true) :
    ∃ state signals, a.step s = { a with state := state, signals := signals } ∧ (a.state = .error → state = .error) := by
  have hsame : ∃ state signals, a = { a with state := state, signals := signals } ∧ (a.state = .error → state = .error) :=
    ⟨a.state,a.signals,rfl,id⟩
  cases hl : a.locked with
  | true =>
    cases s with
    | queueEntry e | receiveShutdown | receiveEntry | runTask failure => cases hs
    | _ => rw [step,hl]; exact hsame
  | false =>
    obtain ⟨-,hf⟩ | ⟨hne,hok⟩ := ensureNotFailed_cases a.state
    · cases s with
      | stop =>
        rw [step,hl]
        exact ⟨_,_,rfl,fun he => if_pos he⟩
      | pause => rw [step,hl,pause,hf]; exact hsame
      | resume => rw [step,hl,resume,hf]; exact hsame
      | promote => rw [step,hl,promote,hf]; exact hsame
      | start => rw [step,hl,start,hf]; exact hsame
      | startWithStorage unreadable => rw [step,hl,startWithStorage.eq_def,hf]; exact hsame
      | apply e => rw [step,hl,apply,hf]; exact hsame
      | _ => cases hs
    · have ha : ∀ state signals, ∃ state' signals', { a with state := state, signals := signals } =
          { a with state := state', signals := signals' } ∧ (a.state = .error → state' = .error) :=
        fun state signals => ⟨state,signals,rfl,fun he => absurd he hne⟩
      cases s with
      | stop => rw [step,hl]; exact ha _ _
      | pause => rw [step,hl,pause,hok]; exact ha _ a.signals
      | resume => rw [step,hl,resume,hok]; exact ha _ a.signals
      | promote => rw [step,hl,promote,hok]; exact ha _ _
      | start => rw [step,hl,start,hok]; dsimp only; rw [if_pos hc]; exact hsame
      | startWithStorage unreadable =>
        rw [step,hl,startWithStorage.eq_def,hok]; dsimp only; rw [if_pos hc]; exact hsame
      | apply e => rw [step,hl,apply,hok]; dsimp only; rw [if_pos hc]; exact hsame
      | _ => cases hs

theorem Sound.step (h : a.Sound) {s : Step} (ho : a.InOrder s) (hsp : a.Spares s) : (a.step s).Sound := by
  cases hs : s.isLifecycle with
  | true =>
    obtain ⟨state,signals,hst,-⟩ := step_lifecycle h.claimed hs
    rw [hst]
    exact h.relabel state signals
  | false =>
    cases s with
    | queueEntry e =>
      rw [WalApplicator.step]
      split
      · exact h.queueEntry ho
      · exact h
    | receiveShutdown => exact h.receiveShutdown
    | receiveEntry => exact h.receiveEntry
    | runTask failure => exact h.runTask hsp
    | _ => cases hs

theorem holding_history (held : List WalEntry) : (Storage.holding held).history = held := by
  have hf : ∀ storage : Storage, (held.foldl Storage.applyReplicatedOperationAt storage).history = storage.history ++ held := by
    induction held with
    | nil => exact fun storage => (append_nil _).symm
    | cons e held ih =>
      intro storage
      rw [foldl_cons,ih]
      exact append_assoc _ _ _
  exact hf _

variable (hh : held.Pairwise fun d e => d.lsn < e.lsn)
include hh

theorem sound_holding : (∀ e ∈ held, e.lsn ≤ (Storage.holding held).cursor) ∧
      ((Storage.holding held).cursor = 0 ∨ ∃ e ∈ held, e.lsn = (Storage.holding held).cursor) := by
  obtain rfl | ⟨front,last,rfl⟩ := eq_nil_or_concat' held
  · exact ⟨fun e he => absurd he not_mem_nil,.inl rfl⟩
  have hc : (Storage.holding (front ++ [last])).cursor = last.lsn := by
    rw [Storage.holding,foldl_append]
    rfl
  rw [hc]
  refine ⟨fun e he => ?_,.inr ⟨last,mem_append_right _ mem_cons_self,rfl⟩⟩
  obtain he | he := mem_append.mp he
  · exact le_of_lt ((pairwise_append.mp hh).2.2 e he last mem_cons_self)
  · exact le_of_eq (congrArg WalEntry.lsn (mem_singleton.mp he))

theorem sound_started : (started held).Sound := by
  obtain ⟨hb,ha⟩ := sound_holding hh
  have hhs := holding_history held
  have hl : (started held).appliedLsn = (Storage.holding held).cursor := by
    change (if 0 < (Storage.holding held).cursor then (Storage.holding held).cursor else 0) = _
    split
    · rfl
    next hno =>
      exact (Nat.eq_zero_of_not_pos hno).symm
  have hs : (started held).storage = Storage.holding held := rfl
  refine ⟨?_,?_,?_,?_,fun d hd => absurd hd not_mem_nil,fun _ => hl,fun _ hno => (nomatch hno),
    fun e he => absurd he not_mem_nil,fun _ d hd => absurd hd not_mem_nil,nofun⟩
  · rw [hs,hhs]
    exact hh
  · rw [hs,hhs]
    exact hb
  · rw [hs,hhs]
    exact ha
  · change ∀ d ∈ (Storage.holding held).history ++ [], ∀ e ∈ (Storage.holding held).history ++ [], d.lsn = e.lsn → d = e
    rw [hhs,append_nil]
    have hnd : (held.map WalEntry.lsn).Nodup := pairwise_map.mpr (hh.imp Nat.ne_of_lt)
    exact fun d hd e he heq => inj_on_of_nodup_map hnd hd he heq

omit hh

structure Fallen (a : WalApplicator) : Prop where
  state : a.state = .error
  halted : a.live = false
  claimed : a.receiver ≠ .unclaimed

theorem Fallen.step (h : a.Fallen) (s : Step) : (a.step s).Fallen ∧ (a.step s).storage = a.storage := by
  have hsame : a.Fallen ∧ a.storage = a.storage := ⟨h,rfl⟩
  have hn : a.task ≠ .selecting := fun hno => by
    have hh := h.halted
    rw [live,hno] at hh
    cases hh
  cases hs : s.isLifecycle with
  | true =>
    obtain ⟨state,signals,hst,he⟩ := step_lifecycle h.claimed hs
    rw [hst]
    exact ⟨⟨he h.state,h.halted,h.claimed⟩,rfl⟩
  | false =>
    cases s with
    | queueEntry e =>
      rw [WalApplicator.step,WalApplicator.queueEntry]
      split
      · split
        · exact hsame
        · exact ⟨⟨h.state,h.halted,h.claimed⟩,rfl⟩
      · exact hsame
    | receiveShutdown =>
      rw [WalApplicator.step,WalApplicator.receiveShutdown,if_neg hn]
      exact hsame
    | receiveEntry =>
      rw [WalApplicator.step,WalApplicator.receiveEntry,if_neg hn]
      exact hsame
    | runTask failure =>
      have hh := h.halted
      rw [WalApplicator.step,WalApplicator.runTask]
      cases hts : a.task with
      | holding e | advancing e => rw [live,hts] at hh; cases hh
      | leaving => exact ⟨⟨if_pos h.state,rfl,nofun⟩,rfl⟩
      | unspawned | selecting | exited => exact hsame
    | _ => cases hs

theorem Fallen.lasts (h : a.Fallen) (steps : List Step) :
    (run WalApplicator.step a steps).Fallen ∧ (run WalApplicator.step a steps).storage = a.storage :=
  run_invariant WalApplicator.step (fun b => b.Fallen ∧ b.storage = a.storage)
    (fun _ s hb => ⟨(hb.1.step s).1,(hb.1.step s).2.trans hb.2⟩) ⟨h,rfl⟩ steps

theorem Fallen.refuses (h : a.Fallen) : a.resume.1 = .error failed ∧ a.pause.1 = .error failed ∧ a.start.1 = .error failed ∧
      (∀ unreadable, (a.startWithStorage unreadable).1 = .error failed) ∧ a.promote.1 = .error failed := by
  have he : ensureNotFailed a.state = .error failed := if_pos h.state
  refine ⟨?_,?_,?_,fun unreadable => ?_,?_⟩
  · rw [resume,he]
  · rw [pause,he]
  · rw [start,he]
  · rw [startWithStorage.eq_def,he]
  · rw [promote,he]

def Stops (a : WalApplicator) : Prop := a.receiver ≠ .unclaimed ∧ (0 < a.errorsCount → a.Fallen)

theorem Stops.step (h : a.Stops) (s : Step) : (a.step s).Stops := by
  by_cases hf : a.Fallen
  · exact ⟨(hf.step s).1.claimed,fun _ => (hf.step s).1⟩
  have hz : ¬0 < a.errorsCount := fun hp => hf (h.2 hp)
  have hk : ∀ a' : WalApplicator, a'.receiver ≠ .unclaimed → a'.errorsCount = a.errorsCount → a'.Stops :=
    fun a' hc hcn => ⟨hc,fun hp => absurd (hcn ▸ hp) hz⟩
  cases hs : s.isLifecycle with
  | true =>
    obtain ⟨state,signals,hst,-⟩ := step_lifecycle h.1 hs
    rw [hst]
    exact hk _ h.1 rfl
  | false =>
    cases s with
    | queueEntry e =>
      rw [WalApplicator.step,WalApplicator.queueEntry]
      split
      · split
        · exact h
        · exact hk _ h.1 rfl
      · exact h
    | receiveShutdown =>
      rw [WalApplicator.step,WalApplicator.receiveShutdown]
      split
      · split
        · exact h
        · split
          · exact hk _ h.1 rfl
          · exact hk _ h.1 rfl
      · exact h
    | receiveEntry =>
      rw [WalApplicator.step,WalApplicator.receiveEntry]
      split
      · split
        · exact h
        · exact hk _ h.1 rfl
      · exact h
    | runTask failure =>
      rw [WalApplicator.step,WalApplicator.runTask]
      split
      · split
        · exact hk _ h.1 rfl
        split
        · exact hk _ nofun rfl
        unfold WalApplicator.applyEntryToStorage
        split
        · exact hk _ h.1 rfl
        · cases failure with
          | none => exact hk _ h.1 rfl
          | some message => exact ⟨fun hno => (nomatch hno),fun _ => ⟨rfl,rfl,nofun⟩⟩
      · exact hk _ h.1 rfl
      · exact hk _ nofun rfl
      · exact h
    | _ => cases hs

theorem stops_run (held : List WalEntry) (steps : List Step) : (run step (started held) steps).Stops := by
  have hc : (started held).receiver ≠ .unclaimed := nofun
  exact run_invariant step Stops (fun _ s h => h.step s) ⟨hc,fun hno => absurd hno (lt_irrefl 0)⟩ steps

end WalApplicator
open WalApplicator

/-- Up to the applied LSN every delivered entry has been applied, once and in order, in every run in which no entry that is still
to be applied is taken from the queue while the applicator is paused. After a failed application nothing more is applied, and
neither is the applicator resumed, paused, started or promoted. -/
theorem standby_hides_no_gap {held : List WalEntry} (hheld : held.Pairwise fun d e => d.lsn < e.lsn) (steps : List Step) :
    let a := run step (started held) steps
    (Guarded step (fun a s => a.InOrder s ∧ a.Spares s) (started held) steps →
      (a.storage.history.Pairwise fun d e => d.lsn < e.lsn) ∧
        ∀ e ∈ a.delivered, e.lsn ≤ a.appliedLsn → a.storage.history.count e = 1) ∧
      (0 < a.errorsCount → ∀ later, let b := run step a later
        b.storage = a.storage ∧ b.resume.1 = .error failed ∧ b.pause.1 = .error failed ∧ b.start.1 = .error failed ∧
          (∀ unreadable, (b.startWithStorage unreadable).1 = .error failed) ∧ b.promote.1 = .error failed) := by
  intro a
  refine ⟨fun hguard => ?_,fun hfailed later => ?_⟩
  · have h : a.Sound := guarded_run_invariant step Sound (fun a s ha hs => Sound.step ha hs.1 hs.2) (sound_started hheld) hguard
    have hnodup : a.storage.history.Nodup := h.ordered.imp fun hlt heq => absurd (congrArg WalEntry.lsn heq) (Nat.ne_of_lt hlt)
    refine ⟨h.ordered,fun e he hle => count_eq_one_of_mem hnodup (h.applied e he ?_)⟩
    by_cases hstill : ∀ entry, a.task ≠ .advancing entry
    · exact h.level hstill ▸ hle
    · obtain ⟨entry,hentry⟩ := not_forall_not.mp hstill
      obtain ⟨hahead,hcursor⟩ := h.ahead entry hentry
      exact hcursor ▸ le_trans hle hahead
  · have hfallen := (stops_run held steps).2 hfailed
    obtain ⟨hlater,hstorage⟩ := hfallen.lasts later
    exact ⟨hstorage,hlater.refuses⟩

def sampleEntry (lsn : Lsn) : WalEntry := ⟨lsn,none,.insert,[],0⟩

/-- The entry that the standby holds is sent again, then the next one; that is applied. -/
theorem standby_hides_no_gap_resent :
    let a := run step (started [sampleEntry 1]) [.queueEntry (sampleEntry 1),.queueEntry (sampleEntry 2),.receiveEntry,
      .runTask none,.receiveEntry,.runTask none,.runTask none]
    a.appliedLsn = 2 ∧ a.storage.history.count (sampleEntry 1) = 1 ∧ a.storage.history.count (sampleEntry 2) = 1 := by
  have h := ((@standby_hides_no_gap [sampleEntry 1] (pairwise_singleton _ _) [.queueEntry (sampleEntry 1),
    .queueEntry (sampleEntry 2),.receiveEntry,.runTask none,.receiveEntry,.runTask none,.runTask none]).1
    ⟨⟨.inl (by decide),trivial⟩,⟨.inr (by decide),trivial⟩,⟨trivial,trivial⟩,⟨trivial,nofun⟩,
      ⟨trivial,trivial⟩,⟨trivial,nofun⟩,⟨trivial,trivial⟩,trivial⟩).2
  exact ⟨by decide,h _ (by decide) (by decide),h _ (by decide) (by decide)⟩

/-- A standby is paused while an entry is in its queue, and resumed before the next one. -/
def pauseAndResume : List Step :=
  [.queueEntry (sampleEntry 1),.pause,.receiveEntry,.runTask none,.resume,.queueEntry (sampleEntry 2),.receiveEntry,
    .runTask none,.runTask none]

/-- The entry taken from the queue during the pause is dropped, and the next one is applied. -/
theorem paused_standby_hides_gap : Guarded step InOrder (started []) pauseAndResume ∧
      (run step (started []) pauseAndResume).delivered = [sampleEntry 1,sampleEntry 2] ∧
      (run step (started []) pauseAndResume).appliedLsn = 2 ∧ (run step (started []) pauseAndResume).errorsCount = 0 ∧
      (run step (started []) pauseAndResume).storage.history = [sampleEntry 2] :=
  ⟨⟨.inr (by decide),trivial,trivial,trivial,trivial,.inr (by decide),trivial,trivial,trivial,trivial⟩,by decide⟩

end HeliosNano.Replication.Applicator
