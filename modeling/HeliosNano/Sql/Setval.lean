import HeliosNano.Sql.Nextval

/-! `setval`, `invalidate_cache` and `nextval` on one durable sequence. An eviction takes the
runtime out of the map, but the calls that hold it go on with it, so that several runtimes
can refill from the same record. -/
namespace HeliosNano.Sql.Setval
open Foundation SeqRuntime Nextval Function

abbrev RuntimeId := Nat

inductive Purpose
  | nextval (begun : Nat)
  | setval (value : Int) (isCalled : Bool)
deriving DecidableEq, Repr

/-- Where a call stands in `runtime_for`: the map, the catalog, the map again. -/
inductive Fetch
  | lookup
  | readState
  | insert (rt : SeqRuntime)
deriving DecidableEq, Repr

/-- What is noted about the value of a call: when the call flushed a block, and the epoch of
the window that the value was taken from. -/
structure Take where
  refilled : Option Nat
  tag : Nat
deriving DecidableEq, Repr

inductive Call
  | fetching (purpose : Purpose) (fetch : Fetch)
  | serving (begun : Nat) (id : RuntimeId) (take : Take) (pc : Pc)
  | locking (id : RuntimeId) (value : Int) (isCalled : Bool)
  | flushing (id : RuntimeId) (value : Int) (isCalled : Bool)
  | unlocking (id : RuntimeId)
  | evicting
deriving DecidableEq, Repr

/-- A value that a call returned, with the time at which the call began. -/
structure Return where
  value : Int
  begun : Nat
  take : Take
deriving DecidableEq, Repr

/-- The last three fields only record the past: an epoch ends with each `setval` that is
flushed, and a runtime is of the epoch in which it was built or last reserved a block. -/
structure State where
  runtimes : RuntimeId → SeqRuntime
  allocated : Nat
  store : Option RuntimeId
  disk : SeqDisk
  calls : ThreadId → Option Call
  returned : List Return
  clock : Nat
  epoch : Nat
  born : RuntimeId → Nat
  lastSet : Option Int

def start (d : PersistedSequence) (record : Option PersistedSeqState) : State where
  runtimes := fun _ => fromPersisted d record false
  allocated := 0
  store := none
  disk := ⟨record,record⟩
  calls := fun _ => none
  returned := []
  clock := 0
  epoch := 0
  born := fun _ => 0
  lastSet := none

inductive Step
  | beginNextval (thread : ThreadId)
  | beginSetval (thread : ThreadId) (value : Int) (isCalled : Bool)
  | advance (thread : ThreadId) (answer : Answer)
  | invalidateCache
deriving DecidableEq, Repr

namespace State
variable (s : State)

def become (thread : ThreadId) (call : Option Call) : State :=
  { s with calls := Function.update s.calls thread call }

def setRuntime (id : RuntimeId) (rt : SeqRuntime) : State :=
  { s with runtimes := Function.update s.runtimes id rt }

/-- The call has its runtime. `setval` checks the bounds before it locks. -/
def obtain (thread : ThreadId) (id : RuntimeId) : Purpose → State
  | .nextval begun => s.become thread (some (.serving begun id ⟨none,0⟩ .loadNext))
  | .setval value isCalled =>
    if value < (s.runtimes id).minValue ∨ (s.runtimes id).maxValue < value then s.become thread none
    else s.become thread (some (.locking id value isCalled))

def allocate (rt : SeqRuntime) : State :=
  { s with
    runtimes := Function.update s.runtimes s.allocated rt
    allocated := s.allocated+1
    store := some s.allocated
    born := Function.update s.born s.allocated s.epoch }

def fetch (d : PersistedSequence) (thread : ThreadId) (answer : Answer) (purpose : Purpose) : Fetch → State
  | .lookup =>
    match s.store with
    | some id => s.obtain thread id purpose
    | none => s.become thread (some (.fetching purpose .readState))
  | .readState =>
    match answer with
    | .readFailed _ => s.become thread none
    | _ => s.become thread (some (.fetching purpose (.insert (fromPersisted d s.disk.visible false))))
  | .insert rt =>
    match s.store with
    | some id => s.obtain thread id purpose
    | none => (s.allocate rt).obtain thread s.allocated purpose

/-- The notes after an access: a value was taken from the window, or a block was flushed. -/
def retake (id : RuntimeId) (take : Take) : Pc → Take
  | .storeCalled _ => { take with tag := s.born id }
  | .publishNext _ _ => ⟨some s.clock,s.epoch⟩
  | _ => take

def reborn (id : RuntimeId) (progress : Progress) (other : RuntimeId) : Nat :=
  match progress with
  | .goto (.publishNext _ _) => if other = id then s.epoch else s.born other
  | _ => s.born other

/-- What an access of a `nextval` call leaves of the call. -/
def goesOn (begun : Nat) (id : RuntimeId) (take : Take) : Progress → Option Call
  | .goto pc => some (.serving begun id (s.retake id take pc) pc)
  | .again => some (.fetching (.nextval begun) .lookup)
  | _ => none

def serve (thread : ThreadId) (answer : Answer) (begun : Nat) (id : RuntimeId) (take : Take) (pc : Pc) : State :=
  let (rt,disk,progress) := (s.runtimes id).advance s.disk thread answer pc
  { s with
    runtimes := Function.update s.runtimes id rt
    disk := disk
    calls := Function.update s.calls thread (s.goesOn begun id take progress)
    returned := s.returned ++ progress.handed.map fun value => ⟨value,begun,take⟩
    born := s.reborn id progress }

def unlock (id : RuntimeId) : State := s.setRuntime id { s.runtimes id with refill := none }

/-- The flush of `setval`. A failure leaves the runtime in the map. -/
def flushSetval (thread : ThreadId) (answer : Answer) (id : RuntimeId) (value : Int) (isCalled : Bool) : State :=
  match answer with
  | .notSaved _ => (s.unlock id).become thread none
  | .notSynced _ =>
    { (s.unlock id).become thread none with disk := { s.disk with visible := some ⟨value,isCalled⟩ } }
  | _ =>
    { s.become thread (some (.unlocking id)) with
      disk := ⟨some ⟨value,isCalled⟩,some ⟨value,isCalled⟩⟩
      epoch := s.epoch+1
      lastSet := some value }

def progress (d : PersistedSequence) (thread : ThreadId) (answer : Answer) : Call → State
  | .fetching purpose fetch => s.fetch d thread answer purpose fetch
  | .serving begun id take pc => s.serve thread answer begun id take pc
  | .locking id value isCalled =>
    if (s.runtimes id).refill = none then
      (s.setRuntime id { s.runtimes id with refill := some thread }).become thread (some (.flushing id value isCalled))
    else s
  | .flushing id value isCalled => s.flushSetval thread answer id value isCalled
  | .unlocking id => (s.unlock id).become thread (some .evicting)
  | .evicting => { s.become thread none with store := none }

end State

def act (d : PersistedSequence) (s : State) : Step → State
  | .beginNextval thread =>
    match s.calls thread with
    | none => s.become thread (some (.fetching (.nextval s.clock) .lookup))
    | some _ => s
  | .beginSetval thread value isCalled =>
    match s.calls thread with
    | none => s.become thread (some (.fetching (.setval value isCalled) .lookup))
    | some _ => s
  | .advance thread answer =>
    match s.calls thread with
    | none => s
    | some call => s.progress d thread answer call
  | .invalidateCache => { s with store := none }

def step (d : PersistedSequence) (s : State) (a : Step) : State :=
  { act d s a with clock := s.clock+1 }

/-- The record that a refill reads agrees with its runtime: a called one only matters to a
descending sequence, for which the higher of the two marks is the one that lies behind. -/
def Agrees (rt : SeqRuntime) (inMemCalled : Bool) (record : Option PersistedSeqState) : Prop :=
  if (record.map (·.isCalled)).getD false || inMemCalled then
    0 < rt.increment ∨ (record.map (·.lastReserved)).getD rt.blockEnd = rt.blockEnd
  else rt.pos rt.blockEnd < rt.pos ((record.map (·.lastReserved)).getD rt.notCalledTarget)
deriving Decidable

/-- A refill reads a record that agrees with its runtime, and flushes on the record it has read. -/
def OnRecord (rt : SeqRuntime) (record : Option PersistedSeqState) : Pc → Prop
  | .readState _ inMemCalled => Agrees rt inMemCalled record
  | .flush durable _ _ => record = durable
  | _ => True

instance (rt : SeqRuntime) (record : Option PersistedSeqState) (pc : Pc) : Decidable (OnRecord rt record pc) :=
  match pc with
  | .readState _ inMemCalled => inferInstanceAs (Decidable (Agrees rt inMemCalled record))
  | .flush durable _ _ => inferInstanceAs (Decidable (record = durable))
  | .loadNext | .loadEnd _ | .exchange _ _ | .storeCalled _ | .storeServed _ | .lock | .recheckNext | .recheckEnd _
  | .unlockAndRetry | .loadHigh | .loadCalled _ | .publishNext _ _ | .publishCalled _ _ | .publishServed _ _
  | .publishEnd _ _ | .unlockAndReturn _ | .unlockAndFail _ => inferInstanceAs (Decidable True)

/-- The flush has written the record and not synced it. -/
def unsynced : Answer → Bool
  | .notSynced _ => true
  | _ => false

def MeetsRecord (d : PersistedSequence) (s : State) (answer : Answer) : Call → Prop
  | .fetching _ .readState => ¬ParksBeyond d s.disk.visible
  | .serving _ id _ pc => ¬(s.runtimes id).Saturating pc ∧ OnRecord (s.runtimes id) s.disk.visible pc
  | .flushing _ _ _ => unsynced answer = false
  | _ => True

instance (d : PersistedSequence) (s : State) (answer : Answer) (call : Call) : Decidable (MeetsRecord d s answer call) :=
  match call with
  | .fetching _ .readState => inferInstanceAs (Decidable (¬ParksBeyond d s.disk.visible))
  | .serving _ id _ pc =>
    inferInstanceAs (Decidable (¬(s.runtimes id).Saturating pc ∧ OnRecord (s.runtimes id) s.disk.visible pc))
  | .flushing _ _ _ => inferInstanceAs (Decidable (unsynced answer = false))
  | .fetching _ .lookup | .fetching _ (.insert _) | .locking _ _ _ | .unlocking _ | .evicting =>
    inferInstanceAs (Decidable True)

def RecordsHold (d : PersistedSequence) (s : State) : Step → Prop
  | .advance thread answer => ∀ call ∈ s.calls thread, MeetsRecord d s answer call
  | _ => True

instance (d : PersistedSequence) (s : State) (a : Step) : Decidable (RecordsHold d s a) :=
  match a with
  | .advance thread answer => inferInstanceAs (Decidable (∀ call ∈ s.calls thread, MeetsRecord d s answer call))
  | .beginNextval _ | .beginSetval _ _ _ | .invalidateCache => inferInstanceAs (Decidable True)

def pcOn (id : RuntimeId) : Option Call → Option Pc
  | some (.serving _ id' _ pc) => if id' = id then some pc else none
  | _ => none

def callsOn (s : State) (id : RuntimeId) (t : ThreadId) : Option Pc := pcOn id (s.calls t)

def Call.runtime : Call → Option RuntimeId
  | .serving _ id _ _ | .locking id _ _ | .flushing id _ _ | .unlocking id => some id
  | .fetching _ _ | .evicting => none

/-- The runtime whose mutex `setval` is in. -/
def Call.locks : Call → Option RuntimeId
  | .flushing id _ _ | .unlocking id => some id
  | _ => none

/-- The value that `setval` has checked against the bounds. -/
def Call.sets : Call → Option Int
  | .locking _ value _ | .flushing _ value _ => some value
  | _ => none

def Within (d : PersistedSequence) (v : Int) : Prop := d.minValue ≤ v ∧ v ≤ d.maxValue

structure RuntimeOk (d : PersistedSequence) (rt : SeqRuntime) (calls : ThreadId → Option Pc) : Prop where
  runs : Runs d rt
  window : rt.Window calls []
  floor : rt.lowest ≤ rt.pos rt.blockEnd + 1
  target : Within d rt.notCalledTarget

/-- What a call promises about the runtimes and about its own local variables. -/
structure CallOk (d : PersistedSequence) (s : State) (t : ThreadId) (call : Call) : Prop where
  known : ∀ id, call.runtime = some id → id < s.allocated
  held : ∀ id, call.locks = some id → (s.runtimes id).refill = some t
  bounded : ∀ v, call.sets = some v → Within d v
  built : ∀ purpose rt, call = .fetching purpose (.insert rt) → RuntimeOk d rt (fun _ => none) ∧ rt.Exhausted
  aimed : ∀ begun id take durable first last, call = .serving begun id take (.flush durable first last) →
    ∀ st, durable = some st → position d.incrementBy st.lastReserved ≤ position d.incrementBy first ∧
      (st.isCalled = true → position d.incrementBy st.lastReserved < position d.incrementBy first)

structure Shape (d : PersistedSequence) (s : State) : Prop where
  runtime : ∀ id, id < s.allocated → RuntimeOk d (s.runtimes id) (callsOn s id)
  call : ∀ t call, s.calls t = some call → CallOk d s t call
  stored : ∀ id, s.store = some id → id < s.allocated
  record : Within d (recordOf d s.disk.visible).lastReserved

variable {s : State} {t : ThreadId} {d : PersistedSequence}

theorem callsOn_eq_some {id : RuntimeId} {pc : Pc} :
    callsOn s id t = some pc ↔ ∃ begun take, s.calls t = some (.serving begun id take pc) := by
  unfold callsOn pcOn
  constructor
  · intro h
    split at h
    next begun id' take pc' hc =>
      split at h
      next hid =>
        cases h
        subst hid
        exact ⟨begun,take,hc⟩
      · cases h
    · cases h
  · rintro ⟨begun,take,hc⟩
    rw [hc]
    exact if_pos rfl

theorem callsOn_become (s : State) (id : RuntimeId) (t : ThreadId) (call : Option Call) :
    callsOn (s.become t call) id = Function.update (callsOn s id) t (pcOn id call) := by
  funext t'
  by_cases ht : t' = t
  · subst ht
    simp [callsOn,State.become]
  · simp [callsOn,State.become,update_of_ne ht]

variable {rt : SeqRuntime} {call : Option Call}

theorem RuntimeOk.of_calls {calls calls' : ThreadId → Option Pc}
    (h : RuntimeOk d rt calls) (hw : rt.Window calls' []) : RuntimeOk d rt calls' :=
  ⟨h.runs,hw,h.floor,h.target⟩

namespace State
variable (s : State) (id : RuntimeId) (rt : SeqRuntime) (t : ThreadId) (call : Option Call)

@[simp] theorem become_calls_self : (s.become t call).calls t = call := by simp [become]

@[simp] theorem setRuntime_self : (s.setRuntime id rt).runtimes id = rt := by simp [setRuntime]

@[simp] theorem allocate_self : (s.allocate rt).runtimes s.allocated = rt := by simp [allocate]

variable {s id t}

theorem become_calls_of_ne {t' : ThreadId} (h : t' ≠ t) : (s.become t call).calls t' = s.calls t' := by
  simp [become,update_of_ne h]

variable {id' : RuntimeId}

theorem setRuntime_of_ne (h : id' ≠ id) : (s.setRuntime id rt).runtimes id' = s.runtimes id' := by
  simp [setRuntime,update_of_ne h]

theorem allocate_of_ne (h : id' ≠ s.allocated) : (s.allocate rt).runtimes id' = s.runtimes id' := by
  simp [allocate,update_of_ne h]

end State

theorem calls_become {t' : ThreadId} {new : Call}
    (h : (s.become t call).calls t' = some new) : t' = t ∧ call = some new ∨ t' ≠ t ∧ s.calls t' = some new := by
  by_cases ht : t' = t
  · subst ht
    exact .inl ⟨rfl,(s.become_calls_self t' call).symm.trans h⟩
  · exact .inr ⟨ht,(State.become_calls_of_ne call ht).symm.trans h⟩

theorem CallOk.mono {d : PersistedSequence} {s s' : State} {t : ThreadId} {call : Call} (h : CallOk d s t call)
    (ha : s.allocated ≤ s'.allocated)
    (hr : ∀ id, call.locks = some id → (s'.runtimes id).refill = (s.runtimes id).refill) : CallOk d s' t call :=
  ⟨fun id hid => (h.known id hid).trans_le ha,fun id hid => (hr id hid).trans (h.held id hid),h.bounded,
    h.built,h.aimed⟩

theorem Shape.become (h : Shape d s)
    (hpc : ∀ id pc, pcOn id call = some pc → pc = .loadNext) (hcall : ∀ new ∈ call, CallOk d s t new) :
    Shape d (s.become t call) where
  runtime id hid := by
    have hrt := h.runtime id hid
    refine hrt.of_calls ?_
    rw [callsOn_become]
    cases hp : pcOn id call with
    | none =>
      refine hrt.window.weaken fun t' pc hc => ?_
      by_cases ht : t' = t
      · subst ht
        simp at hc
      · rwa [update_of_ne ht] at hc
    | some pc =>
      rw [hpc id pc hp]
      exact hrt.window.begin t
  call t' new hc := by
    rcases calls_become hc with ⟨rfl,hnew⟩ | ⟨-,hold⟩
    · exact (hcall new hnew).mono le_rfl fun _ _ => rfl
    · exact (h.call t' new hold).mono le_rfl fun _ _ => rfl
  stored := h.stored
  record := h.record

theorem Shape.relock (h : Shape d s) (id : RuntimeId) (refill : Option ThreadId)
    (ho : ∀ t pc, callsOn s id t = some pc → pc.critical = false)
    (hf : ∀ t call, s.calls t = some call → call.locks ≠ some id) :
    Shape d (s.setRuntime id { s.runtimes id with refill := refill }) where
  runtime id' hid := by
    by_cases he : id' = id
    · subst he
      have hrt := h.runtime id' hid
      have hsame : (s.runtimes id').SameDefinition { s.runtimes id' with refill := refill } := sameDefinition_store ..
      rw [State.setRuntime_self]
      exact ⟨hrt.runs.same hsame,hrt.window.relock refill ho,hrt.floor,hrt.target⟩
    · rw [State.setRuntime_of_ne _ he]
      exact h.runtime id' hid
  call t call hc := by
    refine (h.call t call hc).mono le_rfl fun id' hl => ?_
    have hne : id' ≠ id := by
      rintro rfl
      exact hf t call hc hl
    rw [State.setRuntime_of_ne _ hne]
  stored := h.stored
  record := h.record

theorem Shape.allocate (h : Shape d s) (hrt : RuntimeOk d rt fun _ => none) : Shape d (s.allocate rt) where
  runtime id hid := by
    have hcl : callsOn (s.allocate rt) id = callsOn s id := rfl
    rw [hcl]
    by_cases he : id = s.allocated
    · subst he
      have hn : callsOn s s.allocated = fun _ => none := by
        funext t
        cases hc : callsOn s s.allocated t with
        | none => rfl
        | some pc =>
          obtain ⟨begun,take,hcall⟩ := callsOn_eq_some.mp hc
          exact absurd ((h.call t _ hcall).known _ rfl) (lt_irrefl _)
      rw [hn,State.allocate_self]
      exact hrt
    · rw [State.allocate_of_ne _ he]
      exact h.runtime id (lt_of_le_of_ne (Nat.lt_succ_iff.mp hid) he)
  call t call hc := by
    refine (h.call t call hc).mono (Nat.le_succ _) fun id hl => ?_
    have hne : id ≠ s.allocated := by
      have hid := (h.call t call hc).known id (by cases call <;> simp_all [Call.locks,Call.runtime])
      exact hid.ne
    rw [State.allocate_of_ne _ hne]
  stored id hid := by
    obtain rfl : s.allocated = id := Option.some.inj hid
    exact Nat.lt_succ_self _
  record := h.record

end HeliosNano.Sql.Setval
