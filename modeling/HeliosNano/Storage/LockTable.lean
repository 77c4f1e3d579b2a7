import HeliosNano.Storage.LockState

/-! The lock table. Each access of the locks map is a function of its own, so that
it can be one atomic step of an interleaving or one part of a call that runs alone. -/
namespace HeliosNano.Storage
open Foundation Option AList

/-- RAII handle of one acquisition; dropping it releases that acquisition. -/
structure LockGuard where
  lockId : String
  transactionId : TxnId
deriving DecidableEq, Repr

abbrev LockTable := Map String LockState

/-- What one try at a lock ends in. A panic is an overflowing acquisition count. -/
inductive AcquireResult
  | granted (guard : LockGuard)
  | conflict (error : Error)
  | panicked
deriving DecidableEq, Repr

def LockType.debug : LockType → String
  | .read => "Read"
  | .write => "Write"

namespace LockTable

/-- The entry of a resource, created empty when it is missing. -/
def entry (locks : LockTable) (resource : String) : LockState :=
  (locks.lookup resource).getD LockState.new

def acquireSection (locks : LockTable) (resource : String) (txn : TxnId) (lockType : LockType) :
    LockTable × AcquireResult :=
  let state := locks.entry resource
  if state.canAcquire txn lockType then
    match state.addHolder txn lockType with
    | (state,true) => (locks.insert resource (state.removeWaiter txn),.granted ⟨resource,txn⟩)
    | (state,false) => (locks.insert resource state,.panicked)
  else
    (locks.insert resource (state.addWaiter txn lockType),
      .conflict (.transaction ("Lock conflict on resource '" ++ resource ++ "': transaction " ++
        toString txn ++ " waiting for " ++ lockType.debug)))

/-- The critical section of a release: one acquisition goes. The flag says that
the caller found the entry empty and will remove it after the section. -/
def releaseSection (locks : LockTable) (resource : String) (txn : TxnId) : LockTable × Bool :=
  match locks.lookup resource with
  | some state =>
    let (state,fullyReleased) := state.releaseOnce txn
    (locks.insert resource state,fullyReleased && state.holders.isEmpty && state.waiters.isEmpty)
  | none => (locks,false)

def cleanupSection (locks : LockTable) (resource : String) (txn : TxnId) : LockTable × Bool :=
  match locks.lookup resource with
  | some state =>
    let state := (state.removeHolder txn).removeWaiter txn
    (locks.insert resource state,state.holders.isEmpty && state.waiters.isEmpty)
  | none => (locks,false)

def cloneSection (locks : LockTable) (resource : String) (txn : TxnId) : LockTable :=
  match locks.lookup resource with
  | some state => locks.insert resource (state.duplicateAcquisition txn)
  | none => locks

/-- The removal that follows a section which found the entry empty. -/
def reap (locks : LockTable) (resource : String) : LockTable := locks.erase resource

/-- Section and removal with nothing in between. -/
def thenReap (resource : String) (out : LockTable × Bool) : LockTable :=
  if out.2 then out.1.reap resource else out.1

end LockTable
open LockTable

/-- Every entry of the table meets the invariant of its state. -/
def LockTable.Wf (locks : LockTable) : Prop :=
  ∀ resource state, locks.lookup resource = some state → state.Wf

/-- The transaction is the recorded exclusive holder of the resource. -/
def LockTable.HeldForWrite (locks : LockTable) (resource : String) (txn : TxnId) : Prop :=
  ∃ state, locks.lookup resource = some state ∧ state.HeldForWrite txn

namespace LockTable
variable {locks : LockTable}

theorem wf_empty : Wf (∅ : LockTable) := by
  intro r s h
  simp at h

theorem Wf.entry (h : locks.Wf) (resource : String) : (locks.entry resource).Wf := by
  unfold LockTable.entry
  cases hl : locks.lookup resource with
  | none => exact LockState.wf_new
  | some state => exact h resource state hl

variable {state : LockState} {out : LockTable × Bool} {guard : LockGuard}

theorem Wf.insert (h : locks.Wf) {resource : String} (hs : state.Wf) : Wf (locks.insert resource state) := by
  intro r s hl
  rw [Map.lookup_insert_ite] at hl
  split at hl
  · cases hl
    exact hs
  · exact h r s hl

theorem Wf.reap (h : locks.Wf) (resource : String) : (locks.reap resource).Wf := by
  intro r s hl
  rw [LockTable.reap,Map.lookup_erase_ite] at hl
  split at hl
  · cases hl
  · exact h r s hl

theorem Wf.releaseSection (h : locks.Wf) (resource : String) (txn : TxnId) : (locks.releaseSection resource txn).1.Wf := by
  unfold LockTable.releaseSection
  split
  next state hl =>
    exact h.insert ((h resource state hl).releaseOnce txn)
  · exact h

theorem Wf.cleanupSection (h : locks.Wf) (resource : String) (txn : TxnId) : (locks.cleanupSection resource txn).1.Wf := by
  unfold LockTable.cleanupSection
  split
  next state hl =>
    exact h.insert (((h resource state hl).removeHolder txn).removeWaiter txn)
  · exact h

theorem Wf.cloneSection (h : locks.Wf) (resource : String) (txn : TxnId) : (locks.cloneSection resource txn).Wf := by
  unfold LockTable.cloneSection
  split
  next state hl =>
    exact h.insert ((h resource state hl).duplicateAcquisition txn)
  · exact h

theorem Wf.thenReap (h : out.1.Wf) (resource : String) : (thenReap resource out).Wf := by
  unfold LockTable.thenReap
  split
  · exact h.reap resource
  · exact h

theorem Wf.acquireSection (h : locks.Wf) (resource : String) (txn : TxnId) (lockType : LockType) :
    (locks.acquireSection resource txn lockType).1.Wf := by
  unfold LockTable.acquireSection
  dsimp only
  split
  next hg =>
    have hw := (h.entry resource).addHolder hg
    split
    next state he =>
      rw [he] at hw
      exact h.insert (hw.removeWaiter txn)
    next state he =>
      rw [he] at hw
      exact h.insert hw
  · exact h.insert ((h.entry resource).addWaiter txn lockType)

variable {resource held : String} {txn other : TxnId}

variable (h : locks.HeldForWrite held txn)
include h

theorem HeldForWrite.insert
    (hs : ∀ old, locks.lookup held = some old → old.HeldForWrite txn → resource = held → state.HeldForWrite txn) :
    HeldForWrite (locks.insert resource state) held txn := by
  obtain ⟨old,hl,hold⟩ := h
  by_cases hr : resource = held
  · exact ⟨state,by rw [Map.lookup_insert_ite,if_pos hr.symm],hs old hl hold hr⟩
  · exact ⟨old,by rw [Map.lookup_insert_ite,if_neg (Ne.symm hr),hl],hold⟩

theorem HeldForWrite.reap (hr : resource ≠ held) : (locks.reap resource).HeldForWrite held txn := by
  obtain ⟨old,hl,hold⟩ := h
  exact ⟨old,by rw [LockTable.reap,Map.lookup_erase_ite,if_neg (Ne.symm hr),hl],hold⟩

omit h in
theorem entry_of_lookup (h : locks.lookup resource = some state) : locks.entry resource = state := by
  simp [entry,h]

theorem HeldForWrite.acquireSection (resource : String) (other : TxnId) (lockType : LockType) :
    (locks.acquireSection resource other lockType).1.HeldForWrite held txn := by
  unfold LockTable.acquireSection
  dsimp only
  split
  next hg =>
    have hk : ∀ old, locks.lookup held = some old → old.HeldForWrite txn → resource = held →
        ((locks.entry resource).addHolder other lockType).1.HeldForWrite txn := by
      rintro old hl hold rfl
      rw [entry_of_lookup hl] at hg ⊢
      by_cases ho : other = txn
      · subst ho
        exact hold.addHolder lockType
      · rw [hold.refuses ho] at hg
        cases hg
    split
    next state he =>
      rw [he] at hk
      exact h.insert fun old hl hold hr => (hk old hl hold hr).of_fields rfl rfl
    next state he =>
      rw [he] at hk
      exact h.insert hk
  · refine h.insert ?_
    rintro old hl hold rfl
    rw [entry_of_lookup hl]
    obtain ⟨hh,ht⟩ := LockState.addWaiter_holders old other lockType
    exact hold.of_fields hh ht

omit h in
theorem HeldForWrite.releaseSection (hw : locks.Wf) (h : locks.HeldForWrite held txn) (hne : ¬(resource = held ∧ other = txn)) :
    (locks.releaseSection resource other).1.HeldForWrite held txn := by
  unfold LockTable.releaseSection
  split
  next state hl =>
    refine h.insert ?_
    rintro old hl' hold rfl
    obtain rfl : state = old := Option.some.inj (hl.symm.trans hl')
    exact hold.releaseOnce (hw resource state hl) fun ho => hne ⟨rfl,ho⟩
  · exact h

theorem HeldForWrite.cleanupSection (hne : ¬(resource = held ∧ other = txn)) :
    (locks.cleanupSection resource other).1.HeldForWrite held txn := by
  unfold LockTable.cleanupSection
  split
  next state hl =>
    refine h.insert ?_
    rintro old hl' hold rfl
    obtain rfl : state = old := Option.some.inj (hl.symm.trans hl')
    have hk := hold.removeHolder (fun ho => hne ⟨rfl,ho⟩ : other ≠ txn)
    exact hk.of_fields rfl rfl
  · exact h

theorem HeldForWrite.cloneSection (resource : String)
    (other : TxnId) : (locks.cloneSection resource other).HeldForWrite held txn := by
  unfold LockTable.cloneSection
  split
  next state hl =>
    refine h.insert ?_
    rintro old hl' hold rfl
    obtain rfl : state = old := Option.some.inj (hl.symm.trans hl')
    obtain ⟨hh,ht⟩ := LockState.duplicateAcquisition_holders state other
    exact hold.of_fields hh ht
  · exact h

omit h

theorem HeldForWrite.thenReap (h : out.1.HeldForWrite held txn)
    (he : out.2 = true → ∀ state, out.1.lookup resource = some state → state.holders = []) :
    (thenReap resource out).HeldForWrite held txn := by
  unfold LockTable.thenReap
  split
  next hf =>
    obtain ⟨state,hl,hs⟩ := h
    refine HeldForWrite.reap ⟨state,hl,hs⟩ ?_
    rintro rfl
    have := he hf state hl
    simp [hs.1] at this
  · exact h

theorem releaseSection_reaps (h : (locks.releaseSection resource txn).2 = true) (state : LockState)
    (hl : (locks.releaseSection resource txn).1.lookup resource = some state) : state.holders = [] := by
  cases ho : locks.lookup resource with
  | none => simp [releaseSection,ho] at h
  | some old =>
    simp only [releaseSection,ho,lookup_insert,some.injEq,Bool.and_eq_true,
      List.isEmpty_iff] at h hl
    rw [← hl]
    exact h.1.2

theorem cleanupSection_reaps (h : (locks.cleanupSection resource txn).2 = true) (state : LockState)
    (hl : (locks.cleanupSection resource txn).1.lookup resource = some state) : state.holders = [] := by
  cases ho : locks.lookup resource with
  | none => simp [cleanupSection,ho] at h
  | some old =>
    simp only [cleanupSection,ho,lookup_insert,some.injEq,Bool.and_eq_true,
      List.isEmpty_iff] at h hl
    rw [← hl]
    exact h.1

theorem lookup_thenReap (out : LockTable × Bool) : (thenReap resource out).lookup held =
      if out.2 = true ∧ held = resource then none else out.1.lookup held := by
  unfold thenReap
  by_cases hf : out.2 = true
  · simp only [hf,if_true,true_and]
    exact Map.lookup_erase_ite out.1 resource held
  · simp [hf]

theorem lookup_cleanup (hl : (thenReap resource (locks.cleanupSection resource txn)).lookup held = some state) :
    (held = resource → txn ∉ state.holders) ∧ (held ≠ resource → locks.lookup held = some state) := by
  rw [lookup_thenReap] at hl
  split at hl
  · cases hl
  cases ho : locks.lookup resource with
  | none =>
    simp only [cleanupSection,ho] at hl
    refine ⟨?_,fun _ => hl⟩
    rintro rfl
    rw [ho] at hl
    cases hl
  | some old =>
    simp only [cleanupSection,ho,Map.lookup_insert_ite] at hl
    split at hl
    next he =>
      cases hl
      refine ⟨fun _ => ?_,fun hne => absurd he hne⟩
      simp [LockState.removeWaiter,LockState.removeHolder]
    next he =>
      exact ⟨fun h => absurd h he,fun _ => hl⟩

theorem acquireSection_granted (hw : locks.Wf) (hg : (locks.acquireSection resource txn .write).2 = .granted guard) :
    (locks.acquireSection resource txn .write).1.HeldForWrite resource txn := by
  unfold acquireSection at hg ⊢
  dsimp only at hg ⊢
  split at hg
  next hc =>
    have hgr := LockState.heldForWrite_of_grant (hw.entry resource) hc
    split at hg
    next state he =>
      rw [he] at hgr
      rw [if_pos hc]
      exact ⟨state.removeWaiter txn,by rw [Map.lookup_insert_ite,if_pos rfl],(hgr rfl).of_fields rfl rfl⟩
    · cases hg
  · cases hg

theorem acquireSection_guard {lockType : LockType}
    (hg : (locks.acquireSection resource txn lockType).2 = .granted guard) : guard = ⟨resource,txn⟩ := by
  unfold acquireSection at hg
  dsimp only at hg
  split at hg
  · split at hg
    · exact (AcquireResult.granted.inj hg).symm
    · cases hg
  · cases hg

theorem HeldForWrite.refuses (h : locks.HeldForWrite resource txn) (hne : other ≠ txn) (lockType : LockType) (guard : LockGuard) :
    (locks.acquireSection resource other lockType).2 ≠ .granted guard := by
  obtain ⟨state,hl,hs⟩ := h
  simp [LockTable.acquireSection,entry_of_lookup hl,hs.refuses hne]

end LockTable
end HeliosNano.Storage
