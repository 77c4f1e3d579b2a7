import HeliosNano.Foundation.Runs
import HeliosNano.Storage.LockTable

namespace HeliosNano.Storage.LockInterleaving
open Foundation

/-- The table, and the callers between a section that found the entry empty and
the `locks.remove` that follows it, each by its resource. -/
structure State where
  locks : LockTable
  removing : List String

def new : State := ⟨∅,[]⟩

inductive Access
  | acquire (resource : String) (txn : TxnId) (lockType : LockType)
  | clone (resource : String) (txn : TxnId)
  | release (resource : String) (txn : TxnId)
  | cleanup (resource : String) (txn : TxnId)
  | remove (resource : String)
deriving DecidableEq, Repr

variable (s : State) (resource : String)

def afterSection (out : LockTable × Bool) : State :=
  ⟨out.1,if out.2 then resource::s.removing else s.removing⟩

/-- A removal happens only as the second half of a section. -/
def access : Access → State
  | .acquire resource txn lockType =>
    { s with locks := (s.locks.acquireSection resource txn lockType).1 }
  | .clone resource txn => { s with locks := s.locks.cloneSection resource txn }
  | .release resource txn => afterSection s resource (s.locks.releaseSection resource txn)
  | .cleanup resource txn => afterSection s resource (s.locks.cleanupSection resource txn)
  | .remove resource =>
    if resource ∈ s.removing then ⟨s.locks.reap resource,s.removing.erase resource⟩ else s

/-- The transaction would be granted the lock by its next access. -/
def Grants (txn : TxnId) (lockType : LockType) : Prop :=
  (s.locks.acquireSection resource txn lockType).2 = .granted ⟨resource,txn⟩
deriving Decidable

/-- The access gives up acquisitions of the transaction at the resource. -/
def Access.GivesUp (txn : TxnId) (a : Access) : Prop :=
  a = .release resource txn ∨ a = .cleanup resource txn

/-- A removal meets an entry that nobody holds in Write mode. -/
def RemovesUnheld : Access → Prop
  | .remove resource => ∀ txn, ¬s.locks.HeldForWrite resource txn
  | _ => True

theorem access_wf (a : Access) (h : s.locks.Wf) : (access s a).locks.Wf := by
  cases a with
  | acquire resource txn lockType => exact h.acquireSection resource txn lockType
  | clone resource txn => exact h.cloneSection resource txn
  | release resource txn => exact h.releaseSection resource txn
  | cleanup resource txn => exact h.cleanupSection resource txn
  | remove resource =>
    by_cases hp : resource ∈ s.removing
    · simp only [access,if_pos hp]
      exact h.reap resource
    · simp only [access,if_neg hp]
      exact h

theorem access_heldForWrite {s : State} {a : Access} {resource : String} {txn : TxnId}
    (hw : s.locks.Wf) (h : s.locks.HeldForWrite resource txn) (hs : RemovesUnheld s a)
    (hk : ¬a.GivesUp resource txn) : (access s a).locks.HeldForWrite resource txn := by
  cases a with
  | acquire r t lockType => exact h.acquireSection r t lockType
  | clone r t => exact h.cloneSection r t
  | release r t =>
    apply h.releaseSection hw
    rintro ⟨rfl,rfl⟩
    exact hk (.inl rfl)
  | cleanup r t =>
    apply h.cleanupSection
    rintro ⟨rfl,rfl⟩
    exact hk (.inr rfl)
  | remove r =>
    by_cases hp : r ∈ s.removing
    · simp only [access,if_pos hp]
      apply h.reap
      rintro rfl
      exact hs txn h
    · simp only [access,if_neg hp]
      exact h

/-- In every interleaving in which no removal meets an entry held in Write mode, a
granted Write that was neither released nor cleaned up is still recorded, and no
other transaction can be granted the resource. -/
theorem write_grant_survives (first rest : List Access) (resource : String) (txn : TxnId)
    (hsafe : Guarded access RemovesUnheld new (first ++ .acquire resource txn .write :: rest))
    (hgrant : Grants (run access new first) resource txn .write) (hkeep : ∀ a ∈ rest, ¬a.GivesUp resource txn) :
    (run access new (first ++ .acquire resource txn .write :: rest)).locks.HeldForWrite resource txn ∧
      ∀ other lockType, other ≠ txn →
        ¬Grants (run access new (first ++ .acquire resource txn .write :: rest)) resource other lockType := by
  have hwf : (run access new first).locks.Wf :=
    run_invariant access (fun s => s.locks.Wf) access_wf LockTable.wf_empty first
  obtain ⟨_,_,hrest⟩ := (guarded_append access).mp hsafe
  -- From the grant on, well-formedness and the holder are carried together.
  have hheld := guarded_run_invariant access (fun s => s.locks.Wf ∧ s.locks.HeldForWrite resource txn)
    (fun s a hs ha => ⟨access_wf s a hs.1,access_heldForWrite hs.1 hs.2 ha.1 ha.2⟩)
    ⟨access_wf _ (.acquire resource txn .write) hwf,LockTable.acquireSection_granted hwf hgrant⟩ (hrest.and_forall access hkeep)
  rw [run_append,run_cons]
  exact ⟨hheld.2,fun other lockType hne => hheld.2.refuses hne lockType _⟩

/-- A reader that leaves, a writer, and a waiter that is refused. -/
theorem write_grant_survives_reader_left :
    Grants (run access new [.acquire "data:t:1" 1 .read,.release "data:t:1" 1,.remove "data:t:1",
      .acquire "data:t:1" 2 .write,.acquire "data:t:1" 3 .write]) "data:t:1" 2 .write ∧
    ¬Grants (run access new [.acquire "data:t:1" 1 .read,.release "data:t:1" 1,.remove "data:t:1",
      .acquire "data:t:1" 2 .write,.acquire "data:t:1" 3 .write]) "data:t:1" 3 .write := by
  refine ⟨by decide +kernel,?_⟩
  refine (write_grant_survives [.acquire "data:t:1" 1 .read,.release "data:t:1" 1,.remove "data:t:1"]
    [.acquire "data:t:1" 3 .write] "data:t:1" 2 ?_ (by decide +kernel) ?_).2 3 .write (by decide)
  · refine ⟨trivial,trivial,?_,trivial,trivial,trivial⟩
    rintro txn ⟨state,hl,hh,-⟩
    have hnone : ((run access new [.acquire "data:t:1" 1 .read,.release "data:t:1" 1]).locks.lookup
        "data:t:1").map (·.holders) = some [] := by decide +kernel
    rw [run_cons,run_cons,run_nil] at hnone
    rw [hl] at hnone
    simp [hh] at hnone
  · simp [Access.GivesUp]

/-- The reader decides to remove the entry, the writer is granted it, and the
removal then drops the grant: a second writer is granted the same resource. -/
theorem removal_drops_a_grant : ¬∀ (first rest : List Access) (resource : String) (txn : TxnId),
      Grants (run access new first) resource txn .write → (∀ a ∈ rest, ¬a.GivesUp resource txn) →
      (run access new (first ++ .acquire resource txn .write :: rest)).locks.HeldForWrite resource txn ∧
        ∀ other lockType, other ≠ txn →
          ¬Grants (run access new (first ++ .acquire resource txn .write :: rest)) resource other lockType := by
  intro h
  have hlost := h [.acquire "data:t:1" 1 .read,.release "data:t:1" 1] [.remove "data:t:1"] "data:t:1" 2
    (by decide +kernel) (by simp [Access.GivesUp])
  exact hlost.2 3 .write (by decide) (by decide +kernel)

end HeliosNano.Storage.LockInterleaving
