import HeliosNano.Foundation.Maps
import HeliosNano.Storage.Basics

namespace HeliosNano.Storage
open Foundation List Option AList

inductive LockType
  | read
  | write
deriving DecidableEq, Repr

def LockType.isCompatibleWith : LockType → LockType → Bool
  | .read, .read => true
  | _, _ => false

structure LockState where
  holders : List TxnId
  lockType : Option LockType
  waiters : List (TxnId × LockType)
  acquisitionCounts : Map TxnId Nat

namespace LockState

def new : LockState := ⟨[],none,[],∅⟩

/-- A transaction never conflicts with itself while it is the only holder. -/
def canAcquire (s : LockState) (txn : TxnId) (requested : LockType) : Bool :=
  if s.holders.isEmpty then true
  else if s.holders.length == 1 && s.holders.head? == some txn then true
  else match s.lockType with
    | some current => requested.isCompatibleWith current
    | none => true

/-- The recorded type only strengthens: a later Read never hides a Write. -/
def strengthen : Option LockType → LockType → LockType
  | some .write, _ => .write
  | _, requested => requested

/-- One more acquisition. The flag is false when the `u32` count overflows,
which panics after the holder was pushed and before anything else is stored. -/
def addHolder (s : LockState) (txn : TxnId) (lockType : LockType) : LockState × Bool :=
  let holders := if txn ∈ s.holders then s.holders else s.holders ++ [txn]
  let count := (s.acquisitionCounts.lookup txn).getD 0
  if count < u32Max then
    ({ s with
        holders := holders
        acquisitionCounts := s.acquisitionCounts.insert txn (count+1)
        lockType := some (strengthen s.lockType lockType) },true)
  else ({ s with holders := holders },false)

/-- The abort path: all acquisitions of the transaction go at once. -/
def removeHolder (s : LockState) (txn : TxnId) : LockState :=
  let holders := s.holders.filter (· ≠ txn)
  { s with
    holders := holders
    acquisitionCounts := s.acquisitionCounts.erase txn
    lockType := if holders.isEmpty then none else s.lockType }

/-- Release one acquisition; true when it was the last one of its holder. -/
def releaseOnce (s : LockState) (txn : TxnId) : LockState × Bool :=
  match s.acquisitionCounts.lookup txn with
  | some count =>
    if 1 < count then
      ({ s with acquisitionCounts := s.acquisitionCounts.insert txn (count-1) },false)
    else (s.removeHolder txn,true)
  | none =>
    let holders := s.holders.filter (· ≠ txn)
    ({ s with holders := holders, lockType := if holders.isEmpty then none else s.lockType },false)

/-- A cloned guard counts as one more acquisition of an existing holder. -/
def duplicateAcquisition (s : LockState) (txn : TxnId) : LockState :=
  match s.acquisitionCounts.lookup txn with
  | some count =>
    if count < u32Max then { s with acquisitionCounts := s.acquisitionCounts.insert txn (count+1) }
    else s
  | none => s

def addWaiter (s : LockState) (txn : TxnId) (lockType : LockType) : LockState :=
  if s.waiters.any (·.1 == txn) then s else { s with waiters := s.waiters ++ [(txn,lockType)] }

def removeWaiter (s : LockState) (txn : TxnId) : LockState :=
  { s with waiters := s.waiters.filter (·.1 ≠ txn) }

/-- The lock table invariant of one entry. -/
structure Wf (s : LockState) : Prop where
  distinct : s.holders.Nodup
  counted : ∀ txn, txn ∈ s.holders ↔ txn ∈ s.acquisitionCounts
  positive : ∀ txn count, s.acquisitionCounts.lookup txn = some count → 1 ≤ count
  untyped : s.lockType = none ↔ s.holders = []
  exclusive : s.lockType = some .write → s.holders.length = 1

def HeldForWrite (s : LockState) (txn : TxnId) : Prop :=
  s.holders = [txn] ∧ s.lockType = some .write

theorem wf_new : new.Wf where
  distinct := nodup_nil
  counted := by simp [new]
  positive := by simp [new]
  untyped := by simp [new]
  exclusive := by simp [new]

variable {s : LockState} {txn other : TxnId}
variable (h : s.Wf)
include h

theorem Wf.of_fields {s' : LockState} (hh : s'.holders = s.holders)
    (ht : s'.lockType = s.lockType) (hc : s'.acquisitionCounts = s.acquisitionCounts) : s'.Wf where
  distinct := hh ▸ h.distinct
  counted := by rw [hh,hc]; exact h.counted
  positive := by rw [hc]; exact h.positive
  untyped := by rw [hh,ht]; exact h.untyped
  exclusive := by rw [hh,ht]; exact h.exclusive

theorem Wf.recount (count : Nat) (hm : txn ∈ s.acquisitionCounts) (hp : 1 ≤ count) :
    ({ s with acquisitionCounts := s.acquisitionCounts.insert txn count } : LockState).Wf where
  distinct := h.distinct
  counted t := by
    rw [mem_insert,h.counted t]
    exact ⟨Or.inr,fun ht => ht.elim (fun he => he ▸ hm) id⟩
  positive t n hn := by
    rw [Map.lookup_insert_ite] at hn
    split at hn
    · cases hn
      exact hp
    · exact h.positive t n hn
  untyped := h.untyped
  exclusive := h.exclusive

theorem Wf.addWaiter (txn : TxnId) (lockType : LockType) : (s.addWaiter txn lockType).Wf := by
  unfold LockState.addWaiter
  split
  · exact h
  · exact h.of_fields rfl rfl rfl

theorem Wf.removeWaiter (txn : TxnId) : (s.removeWaiter txn).Wf :=
  h.of_fields rfl rfl rfl

theorem canAcquire_cases {requested : LockType} (hg : s.canAcquire txn requested = true) :
    s.holders = [] ∨ s.holders = [txn] ∨ (s.holders ≠ [] ∧ s.lockType = some .read ∧ requested = .read) := by
  unfold canAcquire at hg
  split at hg
  next he =>
    exact .inl (List.isEmpty_iff.mp he)
  next he =>
    have hne : s.holders ≠ [] := by simpa [List.isEmpty_iff] using he
    split at hg
    next hs =>
      simp only [Bool.and_eq_true,beq_iff_eq] at hs
      obtain ⟨a,ha⟩ := length_eq_one_iff.mp hs.1
      have : a = txn := by simpa [ha] using hs.2
      exact .inr (.inl (this ▸ ha))
    · cases ht : s.lockType with
      | none => exact absurd (h.untyped.mp ht) hne
      | some current =>
        rw [ht] at hg
        cases requested <;> cases current <;> simp_all [LockType.isCompatibleWith]

theorem Wf.addHolder {lockType : LockType} (hg : s.canAcquire txn lockType = true) : (s.addHolder txn lockType).1.Wf := by
  by_cases hm : txn ∈ s.holders
  · -- A re-entrant acquisition: the holders stay, the count and the type move.
    obtain ⟨count,hcn⟩ := isSome_iff_exists.mp (lookup_isSome.mpr ((h.counted txn).mp hm))
    unfold LockState.addHolder
    simp only [hm,if_true,hcn,getD_some]
    split
    · have hr := h.recount (count+1) ((h.counted txn).mp hm) (by omega)
      refine ⟨hr.distinct,hr.counted,hr.positive,?_,?_⟩
      · simp only [reduceCtorEq,false_iff]
        exact ne_nil_of_mem hm
      · intro hw
        rcases canAcquire_cases h hg with he | he | ⟨_,ht,rfl⟩
        · simp [he] at hm
        · simp [he]
        · simp [strengthen,ht] at hw
    · exact h.of_fields rfl rfl rfl
  · -- A new holder: the lock was free, or it is shared by readers only.
    have hc : s.acquisitionCounts.lookup txn = none := by
      rw [AList.lookup_eq_none,← h.counted]
      exact hm
    unfold LockState.addHolder
    simp only [hm,if_false,hc,getD_none,u32Max,Nat.zero_lt_succ,if_true,Nat.zero_add]
    refine ⟨?_,?_,?_,?_,?_⟩
    · exact nodup_append.mpr ⟨h.distinct,nodup_singleton _,
        fun a ha b hb => by rintro rfl; exact hm (by simpa using mem_singleton.mp hb ▸ ha)⟩
    · intro t
      rw [mem_append,mem_singleton,mem_insert,h.counted t,Or.comm]
    · intro t n hn
      rw [Map.lookup_insert_ite] at hn
      split at hn
      · cases hn
        exact le_rfl
      · exact h.positive t n hn
    · simp
    · intro hw
      rcases canAcquire_cases h hg with he | he | ⟨_,ht,rfl⟩
      · simp [he]
      · simp [he] at hm
      · simp [strengthen,ht] at hw

theorem Wf.removeHolder (txn : TxnId) : (s.removeHolder txn).Wf where
  distinct := h.distinct.filter _
  counted t := by
    simp only [LockState.removeHolder,mem_filter,h.counted t,decide_eq_true_eq,mem_erase]
    exact And.comm
  positive t n hn := by
    simp only [LockState.removeHolder,Map.lookup_erase_ite] at hn
    split at hn
    · cases hn
    · exact h.positive t n hn
  untyped := by
    simp only [LockState.removeHolder,List.isEmpty_iff]
    split
    next he =>
      exact iff_of_true rfl he
    next he =>
      refine iff_of_false (fun ht => he ?_) he
      simp [h.untyped.mp ht]
  exclusive := by
    simp only [LockState.removeHolder,List.isEmpty_iff]
    split
    · simp
    next he =>
      intro hw
      have hl := length_filter_le (fun t => decide (t ≠ txn)) s.holders
      have hp := length_pos_of_ne_nil he
      have := h.exclusive hw
      omega

theorem Wf.releaseOnce (txn : TxnId) : (s.releaseOnce txn).1.Wf := by
  unfold LockState.releaseOnce
  split
  next count hc =>
    split
    · exact h.recount _ (lookup_isSome.mp (by simp [hc])) (by omega)
    · exact h.removeHolder txn
  · -- An uncounted transaction holds nothing, so the defensive filter keeps everything.
    rename_i hc
    have hm : txn ∉ s.holders := by
      rw [h.counted,← AList.lookup_eq_none]
      exact hc
    have hf : s.holders.filter (· ≠ txn) = s.holders := by
      rw [filter_eq_self]
      intro t ht
      simp only [decide_eq_true_eq]
      rintro rfl
      exact hm ht
    refine h.of_fields (by simpa using hf) ?_ rfl
    simp only [hf,List.isEmpty_iff]
    split
    next he =>
      exact (h.untyped.mpr he).symm
    · rfl

theorem Wf.duplicateAcquisition (txn : TxnId) : (s.duplicateAcquisition txn).Wf := by
  unfold LockState.duplicateAcquisition
  split
  next count hc =>
    split
    · exact h.recount _ (lookup_isSome.mp (by simp [hc])) (by omega)
    · exact h
  · exact h

theorem heldForWrite_iff : s.HeldForWrite txn ↔ txn ∈ s.holders ∧ s.lockType = some .write := by
  refine ⟨fun hh => ⟨by simp [hh.1],hh.2⟩,fun hh => ⟨?_,hh.2⟩⟩
  obtain ⟨a,ha⟩ := length_eq_one_iff.mp (h.exclusive hh.2)
  have : txn = a := by simpa [ha] using hh.1
  rw [ha,this]

omit h

theorem HeldForWrite.refuses (h : s.HeldForWrite txn)
    (hne : other ≠ txn) (requested : LockType) : s.canAcquire other requested = false := by
  cases requested <;> simp [canAcquire,h.1,h.2,LockType.isCompatibleWith,Ne.symm hne]

theorem HeldForWrite.addHolder (h : s.HeldForWrite txn)
    (lockType : LockType) : (s.addHolder txn lockType).1.HeldForWrite txn := by
  unfold LockState.addHolder
  simp only [h.1,h.2,mem_singleton,if_true]
  split <;> exact ⟨rfl,rfl⟩

theorem heldForWrite_of_grant (h : s.Wf) (hg : s.canAcquire txn .write = true) (hok : (s.addHolder txn .write).2 = true) :
    (s.addHolder txn .write).1.HeldForWrite txn := by
  refine (heldForWrite_iff (h.addHolder hg)).mpr ?_
  unfold LockState.addHolder at hok ⊢
  dsimp only at hok ⊢
  split at hok
  next hc =>
    rw [if_pos hc]
    refine ⟨?_,?_⟩
    · dsimp only
      split
      · assumption
      · simp
    · cases ht : s.lockType with
      | none => rfl
      | some current => cases current <;> rfl
  · cases hok

theorem HeldForWrite.removeHolder (h : s.HeldForWrite txn) (hne : other ≠ txn) : (s.removeHolder other).HeldForWrite txn := by
  simp [LockState.removeHolder,HeldForWrite,h.1,h.2,Ne.symm hne]

theorem HeldForWrite.releaseOnce (hw : s.Wf)
    (h : s.HeldForWrite txn) (hne : other ≠ txn) : (s.releaseOnce other).1.HeldForWrite txn := by
  have hc : s.acquisitionCounts.lookup other = none := by
    rw [AList.lookup_eq_none,← hw.counted,h.1]
    simpa using hne
  simp [LockState.releaseOnce,hc,HeldForWrite,h.1,h.2,Ne.symm hne]

theorem HeldForWrite.of_fields {s' : LockState} (h : s.HeldForWrite txn)
    (hh : s'.holders = s.holders) (ht : s'.lockType = s.lockType) : s'.HeldForWrite txn :=
  ⟨hh ▸ h.1,ht ▸ h.2⟩

theorem addWaiter_holders (s : LockState) (txn : TxnId) (lockType : LockType) : (s.addWaiter txn lockType).holders = s.holders ∧
      (s.addWaiter txn lockType).lockType = s.lockType := by
  unfold LockState.addWaiter
  split <;> exact ⟨rfl,rfl⟩

theorem duplicateAcquisition_holders (s : LockState) (txn : TxnId) : (s.duplicateAcquisition txn).holders = s.holders ∧
      (s.duplicateAcquisition txn).lockType = s.lockType := by
  unfold LockState.duplicateAcquisition
  split
  · split <;> exact ⟨rfl,rfl⟩
  · exact ⟨rfl,rfl⟩

end LockState
end HeliosNano.Storage
