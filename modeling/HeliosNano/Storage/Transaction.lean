import HeliosNano.Foundation.Utf8
import HeliosNano.Storage.LockManager

namespace HeliosNano.Storage
open Foundation List

inductive TransactionState
  | active
  | committed
  | aborted
deriving DecidableEq, Repr

inductive IsolationLevel
  | readCommitted
  | repeatableRead
  | serializable
deriving DecidableEq, Repr

structure TransactionSavepointSnapshot where
  writeSet : List (Key × Option Bytes)
  insertLogLen : Nat
deriving DecidableEq

structure SavepointEntry where
  name : String
  snapshot : TransactionSavepointSnapshot
  artUndoLen : Nat
deriving DecidableEq

def SavepointEntry.keys (entry : SavepointEntry) : List Key := entry.snapshot.writeSet.map (·.1)

/-- A staged `none` is a tombstone. -/
structure Transaction where
  transactionId : TxnId
  snapshotTs : Timestamp
  writeSet : Map Key (Option Bytes)
  insertLog : List (Key × Bytes)
  rowCounterStages : Map String RowId
  state : TransactionState
  isolationLevel : IsolationLevel
  acquiredLocks : List LockGuard
  savepoints : List SavepointEntry

inductive CallResult (Value : Type)
  | ok (value : Value)
  | err (error : Error)
  | waiting
  | panicked
deriving DecidableEq, Repr

namespace Transaction

def newWithSession (transactionId : TxnId) (snapshotId : Timestamp) (isolationLevel : IsolationLevel) :
    Transaction where
  transactionId := transactionId
  snapshotTs := snapshotId
  writeSet := ∅
  insertLog := []
  rowCounterStages := ∅
  state := .active
  isolationLevel := isolationLevel
  acquiredLocks := []
  savepoints := []

def notActive : Error := .transaction "Transaction is not active"

/-- One round at the lock of a key. The guard is kept until the transaction ends. -/
def withLock {Value : Type} (t : Transaction) (locks : LockManager) (key : Key) (lockType : LockType)
    (timedOut : Bool) (body : Transaction → Transaction × CallResult Value) :
    Transaction × LockManager × CallResult Value :=
  match locks.acquireRound (fromUtf8Lossy key) t.transactionId lockType timedOut with
  | (locks,.granted guard) =>
    let (t,result) := body { t with acquiredLocks := t.acquiredLocks ++ [guard] }
    (t,locks,result)
  | (locks,.failed error) => (t,locks,.err error)
  | (locks,.waiting) => (t,locks,.waiting)
  | (locks,.panicked) => (t,locks,.panicked)

/-- Own staged writes first, the write set before the insert log, then the snapshot. -/
def lookup (readAtVersion : Key → Timestamp → Except Error (Option Bytes)) (t : Transaction) (key : Key) :
    CallResult (Option Bytes) :=
  match t.writeSet.lookup key with
  | some staged => .ok staged
  | none =>
    match t.insertLog.reverse.find? (·.1 == key) with
    | some (_,value) => .ok (some value)
    | none =>
      match readAtVersion key t.snapshotTs with
      | .ok value => .ok value
      | .error error => .err error

/-- Only the stronger isolation levels lock what they read. -/
def get (readAtVersion : Key → Timestamp → Except Error (Option Bytes)) (t : Transaction)
    (locks : LockManager) (key : Key) (timedOut : Bool) :
    Transaction × LockManager × CallResult (Option Bytes) :=
  if t.state ≠ .active then (t,locks,.err notActive)
  else match t.isolationLevel with
    | .readCommitted => (t,locks,t.lookup readAtVersion key)
    | .repeatableRead | .serializable =>
      t.withLock locks key .read timedOut fun t => (t,t.lookup readAtVersion key)

def put (t : Transaction) (locks : LockManager) (key : Key) (value : Bytes) (timedOut : Bool) :
    Transaction × LockManager × CallResult Unit :=
  if t.state ≠ .active then (t,locks,.err notActive)
  else t.withLock locks key .write timedOut fun t =>
    ({ t with writeSet := t.writeSet.insert key (some value) },.ok ())

/-- Unlike a put, a delete stages its tombstone without taking the lock of the key. -/
def delete (t : Transaction) (key : Key) : Transaction × CallResult Unit :=
  if t.state ≠ .active then (t,.err notActive)
  else ({ t with writeSet := t.writeSet.insert key none },.ok ())

def savepointSnapshot (t : Transaction) : TransactionSavepointSnapshot :=
  ⟨t.writeSet.entries.map fun entry => (entry.1,entry.2),t.insertLog.length⟩

/-- Keys staged after the savepoint go, the others return to their values. No lock
is given back. -/
def rollbackToSavepoint (t : Transaction) (snapshot : TransactionSavepointSnapshot) : Transaction :=
  let kept := t.writeSet.keys.foldl
    (fun staged key => if key ∈ snapshot.writeSet.map (·.1) then staged else staged.erase key) t.writeSet
  { t with
    writeSet := snapshot.writeSet.foldl (fun staged entry => staged.insert entry.1 entry.2) kept
    insertLog := t.insertLog.take snapshot.insertLogLen }

def pushSavepoint (t : Transaction) (name : String) (snapshot : TransactionSavepointSnapshot)
    (artUndoLen : Nat) : Transaction :=
  { t with savepoints := t.savepoints ++ [⟨name,snapshot,artUndoLen⟩] }

/-- The stack up to and with its last savepoint of the name, that one apart. -/
def splitAtSavepoint (stack : List SavepointEntry) (name : String) :
    Option (List SavepointEntry × SavepointEntry) :=
  match stack.reverse.dropWhile (·.name ≠ name) with
  | [] => none
  | target::older => some (older.reverse,target)

def releaseSavepoint (t : Transaction) (name : String) : Transaction × Bool :=
  match splitAtSavepoint t.savepoints name with
  | some (older,_) => ({ t with savepoints := older },true)
  | none => (t,false)

def resolveSavepointTarget (t : Transaction) (name : String) :
    Transaction × Option (TransactionSavepointSnapshot × Nat) :=
  match splitAtSavepoint t.savepoints name with
  | some (older,target) =>
    ({ t with savepoints := older ++ [target] },some (target.snapshot,target.artUndoLen))
  | none => (t,none)

/-- Clearing the guards drops them in order, each releasing one acquisition. -/
def dropLocks (guards : List LockGuard) (locks : LockManager) : LockManager :=
  guards.foldl (fun locks guard => locks.releaseLockInternal guard.lockId guard.transactionId) locks

/-- The end of a transaction: its guards are dropped and nothing stays staged. -/
def close (t : Transaction) (locks : LockManager) (final : TransactionState) : Transaction × LockManager :=
  ({ t with
      state := final
      acquiredLocks := []
      writeSet := ∅
      insertLog := []
      rowCounterStages := ∅ },dropLocks t.acquiredLocks locks)

def rollback (t : Transaction) (locks : LockManager) : Transaction × LockManager × CallResult Unit :=
  if t.state ≠ .active then (t,locks,.err notActive)
  else
    let (t,locks) := t.close locks .aborted
    (t,locks,.ok ())

/-- Savepoints are nested: an older one knows no key that a newer one or the write
set does not have. -/
structure Nested (t : Transaction) : Prop where
  ordered : t.savepoints.Pairwise fun older newer => older.keys ⊆ newer.keys
  staged : ∀ entry ∈ t.savepoints, entry.keys ⊆ t.writeSet.keys

theorem mem_rollbackToSavepoint (t : Transaction) (snapshot : TransactionSavepointSnapshot) (key : Key) :
    key ∈ (t.rollbackToSavepoint snapshot).writeSet ↔ key ∈ snapshot.writeSet.map (·.1) := by
  simp only [rollbackToSavepoint,Map.mem_foldl_insert,Map.mem_foldl_erase]
  constructor
  · rintro (⟨hm,hs | hn⟩ | hs)
    · exact hs
    · exact absurd (AList.mem_keys.mp hm) hn
    · exact hs
  · exact Or.inr

variable {name : String} {t : Transaction}

theorem splitAtSavepoint_spec {stack older : List SavepointEntry} {target : SavepointEntry}
    (h : splitAtSavepoint stack name = some (older,target)) : older ++ [target] <+: stack := by
  cases hd : stack.reverse.dropWhile (·.name ≠ name) with
  | nil =>
    simp only [splitAtSavepoint,hd] at h
    cases h
  | cons first rest =>
    simp only [splitAtSavepoint,hd,Option.some.injEq,Prod.mk.injEq] at h
    obtain ⟨rfl,rfl⟩ := h
    have hs : first::rest <:+ stack.reverse := hd ▸ dropWhile_suffix _
    simpa using reverse_prefix.mpr hs

theorem releaseSavepoint_eq (t : Transaction) (name : String) :
    (t.releaseSavepoint name).1 = { t with savepoints := (t.releaseSavepoint name).1.savepoints } := by
  unfold releaseSavepoint
  split <;> rfl

theorem resolveSavepointTarget_eq (t : Transaction) (name : String) : (t.resolveSavepointTarget name).1 =
      { t with savepoints := (t.resolveSavepointTarget name).1.savepoints } := by
  unfold resolveSavepointTarget
  split <;> rfl

theorem Nested.put {t : Transaction} (h : t.Nested) (key : Key) (staged : Option Bytes) :
    Nested { t with writeSet := t.writeSet.insert key staged } where
  ordered := h.ordered
  staged entry he k hk := by
    rw [← AList.mem_keys,AList.mem_insert]
    exact .inr (AList.mem_keys.mpr (h.staged entry he hk))

theorem Nested.pushSavepoint (h : t.Nested) (name : String) (artUndoLen : Nat) :
    (t.pushSavepoint name t.savepointSnapshot artUndoLen).Nested := by
  have hk : t.savepointSnapshot.writeSet.map (·.1) = t.writeSet.keys := by
    simp [savepointSnapshot,AList.keys,List.keys,Function.comp_def]
  constructor
  · refine pairwise_append.mpr ⟨h.ordered,pairwise_singleton _ _,?_⟩
    intro older ho newer hn
    obtain rfl := mem_singleton.mp hn
    simpa [SavepointEntry.keys,hk] using h.staged older ho
  · intro entry he
    rcases mem_append.mp he with ho | hn
    · exact h.staged entry ho
    · obtain rfl := mem_singleton.mp hn
      simp [SavepointEntry.keys,hk,Transaction.pushSavepoint]

theorem Nested.releaseSavepoint (h : t.Nested) (name : String) : (t.releaseSavepoint name).1.Nested := by
  unfold Transaction.releaseSavepoint
  split
  next older target hs =>
    have hp := ((prefix_append older [target]).trans (splitAtSavepoint_spec hs)).sublist
    exact ⟨h.ordered.sublist hp,fun entry he => h.staged entry (hp.subset he)⟩
  · exact h

theorem Nested.rollbackTo {target : Transaction} (h : t.Nested) {snapshot : TransactionSavepointSnapshot} {artUndoLen : Nat}
    (hr : t.resolveSavepointTarget name = (target,some (snapshot,artUndoLen))) : (target.rollbackToSavepoint snapshot).Nested ∧
      ∀ key ∈ (target.rollbackToSavepoint snapshot).writeSet, key ∈ t.writeSet := by
  unfold resolveSavepointTarget at hr
  split at hr
  next older entry hs =>
    cases hr
    have hp := (splitAtSavepoint_spec hs).sublist
    have hor := h.ordered.sublist hp
    refine ⟨⟨hor,?_⟩,?_⟩
    · intro old hold key hk
      rw [← AList.mem_keys,mem_rollbackToSavepoint]
      rcases mem_append.mp hold with ho | hn
      · exact (pairwise_append.mp hor).2.2 old ho entry (by simp) hk
      · obtain rfl := mem_singleton.mp hn
        exact hk
    · intro key hk
      rw [mem_rollbackToSavepoint] at hk
      exact AList.mem_keys.mpr (h.staged entry (hp.subset (by simp)) hk)
  · cases hr

end Transaction
end HeliosNano.Storage
