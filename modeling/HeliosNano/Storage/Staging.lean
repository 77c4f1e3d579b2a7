import HeliosNano.Storage.Transaction
import HeliosNano.Storage.VersionKeys

namespace HeliosNano.Storage
open Foundation

/-- `data:{table}:` -/
def stagedPrefix (table : Bytes) : Bytes := dataPrefix ++ (table ++ [colon])

/-- The key is under a table by its first bytes: it may be that of a table whose name goes on after a separator. -/
def Under (table : Bytes) (key : Key) : Prop := stagedPrefix table <+: key
deriving Decidable

namespace Transaction

/-- `Transaction::new`: no session and no locks. -/
def new (transactionId : TxnId) (snapshotId : Timestamp) : Transaction := newWithSession transactionId snapshotId .readCommitted

/-- `get`: outside of a session no read takes a lock. -/
def stageGet (readAtVersion : Key → Timestamp → Except Error (Option Bytes)) (t : Transaction) (locks : Option LockManager)
    (key : Key) (timedOut : Bool) : Transaction × Option LockManager × CallResult (Option Bytes) :=
  match locks with
  | some locks =>
    let (t,locks,result) := t.get readAtVersion locks key timedOut
    (t,some locks,result)
  | none =>
    if t.state ≠ .active then (t,none,.err notActive)
    else (t,none,t.lookup readAtVersion key)

variable (t : Transaction) (locks : Option LockManager) (key : Key) (value : Bytes)

/-- `put`: outside of a session there is no lock manager. -/
def stagePut (timedOut : Bool) : Transaction × Option LockManager × CallResult Unit :=
  match locks with
  | some locks =>
    let (t,locks,result) := t.put locks key value timedOut
    (t,some locks,result)
  | none =>
    if t.state ≠ .active then (t,none,.err notActive)
    else ({ t with writeSet := t.writeSet.insert key (some value) },none,.ok ())

/-- Only outside of a session are new rows kept apart from the write set. -/
def putInsertFast (timedOut : Bool) : Transaction × Option LockManager × CallResult Unit :=
  if t.state ≠ .active then (t,locks,.err notActive)
  else match locks with
    | some locks => t.stagePut (some locks) key value timedOut
    | none => ({ t with insertLog := t.insertLog ++ [(key,value)] },none,.ok ())

def stageRowCounter (tableName : String) (rowId : RowId) : Transaction × CallResult Unit :=
  if t.state ≠ .active then (t,.err notActive)
  else
    let current := (t.rowCounterStages.lookup tableName).elim rowId fun current => max rowId current
    ({ t with rowCounterStages := t.rowCounterStages.insert tableName current },.ok ())

/-- A dropped table takes what is staged under its name. -/
def discardStagedForTable (tableName : String) : Transaction :=
  { t with
    writeSet := t.writeSet.retain fun key _ => decide ¬Under (textBytes tableName) key
    insertLog := t.insertLog.filter fun entry => decide ¬Under (textBytes tableName) entry.1
    rowCounterStages := t.rowCounterStages.erase tableName }

/-- The write set may have taken a value. Nothing else that is staged is different. -/
structure MayPut (t t' : Transaction) (key : Key) (value : Bytes) : Prop where
  insertLog : t'.insertLog = t.insertLog
  savepoints : t'.savepoints = t.savepoints
  writeSet : t'.writeSet = t.writeSet.insert key (some value) ∨ t'.writeSet = t.writeSet

theorem put_mayPut (locks : LockManager) (key : Key) (value : Bytes) (timedOut : Bool) :
    t.MayPut (t.put locks key value timedOut).1 key value := by
  rw [put.eq_def]
  split
  · exact ⟨rfl,rfl,.inr rfl⟩
  rw [withLock]
  split
  · exact ⟨rfl,rfl,.inl rfl⟩
  · exact ⟨rfl,rfl,.inr rfl⟩
  · exact ⟨rfl,rfl,.inr rfl⟩
  · exact ⟨rfl,rfl,.inr rfl⟩

theorem stagePut_mayPut (timedOut : Bool) : t.MayPut (t.stagePut locks key value timedOut).1 key value := by
  cases locks with
  | some locks => exact t.put_mayPut locks key value timedOut
  | none =>
    rw [stagePut.eq_def]
    dsimp only
    split
    · exact ⟨rfl,rfl,.inr rfl⟩
    · exact ⟨rfl,rfl,.inl rfl⟩

theorem putInsertFast_staged (timedOut : Bool) :
    (t.putInsertFast locks key value timedOut).1 = { t with insertLog := t.insertLog ++ [(key,value)] } ∨
      t.MayPut (t.putInsertFast locks key value timedOut).1 key value := by
  rw [putInsertFast.eq_def]
  split
  · exact .inr ⟨rfl,rfl,.inr rfl⟩
  · cases locks with
    | none => exact .inl rfl
    | some locks => exact .inr (t.stagePut_mayPut (some locks) key value timedOut)

theorem lookup_rollbackToSavepoint {t : Transaction} {saved : Map Key (Option Bytes)} (insertLogLen : Nat) (key : Key) :
    (t.rollbackToSavepoint ⟨saved.entries.map fun entry => (entry.1,entry.2),insertLogLen⟩).writeSet.lookup key =
      saved.lookup key := by
  have hk : ((saved.entries.map fun entry => (entry.1,entry.2)).map Prod.fst) = saved.keys := by
    simp [AList.keys,List.keys,Function.comp_def]
  have hnd : ((saved.entries.map fun entry => (entry.1,entry.2)).map Prod.fst).Nodup := by
    rw [hk]
    exact saved.nodupKeys
  cases hlk : saved.lookup key with
  | some staged =>
    have hm : (key,staged) ∈ saved.entries.map fun entry => (entry.1,entry.2) :=
      List.mem_map.mpr ⟨⟨key,staged⟩,AList.mem_lookup_iff.mp hlk,rfl⟩
    exact Map.lookup_foldl_insert_of_mem _ hnd hm
  | none =>
    have hno : key ∉ (t.rollbackToSavepoint ⟨saved.entries.map fun entry => (entry.1,entry.2),insertLogLen⟩).writeSet := by
      rw [mem_rollbackToSavepoint,hk,← AList.mem_keys]
      exact AList.lookup_eq_none.mp hlk
    exact AList.lookup_eq_none.mpr hno

end Transaction
end HeliosNano.Storage
