import HeliosNano.Storage.Conflict
import HeliosNano.Storage.Inflight
import HeliosNano.Storage.RowIndex
import HeliosNano.Storage.Transaction

namespace HeliosNano.Storage
open Foundation List

inductive WalOperation
  | insert (table : Bytes) (key : Key) (tuple : Bytes)
  | update (table : Bytes) (key : Key) (tuple : Bytes)
  | delete (table : Bytes) (key : Key)
  | updateCounter (tableName : String) (newValue : RowId)

/-- The logical WAL in a call: the first sequence number it reserves and the stored
bytes of an entry, whose serialization or sealing may fail. -/
structure WalStage where
  firstLsn : Nat
  storedEntryBytes : Nat → WalOperation → Except Error Bytes

/-- The fields of a transaction that only its commit uses, with the outcomes of the
serializer and of the group fsync. -/
structure CommitContext where
  versioningEnabled : Bool
  conflictValidation : Bool
  keyManager : Option KeyManager
  hasRowCache : Bool
  wal : Option WalStage
  statementWal : Option (WalStage × List WalOperation)
  serializeCounter : RowId → Except String Bytes
  groupFsyncError : Option String

structure ConflictState where
  registry : WriteConflictRegistry
  ledger : InflightLedger

/-- How the building of the batch ends early: by `?` out of the function, or through
`abort_partial_commit`. -/
inductive BuildExit
  | escaped (error : Error)
  | aborted (error : Error)

def stageAll {α ε : Type} (stage : α → Except ε WriteBatch) : List α → Except ε WriteBatch
  | [] => .ok []
  | a::rest => do
    let first ← stage a
    let others ← stageAll stage rest
    .ok (first ++ others)

section
variable {α ε : Type} {stage : α → Except ε WriteBatch}

theorem stageAll_ok_iff (xs : List α) : (∃ batch, stageAll stage xs = .ok batch) ↔ ∀ x ∈ xs, ∃ batch, stage x = .ok batch := by
  induction xs with
  | nil => simp [stageAll]
  | cons x rest ih =>
    rw [forall_mem_cons,← ih]
    cases hx : stage x with
    | error e => simp [stageAll,hx,bind,Except.bind]
    | ok first =>
      cases hr : stageAll stage rest with
      | error e | ok others => simp [stageAll,hx,hr,bind,Except.bind]

theorem stageAll_error_iff (xs : List α) (e : ε) : stageAll stage xs = .error e ↔ ∃ before x after, xs = before ++ x::after ∧
      (∀ y ∈ before, ∃ batch, stage y = .ok batch) ∧ stage x = .error e := by
  induction xs with
  | nil => simp [stageAll]
  | cons x rest ih =>
    cases hx : stage x with
    | error e' =>
      simp only [stageAll,hx,bind,Except.bind,Except.error.injEq]
      constructor
      · rintro rfl
        exact ⟨[],x,rest,rfl,by simp,hx⟩
      · rintro ⟨before,y,after,hs,hbf,hy⟩
        cases before with
        | nil =>
          cases hs
          exact Except.error.inj (hx.symm.trans hy)
        | cons z before =>
          cases hs
          obtain ⟨batch,hb⟩ := hbf x mem_cons_self
          rw [hx] at hb
          cases hb
    | ok first =>
      have hst : stageAll stage (x::rest) = .error e ↔ stageAll stage rest = .error e := by
        cases hr : stageAll stage rest with
        | error e' | ok others => simp [stageAll,hx,hr,bind,Except.bind]
      rw [hst,ih]
      constructor
      · rintro ⟨before,y,after,rfl,hbf,hy⟩
        exact ⟨x::before,y,after,rfl,forall_mem_cons.mpr ⟨⟨first,hx⟩,hbf⟩,hy⟩
      · rintro ⟨before,y,after,hs,hbf,hy⟩
        cases before with
        | nil =>
          cases hs
          rw [hx] at hy
          cases hy
        | cons z before =>
          cases hs
          exact ⟨before,y,after,rfl,(forall_mem_cons.mp hbf).2,hy⟩

variable {x : α} {xs : List α} {batch : WriteBatch}

theorem stageAll_split {ys : List α}
    (h : stageAll stage (xs ++ x::ys) = .ok batch) : ∃ first own rest, stageAll stage xs = .ok first ∧
      stage x = .ok own ∧ stageAll stage ys = .ok rest ∧ batch = first ++ (own ++ rest) := by
  induction xs generalizing batch with
  | nil =>
    cases hx : stage x with
    | error e => simp [stageAll,hx,bind,Except.bind] at h
    | ok own =>
      cases hy : stageAll stage ys with
      | error e => simp [stageAll,hx,hy,bind,Except.bind] at h
      | ok rest =>
        simp only [nil_append,stageAll,hx,hy,bind,Except.bind,Except.ok.injEq] at h
        exact ⟨[],own,rest,rfl,rfl,rfl,h.symm⟩
  | cons y xs ih =>
    cases hy : stage y with
    | error e => simp [stageAll,hy,bind,Except.bind] at h
    | ok lead =>
      cases hr : stageAll stage (xs ++ x::ys) with
      | error e => simp [stageAll,hy,hr,bind,Except.bind] at h
      | ok others =>
        simp only [cons_append,stageAll,hy,hr,bind,Except.bind,Except.ok.injEq] at h
        obtain ⟨first,own,rest,hf,ho,hrest,rfl⟩ := ih hr
        exact ⟨lead ++ first,own,rest,by simp [stageAll,hy,hf,bind,Except.bind],ho,hrest,
          by rw [← h,append_assoc]⟩

theorem stageAll_forall {P : BatchOp Key Bytes → Prop}
    (hP : ∀ x ∈ xs, ∀ own, stage x = .ok own → ∀ op ∈ own, P op) (h : stageAll stage xs = .ok batch) : ∀ op ∈ batch, P op := by
  induction xs generalizing batch with
  | nil =>
    cases h
    simp
  | cons x xs ih =>
    obtain ⟨hx,hxs⟩ := forall_mem_cons.mp hP
    obtain ⟨first,own,rest,hf,ho,hrest,rfl⟩ := stageAll_split (show stageAll stage ([] ++ x::xs) = .ok batch from h)
    cases hf
    intro op hop
    rcases mem_append.mp hop with hop | hop
    · simp at hop
    · rcases mem_append.mp hop with hop | hop
      · exact hx own ho op hop
      · exact ih hxs hrest op hop

theorem mem_stageAll (h : stageAll stage xs = .ok batch) : ∀ op ∈ batch, ∃ x ∈ xs, ∃ own, stage x = .ok own ∧ op ∈ own :=
  stageAll_forall (P := fun op => ∃ x ∈ xs, ∃ own, stage x = .ok own ∧ op ∈ own) (fun x hx own ho _ hop => ⟨x,hx,own,ho,hop⟩) h

theorem stageAll_subset (h : stageAll stage xs = .ok batch) (hx : x ∈ xs) : ∃ own, stage x = .ok own ∧ own ⊆ batch := by
  obtain ⟨before,after,rfl⟩ := append_of_mem hx
  obtain ⟨first,own,rest,-,ho,-,rfl⟩ := stageAll_split h
  exact ⟨own,ho,fun op hop => mem_append_right _ (mem_append_left _ hop)⟩

end

namespace Transaction

/-- The version of a row: its copy unless elided, and its index event. -/
def putVersionIndexBatch (key : Key) (val : Bytes) (elide : Bool) (commitTs : Timestamp) : WriteBatch :=
  match versionedRow key with
  | none => []
  | some (table,row) =>
    (if elide then [] else [.put (versionLead ++ ((table ++ colon::row) ++ colon :: decimal commitTs)) val]) ++
      [.put (indexLead ++ ((table ++ colon::row) ++ colon :: reverseText commitTs))
        (encodeVersionIndexValue commitTs elide)]

def putVersionedBatch (keyManager : Option KeyManager) (key : Key) (val : Bytes) (versioningEnabled elide : Bool)
    (commitTs : Timestamp) : Except Error WriteBatch := do
  let stored ← sealRowValue keyManager key val
  .ok (.put key stored :: if versioningEnabled then putVersionIndexBatch key stored elide commitTs else [])

/-- The pre-images of a row that is about to be overwritten or deleted. -/
def materializeEntry (m : SnapshotManager) (db : Db) (checkCopyMarkers checkElided : Bool) (key : Key)
    (commitTs : Timestamp) : Except Error WriteBatch :=
  if checkCopyMarkers || checkElided then
    match parseRowKey key with
    | none => .ok []
    | some (table,row) => do
      let marker ← if checkCopyMarkers then m.materializeCopyMarkerRow db table row commitTs else .ok []
      let elided ← if checkElided then SnapshotManager.materializeElidedLatestVersion db table row else .ok []
      .ok (marker ++ elided)
  else .ok []

/-- The rows of the insert log that the write set does not replace. -/
def freshInserts (t : Transaction) : List (Key × Bytes) :=
  t.insertLog.filter fun entry => decide (entry.1 ∉ t.writeSet)

def stagedEntries (t : Transaction) : List (Key × Option Bytes) :=
  t.writeSet.entries.map fun entry => (entry.1,entry.2)

end Transaction

namespace CommitContext
variable (ctx : CommitContext) (m : SnapshotManager) (db : Db) (commitTs : Timestamp)

def checkCopyMarkers : Bool := ctx.versioningEnabled && !m.copyMarkers.isEmpty

def elide : Bool := ctx.versioningEnabled && m.elideLatestVersion

def checkElided : Bool := ctx.versioningEnabled && m.maybeElidedRows

def putRow (key : Key) (val : Bytes) : Except Error WriteBatch :=
  Transaction.putVersionedBatch ctx.keyManager key val ctx.versioningEnabled (ctx.elide m) commitTs

def preImages (key : Key) : Except Error WriteBatch :=
  Transaction.materializeEntry m db (ctx.checkCopyMarkers m) (ctx.checkElided m) key commitTs

/-- An insert whose value cannot be sealed aborts the commit. -/
def stageInsert (entry : Key × Bytes) : Except BuildExit WriteBatch :=
  (ctx.putRow m commitTs entry.1 entry.2).mapError .aborted

/-- A failed materialization leaves the function by `?`, a failed seal aborts. -/
def stageWrite (entry : Key × Option Bytes) : Except BuildExit WriteBatch := do
  let before ← (ctx.preImages m db commitTs entry.1).mapError .escaped
  match entry.2 with
  | some val => do
    let put ← (ctx.putRow m commitTs entry.1 val).mapError .aborted
    .ok (before ++ put)
  | none => .ok (before ++ [.delete entry.1])

def stageCounter (entry : String × RowId) : Except BuildExit WriteBatch :=
  match ctx.serializeCounter entry.2 with
  | .error message => .error (.aborted (.storage ("Failed to serialize counter: " ++ message)))
  | .ok value =>
    match sealStored ctx.keyManager (counterPrefix ++ textBytes entry.1) value with
    | .error error => .error (.aborted error)
    | .ok stored => .ok [.put (counterPrefix ++ textBytes entry.1) stored]

def buildBatch (t : Transaction) : Except BuildExit WriteBatch := do
  let inserts ← stageAll (ctx.stageInsert m commitTs) t.freshInserts
  let writes ← stageAll (ctx.stageWrite m db commitTs) t.stagedEntries
  let counters ← stageAll ctx.stageCounter (t.rowCounterStages.entries.map fun entry => (entry.1,entry.2))
  .ok (inserts ++ writes ++ counters)

end CommitContext

namespace Transaction

/-- Only rows under literal `data:` keys replicate. -/
def collectLogicalWalOps (t : Transaction) : List WalOperation :=
  (t.freshInserts.filterMap fun entry =>
    (parseDataKeyTable entry.1).map fun table => .insert table entry.1 entry.2) ++
  (t.stagedEntries.filterMap fun entry =>
    (parseDataKeyTable entry.1).map fun table =>
      match entry.2 with
      | some val => .update table entry.1 val
      | none => .delete table entry.1) ++
  t.rowCounterStages.entries.map fun entry => .updateCounter entry.1 entry.2

/-- The operations of the commit and of the statements it captured, with the log that
stages them. -/
def walPlan (ctx : CommitContext) (t : Transaction) : Option (WalStage × List WalOperation) :=
  let plan := ctx.wal.map fun wal => (wal,t.collectLogicalWalOps)
  match ctx.statementWal with
  | some (wal,captured) =>
    if captured.isEmpty then plan
    else match plan with
      | some (planned,ops) => some (planned,ops ++ captured)
      | none => some (wal,captured)
  | none => plan

end Transaction

/-- Entries are sealed one by one before the batch is touched. -/
def WalStage.stage (wal : WalStage) (ops : List WalOperation) : Except Error WriteBatch := do
  if ops.isEmpty then .ok []
  else
    let entries ← stageAll (fun (entry : WalOperation × Nat) => do
      let bytes ← wal.storedEntryBytes entry.2 entry.1
      .ok [.put (walEntriesPrefix ++ padded 20 entry.2) bytes]) (ops.zipIdx wal.firstLsn)
    .ok (entries ++ [.put walLastLsnKey (beBytes 8 (wal.firstLsn+ops.length-1)).reverse])

/-- What a commit leaves behind. The transaction itself is consumed. -/
structure CommitOutcome where
  state : TransactionState
  locks : LockManager
  conflict : Option ConflictState
  db : Db
  invalidated : List (Bytes × RowId)
  result : Except Error Unit

namespace Transaction

def hasTrackedWrites (t : Transaction) (conflict : Option ConflictState) : Bool :=
  conflict.isSome && !t.writeSet.keys.isEmpty

def endInflight (inflight : Bool) (commitTs : Timestamp) (conflict : Option ConflictState) :
    Option ConflictState :=
  if inflight then conflict.map fun c => { c with ledger := c.ledger.endCommit commitTs } else conflict

def serializationFailure (t : Transaction) (conflict : Key × Timestamp) : Error :=
  .transaction ("serialization failure: write-write conflict on key '" ++ fromUtf8Lossy conflict.1 ++
    "' (committed at ts " ++ toString conflict.2 ++ ", transaction snapshot ts " ++ toString t.snapshotTs ++
    "); retry the transaction")

/-- `validate_and_record` on the registry, when there is one. -/
def validate (ctx : CommitContext) (t : Transaction) (conflict : Option ConflictState) (commitTs : Timestamp) :
    Option ConflictState × Option (Key × Timestamp) :=
  match conflict with
  | none => (none,none)
  | some c =>
    match c.registry.validateAndRecord t.writeSet ctx.conflictValidation t.snapshotTs commitTs with
    | (registry,.ok ()) => (some { c with registry := registry },none)
    | (registry,.error key) => (some { c with registry := registry },some key)

def applyBatch (ctx : CommitContext) (t : Transaction) (db : Db) (batch : WriteBatch) (inflight : Bool)
    (commitTs : Timestamp) (conflict : Option ConflictState) (locks : LockManager) : CommitOutcome :=
  let conflict := endInflight inflight commitTs conflict
  match db.write batch with
  | .error message => ⟨.aborted,locks,conflict,db,[],.error (.transaction ("Commit failed: " ++ message))⟩
  | .ok db =>
    let invalidated := if ctx.hasRowCache then t.stagedEntries.filterMap fun entry => parseRowKey entry.1 else []
    match ctx.groupFsyncError with
    | some message =>
      ⟨.committed,locks,conflict,db,invalidated,
        .error (.transaction ("Commit failed: WAL group fsync failed: " ++ message))⟩
    | none => ⟨.committed,locks,conflict,db,invalidated,.ok ()⟩

/-- The commit of a transaction. Its guards are dropped with it on every path. -/
def commitWithTimestamp (ctx : CommitContext) (m : SnapshotManager) (db : Db) (conflict : Option ConflictState)
    (locks : LockManager) (t : Transaction) (commitTs : Timestamp) : CommitOutcome :=
  let locks := dropLocks t.acquiredLocks locks
  if t.state ≠ .active then ⟨t.state,locks,conflict,db,[],.error notActive⟩
  else
    let inflight := t.hasTrackedWrites conflict
    match t.validate ctx conflict commitTs with
    | (conflict,some key) =>
      ⟨.aborted,locks,endInflight inflight commitTs conflict,db,[],.error (t.serializationFailure key)⟩
    | (conflict,none) =>
      match ctx.buildBatch m db commitTs t with
      | .error (.escaped error) => ⟨.committed,locks,conflict,db,[],.error error⟩
      | .error (.aborted error) =>
        ⟨.aborted,locks,endInflight inflight commitTs conflict,db,[],.error error⟩
      | .ok batch =>
        match t.walPlan ctx with
        | none => t.applyBatch ctx db batch inflight commitTs conflict locks
        | some (wal,ops) =>
          match wal.stage ops with
          | .error error =>
            ⟨.aborted,locks,endInflight inflight commitTs conflict,db,[],
              .error (.transaction ("Commit failed: logical WAL staging failed: " ++ error.display))⟩
          | .ok entries => t.applyBatch ctx db (batch ++ entries) inflight commitTs conflict locks

end Transaction
end HeliosNano.Storage
