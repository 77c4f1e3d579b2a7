import HeliosNano.Foundation.Decimal
import HeliosNano.Sync.Conflict

namespace HeliosNano.Sync.DeltaApplicator
open Foundation Storage List Function Option

inductive Operation
  | insert
  | update (columns : List String)
  | delete

structure ChangeEntry where
  lsn : Nat
  table : String
  operation : Operation
  row_id : Bytes
  data : Bytes
  vector_clock : VectorClock
  checksum : Nat
  node_id : Uuid

/-- Errors of the applicator itself, and texts that the storage engine answers. -/
inductive DeltaError
  | storage (message : String)
  | engine (text : String)

def DeltaError.display : DeltaError → String
  | storage message => "Storage error: " ++ message
  | engine text => text

structure DeltaStats where
  applied_count : Nat
  conflict_count : Nat
  rollback_count : Nat
  last_applied_lsn : Nat
  skipped_count : Nat

inductive ApplyResult
  | applied (lsn : Nat)
  | conflict (report : ConflictReport)
  | skipped (reason : String)

structure BatchApplyResult where
  applied : List Nat
  conflicts : List ConflictReport
  failed : List (Nat × String)
  total : Nat

/-- The applied LSNs, as they are stored and in the cache in front of them. -/
structure AppliedLSNTracker where
  db : Finset Nat
  cache : Finset Nat

namespace AppliedLSNTracker

def new (db : Finset Nat) : AppliedLSNTracker := ⟨db,db⟩

def markApplied (tracker : AppliedLSNTracker) (lsn : Nat) : AppliedLSNTracker :=
  ⟨insert lsn tracker.db,insert lsn tracker.cache⟩

def isApplied (tracker : AppliedLSNTracker) (lsn : Nat) : Bool := lsn ∈ tracker.cache

end AppliedLSNTracker

/-- The identifier and the times that one conflict check draws. -/
structure Moment where
  conflict : Uuid
  local_time : Int
  remote_time : Int
  detected_at : Int
  resolved_at : Int

/-- What the applicator calls: the hash and the coding of rows, the schemas, the integer keys of a new row (the largest one
it names, and the `NULL` ones filled from the row id) and the claim of its PRIMARY KEY and UNIQUE index entries. -/
structure Engine (Schema Indexes Tuple : Type) where
  hash : Bytes → Nat
  decode : Bytes → Except String Tuple
  encode : Tuple → Bytes
  schema : String → Except String Schema
  explicitKey : Schema → Tuple → Nat
  fillKeys : Schema → Nat → Tuple → Except String Tuple
  claim : Indexes → String → Nat → Schema → Tuple → Except String Indexes
  display : Display
  moment : Nat → Moment

/-- The stored rows by table and row id, the volatile row counters, the indexes, and the applicator. `moments` counts the
conflict checks. -/
structure State (Indexes Tuple : Type) where
  rows : String × Nat → Option Tuple
  row_counters : String → Nat
  indexes : Indexes
  conflict_detector : ConflictDetector
  stats : DeltaStats
  lsn_tracker : AppliedLSNTracker
  node_id : Uuid
  row_clocks : String × Bytes → Option VectorClock
  moments : Nat

section
variable {Schema Indexes Tuple : Type} (x : Engine Schema Indexes Tuple) (s : State Indexes Tuple)
  (change : ChangeEntry)

def ChangeEntry.verifyChecksum : Bool := x.hash change.data % 2^32 == change.checksum

def rowIdToU64 (row_id : Bytes) : Except DeltaError Nat :=
  match row_id with
  | [b] => .ok b.val
  | _ =>
    if row_id.length = 8 then .ok (beValue row_id)
    else
      match parseUnsigned u64Max row_id with
      | some id => .ok id
      | none => .error (.storage "Failed to parse row ID")

variable (table : String) (changes : List ChangeEntry)

def rowExists (row_id : Bytes) : Except DeltaError Bool := do
  let id ← rowIdToU64 row_id
  return (s.rows (table,id)).isSome

def getTuple (row_id : Bytes) : Except DeltaError (Option Bytes) := do
  let id ← rowIdToU64 row_id
  return (s.rows (table,id)).map x.encode

def nextRowId : Nat := s.row_counters table + 1

/-- `insert_tuple` on the main branch, with time travel on as by default. The engine chooses the row id, and the id stays
taken when the row is refused. -/
def insertTuple (tuple : Tuple) : State Indexes Tuple × Except DeltaError Nat :=
  match x.schema table with
  | .error e => (s,.error (.engine e))
  | .ok schema =>
    let row_id := nextRowId s table
    let s := { s with row_counters := Function.update s.row_counters table (max row_id (x.explicitKey schema tuple)) }
    match x.fillKeys schema row_id tuple with
    | .error e => (s,.error (.engine e))
    | .ok tuple =>
      match x.claim s.indexes table row_id schema tuple with
      | .error e => (s,.error (.engine e))
      | .ok indexes =>
        ({ s with indexes := indexes, rows := Function.update s.rows (table,row_id) (some tuple) },.ok row_id)

def applyInsert : State Indexes Tuple × Except DeltaError Unit :=
  match rowExists s change.table change.row_id with
  | .error e => (s,.error e)
  | .ok true => (s,.error (.storage s!"INSERT conflict: row already exists in table {change.table}"))
  | .ok false =>
    match x.decode change.data with
    | .error e => (s,.error (.storage s!"Failed to deserialize tuple: {e}"))
    | .ok tuple =>
      match insertTuple x s change.table tuple with
      | (s,.error e) => (s,.error e)
      | (s,.ok _) =>
        let clock := change.vector_clock.increment s.node_id
        ({ s with row_clocks := Function.update s.row_clocks (change.table,change.row_id) (some clock) },.ok ())

/-- An update must not happen before the clock of its row, nor be concurrent with it. -/
def checkClock : Except DeltaError Unit :=
  match s.row_clocks (change.table,change.row_id) with
  | none => .ok ()
  | some local_clock =>
    if change.vector_clock.happensBefore local_clock then
      .error (.storage s!"UPDATE conflict: stale update for row in table {change.table}")
    else if change.vector_clock.conflictsWith local_clock then
      .error (.storage s!"UPDATE conflict: concurrent modification in table {change.table}")
    else .ok ()

/-- The new tuple goes through `insert_tuple` as well. -/
def applyUpdate : State Indexes Tuple × Except DeltaError Unit :=
  match rowExists s change.table change.row_id with
  | .error e => (s,.error e)
  | .ok false => (s,.error (.storage s!"UPDATE conflict: row does not exist in table {change.table}"))
  | .ok true =>
    match checkClock s change with
    | .error e => (s,.error e)
    | .ok () =>
      match x.decode change.data with
      | .error e => (s,.error (.storage s!"Failed to deserialize tuple: {e}"))
      | .ok tuple =>
        match rowIdToU64 change.row_id with
        | .error e => (s,.error e)
        | .ok _ =>
          match insertTuple x s change.table tuple with
          | (s,.error e) => (s,.error e)
          | (s,.ok _) =>
            let key := (change.table,change.row_id)
            let clock := (((s.row_clocks key).getD .new).merge change.vector_clock).increment s.node_id
            ({ s with row_clocks := Function.update s.row_clocks key (some clock) },.ok ())

/-- The row key goes; the index entries and the clock of the row stay. -/
def applyDelete : State Indexes Tuple × Except DeltaError Unit :=
  match rowIdToU64 change.row_id with
  | .error e => (s,.error e)
  | .ok row_id => ({ s with rows := Function.update s.rows (change.table,row_id) none },.ok ())

def Operation.toChangeOperation : Operation → ChangeOperation
  | insert => .insert
  | update _ => .update
  | delete => .delete

/-- The local version stands as an update, whatever wrote it. -/
def detectConflict : State Indexes Tuple × Option ConflictReport :=
  match (getTuple x s change.table change.row_id).toOption.join with
  | none => (s,none)
  | some local_bytes =>
    let moment := x.moment s.moments
    let s := { s with moments := s.moments+1 }
    let local_clock := (s.row_clocks (change.table,change.row_id)).getD .new
    let local_entry : ConflictChangeEntry := ⟨local_bytes,moment.local_time,s.node_id,local_clock,.update⟩
    let remote_entry : ConflictChangeEntry :=
      ⟨change.data,moment.remote_time,change.node_id,change.vector_clock,change.operation.toChangeOperation⟩
    match detect moment.conflict moment.detected_at change.table change.row_id local_entry remote_entry with
    | none => (s,none)
    | some conflict =>
      match s.conflict_detector.resolve x.display moment.resolved_at conflict with
      | .error _ => (s,none)
      | .ok (report,detector) => ({ s with conflict_detector := detector },some report)

def applyOperation : State Indexes Tuple × Except DeltaError Unit :=
  match change.operation with
  | .insert => applyInsert x s change
  | .update _ => applyUpdate x s change
  | .delete => applyDelete s change

def applyChange : State Indexes Tuple × Except DeltaError ApplyResult :=
  if !change.verifyChecksum x then (s,.ok (.skipped "Checksum verification failed"))
  else if s.lsn_tracker.isApplied change.lsn then (s,.ok (.skipped s!"LSN {change.lsn} already applied"))
  else
    match applyOperation x s change with
    | (s,.ok ()) =>
      let stats := { s.stats with applied_count := s.stats.applied_count+1, last_applied_lsn := change.lsn }
      ({ s with lsn_tracker := s.lsn_tracker.markApplied change.lsn, stats := stats },.ok (.applied change.lsn))
    | (s,.error e) =>
      match detectConflict x s change with
      | (s,some report) =>
        ({ s with stats := { s.stats with conflict_count := s.stats.conflict_count+1 } },.ok (.conflict report))
      | (s,none) => (s,.error e)

/-- `apply_change_in_transaction` does not use its transaction. -/
def applyChangeInTransaction : State Indexes Tuple × Except DeltaError ApplyResult := applyChange x s change

/-- The loop over a sorted batch, up to the first error. -/
def applyAll : State Indexes Tuple → BatchApplyResult → List ChangeEntry → State Indexes Tuple × BatchApplyResult
  | s, result, [] => (s,result)
  | s, result, change::rest =>
    match applyChangeInTransaction x s change with
    | (s,.ok (.applied lsn)) => applyAll s { result with applied := result.applied ++ [lsn] } rest
    | (s,.ok (.conflict report)) => applyAll s { result with conflicts := result.conflicts ++ [report] } rest
    | (s,.ok (.skipped _)) => applyAll s result rest
    | (s,.error e) => (s,{ result with failed := result.failed ++ [(change.lsn,e.display)] })

def sortByLsn : List ChangeEntry :=
  changes.insertionSort fun change change' => change.lsn ≤ change'.lsn

/-- Nothing is written through the transaction, so its commit and its rollback leave the store as it is. -/
def applyBatch : State Indexes Tuple × BatchApplyResult :=
  let (s,result) := applyAll x s ⟨[],[],[],changes.length⟩ (sortByLsn changes)
  if result.failed.isEmpty then (s,result)
  else ({ s with stats := { s.stats with rollback_count := s.stats.rollback_count+1 } },result)

structure Data (Tuple : Type) where
  rows : String × Nat → Option Tuple
  lsn_tracker : AppliedLSNTracker
  row_clocks : String × Bytes → Option VectorClock

def State.data : Data Tuple := ⟨s.rows,s.lsn_tracker,s.row_clocks⟩

/-- An INSERT adds its row id, an UPDATE replaces the row of its row id, a DELETE removes it. -/
def keyedApply (rows : String × Nat → Option Tuple) : String × Nat → Option Tuple :=
  match rowIdToU64 change.row_id with
  | .error _ => rows
  | .ok row_id =>
    match change.operation, x.decode change.data with
    | .delete, _ => Function.update rows (change.table,row_id) none
    | _, .ok tuple => Function.update rows (change.table,row_id) (some tuple)
    | _, .error _ => rows

def accepted : State Indexes Tuple → List ChangeEntry → List ChangeEntry
  | _, [] => []
  | s, change::rest =>
    match applyChange x s change with
    | (s,.ok (.applied _)) => change :: accepted s rest
    | (s,.ok _) => accepted s rest
    | (_,.error _) => []

/-- A batch with a failed entry leaves the data as before. Any other one leaves the rows of the keyed map, and when it
comes again it changes nothing. -/
def AllOrNothing : Prop :=
  if (applyBatch x s changes).2.failed = [] then
    (applyBatch x s changes).1.rows =
        (accepted x s (sortByLsn changes)).foldl (fun rows change => keyedApply x change rows) s.rows ∧
      (applyBatch x (applyBatch x s changes).1 changes).1.data = (applyBatch x s changes).1.data
  else (applyBatch x s changes).1.data = s.data

def Stores (stored : Tuple) : Prop :=
  ∃ tuple schema indexes, x.decode change.data = .ok tuple ∧ x.schema change.table = .ok schema ∧
    x.fillKeys schema (nextRowId s change.table) tuple = .ok stored ∧
    x.claim s.indexes change.table (nextRowId s change.table) schema stored = .ok indexes

def Skips : Prop := change.verifyChecksum x = false ∨ s.lsn_tracker.isApplied change.lsn = true

/-- A change that goes through when it is not skipped. -/
def Admits : Prop :=
  ∃ row_id, rowIdToU64 change.row_id = .ok row_id ∧
    match change.operation with
    | .insert => s.rows (change.table,row_id) = none ∧ ∃ stored, Stores x s change stored
    | .update _ => (s.rows (change.table,row_id)).isSome ∧ (∃ stored, Stores x s change stored) ∧
        ∀ clock, s.row_clocks (change.table,change.row_id) = some clock → change.vector_clock.happensBefore clock = false ∧
          change.vector_clock.conflictsWith clock = false
    | .delete => True

/-- A refused change that is reported as a conflict, with no error: its row exists, and the clocks are not ordered. -/
def Reports : Prop :=
  ∃ row_id, rowIdToU64 change.row_id = .ok row_id ∧ (s.rows (change.table,row_id)).isSome ∧
    isConcurrent ((s.row_clocks (change.table,change.row_id)).getD .new) change.vector_clock = true ∧
    (conflictType? .update change.operation.toChangeOperation).isSome ∧
    s.conflict_detector.resolution_strategy ≠ .manual

/-- The row that is stored is the row of the change, under its row id, or two rows are rewritten with what they hold. -/
def WellPlaced : Prop :=
  match change.operation with
  | .delete => True
  | _ => ∀ row_id tuple stored, rowIdToU64 change.row_id = .ok row_id → x.decode change.data = .ok tuple →
      Stores x s change stored → (nextRowId s change.table = row_id ∧ stored = tuple) ∨
        (nextRowId s change.table ≠ row_id ∧ s.rows (change.table,nextRowId s change.table) = some stored ∧
          s.rows (change.table,row_id) = some tuple)

/-- None of the changes would be applied, up to the first one that is an error. -/
def Quiet : State Indexes Tuple → List ChangeEntry → Prop
  | _, [] => True
  | s, change::rest =>
    (Skips x s change → Quiet (applyChange x s change).1 rest) ∧
    (¬Skips x s change → ¬Admits x s change ∧ (Reports s change → Quiet (applyChange x s change).1 rest))

/-- The changes still to come of a sorted batch, after those seen: an error comes only as long as nothing was applied, a
change that is applied is well placed, and what was seen stays quiet. -/
inductive Faithful : State Indexes Tuple → List ChangeEntry → Bool → List ChangeEntry → Prop
  | nil {s seen started} : Faithful s seen started []
  | skipped {s seen started change rest} (hskips : Skips x s change)
      (hrest : Faithful (applyChange x s change).1 (seen ++ [change]) started rest) :
      Faithful s seen started (change::rest)
  | applied {s seen started change rest} (hnew : ¬Skips x s change) (hadmits : Admits x s change)
      (hplaced : WellPlaced x s change) (hquiet : Quiet x (applyChange x s change).1 (seen ++ [change]))
      (hrest : Faithful (applyChange x s change).1 (seen ++ [change]) true rest) :
      Faithful s seen started (change::rest)
  | reported {s seen started change rest} (hnew : ¬Skips x s change) (hrefused : ¬Admits x s change)
      (hreports : Reports s change) (hquiet : Quiet x (applyChange x s change).1 (seen ++ [change]))
      (hrest : Faithful (applyChange x s change).1 (seen ++ [change]) started rest) :
      Faithful s seen started (change::rest)
  | refused {s seen change rest} (hnew : ¬Skips x s change) (hrefused : ¬Admits x s change)
      (hsilent : ¬Reports s change) : Faithful s seen false (change::rest)

end

variable {Schema Indexes Tuple : Type} {x : Engine Schema Indexes Tuple} {s s' : State Indexes Tuple}
  {change : ChangeEntry}

theorem insertTuple_cases (table : String) (tuple : Tuple) : (∃ schema stored indexes counters, x.schema table = .ok schema ∧
      x.fillKeys schema (nextRowId s table) tuple = .ok stored ∧
      x.claim s.indexes table (nextRowId s table) schema stored = .ok indexes ∧
      insertTuple x s table tuple =
        ({ s with
            row_counters := counters
            indexes := indexes
            rows := Function.update s.rows (table,nextRowId s table) (some stored) },.ok (nextRowId s table))) ∨
    ((∀ schema stored indexes, x.schema table = .ok schema → x.fillKeys schema (nextRowId s table) tuple = .ok stored →
        x.claim s.indexes table (nextRowId s table) schema stored ≠ .ok indexes) ∧
      ∃ counters e, insertTuple x s table tuple = ({ s with row_counters := counters },.error e)) := by
  rw [insertTuple]
  cases hs : x.schema table with
  | error e => exact .inr ⟨fun _ _ _ h => (nomatch h),s.row_counters,_,rfl⟩
  | ok schema =>
    simp only
    cases hf : x.fillKeys schema (nextRowId s table) tuple with
    | error e =>
      refine .inr ⟨?_,_,_,rfl⟩
      rintro _ _ _ ⟨⟩ h
      rw [hf] at h
      cases h
    | ok stored =>
      simp only
      cases hc : x.claim s.indexes table (nextRowId s table) schema stored with
      | error e =>
        refine .inr ⟨?_,_,_,rfl⟩
        rintro _ _ _ ⟨⟩ h
        rw [hf] at h
        cases h
        simp [hc]
      | ok indexes => exact .inl ⟨schema,stored,indexes,_,rfl,hf,hc,rfl⟩

/-- What the rows become when a change goes through. -/
def Places (x : Engine Schema Indexes Tuple) (s : State Indexes Tuple) (change : ChangeEntry)
    (rows : String × Nat → Option Tuple) : Prop :=
  ∃ row_id, rowIdToU64 change.row_id = .ok row_id ∧
    match change.operation with
    | .delete => rows = Function.update s.rows (change.table,row_id) none
    | _ => ∃ stored, Stores x s change stored ∧
        rows = Function.update s.rows (change.table,nextRowId s change.table) (some stored)

/-- An operation either goes through as admitted, or it is an error that moves no more than a row counter. -/
def Outcome (x : Engine Schema Indexes Tuple) (s : State Indexes Tuple) (change : ChangeEntry)
    (result : State Indexes Tuple × Except DeltaError Unit) : Prop :=
  (Admits x s change ∧ Places x s change result.1.rows ∧ result.1.lsn_tracker = s.lsn_tracker ∧ result.2 = .ok ()) ∨
    (¬Admits x s change ∧ ∃ counters e, result = ({ s with row_counters := counters },.error e))

variable {e : DeltaError} {tuple : Tuple} {row_id : Nat} {result' : ApplyResult} {α : Type} {stored : Tuple}
  {seen : List ChangeEntry} {s₀ : State Indexes Tuple} {applied : List ChangeEntry}

theorem Outcome.early (h : ¬Admits x s change) : Outcome x s change (s,.error e) :=
  .inr ⟨h,s.row_counters,e,rfl⟩

theorem rowExists_eq {table : String} {row_id : Bytes} {id : Nat} (hid : rowIdToU64 row_id = .ok id) :
    rowExists s table row_id = .ok (s.rows (table,id)).isSome := by
  rw [rowExists,hid]
  rfl

theorem insertTuple_stores (hd : x.decode change.data = .ok tuple) : (∃ stored indexes counters, Stores x s change stored ∧
      insertTuple x s change.table tuple =
        ({ s with
            row_counters := counters
            indexes := indexes
            rows := Function.update s.rows (change.table,nextRowId s change.table) (some stored) },
          .ok (nextRowId s change.table))) ∨
    ((¬∃ stored, Stores x s change stored) ∧
      ∃ counters e, insertTuple x s change.table tuple = ({ s with row_counters := counters },.error e)) := by
  rcases @insertTuple_cases _ _ _ x s change.table tuple with
    ⟨schema,stored,indexes,counters,hs,hf,hc,hi⟩ | ⟨hn,counters,e,hi⟩
  · exact .inl ⟨stored,indexes,counters,⟨tuple,schema,indexes,hd,hs,hf,hc⟩,hi⟩
  refine .inr ⟨?_,counters,e,hi⟩
  rintro ⟨stored,tuple',schema,indexes,hd',hs,hf,hc⟩
  rw [hd] at hd'
  cases hd'
  exact hn schema stored indexes hs hf hc

theorem not_stores_of_decode {e : String} (hd : x.decode change.data = .error e) : ¬∃ stored, Stores x s change stored := by
  rintro ⟨stored,tuple,schema,indexes,htp,-⟩
  rw [hd] at htp
  cases htp

theorem applyInsert_outcome (hop : change.operation = .insert) : Outcome x s change (applyInsert x s change) := by
  rw [applyInsert]
  cases hid : rowIdToU64 change.row_id with
  | error e =>
    rw [rowExists,hid]
    refine .early ?_
    rintro ⟨row_id,h,-⟩
    rw [hid] at h
    cases h
  | ok row_id =>
    rw [rowExists_eq hid]
    have ha : Admits x s change ↔ s.rows (change.table,row_id) = none ∧ ∃ stored, Stores x s change stored := by
      simp [Admits,hid,hop]
    cases hr : s.rows (change.table,row_id) with
    | some tuple =>
      refine .early ?_
      simp [ha,hr]
    | none =>
      simp only [isSome_none]
      cases hd : x.decode change.data with
      | error e =>
        refine .early ?_
        rw [ha]
        exact fun h => not_stores_of_decode hd h.2
      | ok tuple =>
        simp only
        rcases insertTuple_stores hd with ⟨stored,indexes,counters,hs,hi⟩ | ⟨hn,counters,e,hi⟩
        · rw [hi]
          refine .inl ⟨ha.mpr ⟨hr,stored,hs⟩,⟨row_id,hid,?_⟩,rfl,rfl⟩
          rw [hop]
          exact ⟨stored,hs,rfl⟩
        · rw [hi]
          refine .inr ⟨?_,counters,e,rfl⟩
          rw [ha]
          exact fun h => hn h.2

theorem checkClock_eq_ok : checkClock s change = .ok () ↔ ∀ clock,
    s.row_clocks (change.table,change.row_id) = some clock → change.vector_clock.happensBefore clock = false ∧
      change.vector_clock.conflictsWith clock = false := by
  rw [checkClock]
  cases s.row_clocks (change.table,change.row_id) with
  | none => simp
  | some clock =>
    simp only [some.injEq,forall_eq']
    cases change.vector_clock.happensBefore clock with
    | true => simp
    | false => cases change.vector_clock.conflictsWith clock <;> simp

theorem applyUpdate_outcome {columns : List String} (hop : change.operation = .update columns) :
    Outcome x s change (applyUpdate x s change) := by
  rw [applyUpdate]
  cases hid : rowIdToU64 change.row_id with
  | error e =>
    rw [rowExists,hid]
    refine .early ?_
    rintro ⟨row_id,h,-⟩
    rw [hid] at h
    cases h
  | ok row_id =>
    rw [rowExists_eq hid]
    have ha : Admits x s change ↔ (s.rows (change.table,row_id)).isSome ∧ (∃ stored, Stores x s change stored) ∧
        checkClock s change = .ok () := by
      rw [checkClock_eq_ok]
      simp [Admits,hid,hop]
    cases hr : s.rows (change.table,row_id) with
    | none =>
      refine .early ?_
      simp [ha,hr]
    | some current =>
      simp only [isSome_some]
      cases hc : checkClock s change with
      | error e =>
        refine .early ?_
        simp [ha,hc]
      | ok _ =>
        simp only
        cases hd : x.decode change.data with
        | error e =>
          refine .early ?_
          rw [ha]
          exact fun h => not_stores_of_decode hd h.2.1
        | ok tuple =>
          simp only
          rcases insertTuple_stores hd with
            ⟨stored,indexes,counters,hs,hi⟩ | ⟨hn,counters,e,hi⟩
          · rw [hi]
            refine .inl ⟨ha.mpr ⟨by rw [hr]; rfl,⟨stored,hs⟩,hc⟩,⟨row_id,hid,?_⟩,rfl,rfl⟩
            rw [hop]
            exact ⟨stored,hs,rfl⟩
          · rw [hi]
            refine .inr ⟨?_,counters,e,rfl⟩
            rw [ha]
            exact fun h => hn h.2.1

theorem applyDelete_outcome (hop : change.operation = .delete) : Outcome x s change (applyDelete s change) := by
  rw [applyDelete]
  cases hid : rowIdToU64 change.row_id with
  | error e =>
    refine .early ?_
    rintro ⟨row_id,h,-⟩
    rw [hid] at h
    cases h
  | ok row_id =>
    refine .inl ⟨⟨row_id,hid,by rw [hop]; trivial⟩,⟨row_id,hid,?_⟩,rfl,rfl⟩
    rw [hop]

theorem applyOperation_outcome : Outcome x s change (applyOperation x s change) := by
  rw [applyOperation]
  cases hop : change.operation with
  | insert => exact applyInsert_outcome hop
  | update columns => exact applyUpdate_outcome hop
  | delete => exact applyDelete_outcome hop

theorem getTuple_eq (hid : rowIdToU64 change.row_id = .ok row_id) :
    getTuple x s change.table change.row_id = .ok ((s.rows (change.table,row_id)).map x.encode) := by
  rw [getTuple,hid]
  rfl

theorem resolve_cases (display : Display) (now : Int) (d : ConflictDetector) (conflict : Conflict) :
    (d.resolution_strategy = .manual ∧ ∃ e, d.resolve display now conflict = .error e) ∨
      (d.resolution_strategy ≠ .manual ∧ ∃ report d', d.resolve display now conflict = .ok (report,d')) := by
  rw [ConflictDetector.resolve]
  cases hs : d.resolution_strategy with
  | lastWriteWins | vectorClockCausal => exact .inr ⟨by simp,_,_,rfl⟩
  | manual => exact .inl ⟨rfl,_,rfl⟩

theorem detectConflict_spec : (detectConflict x s change).1.data = s.data ∧
    ((detectConflict x s change).2.isSome ↔ Reports s change) := by
  rw [detectConflict]
  cases hid : rowIdToU64 change.row_id with
  | error e =>
    have hg : (getTuple x s change.table change.row_id).toOption.join = none := by
      rw [getTuple,hid]
      rfl
    rw [hg]
    exact ⟨rfl,by simp [Reports,hid]⟩
  | ok row_id =>
    rw [getTuple_eq hid]
    cases hrw : s.rows (change.table,row_id) with
    | none => exact ⟨rfl,by simp [Reports,hid,hrw,Except.toOption]⟩
    | some tuple =>
      have hrp : Reports s change ↔
          (isConcurrent ((s.row_clocks (change.table,change.row_id)).getD .new) change.vector_clock &&
            (conflictType? .update change.operation.toChangeOperation).isSome) = true ∧
          s.conflict_detector.resolution_strategy ≠ .manual := by
        simp [Reports,hid,hrw,and_assoc]
      simp only [map_some,Except.toOption,join_some]
      generalize hl : ConflictChangeEntry.mk (x.encode tuple) _ _ _ _ = local_entry
      generalize hrm : ConflictChangeEntry.mk change.data _ _ _ _ = remote_entry
      have hd := @detect_isSome (x.moment s.moments).conflict (x.moment s.moments).detected_at change.table
        change.row_id local_entry remote_entry
      have hr' : Reports s change ↔ (detect (x.moment s.moments).conflict (x.moment s.moments).detected_at
          change.table change.row_id local_entry remote_entry).isSome = true ∧
          s.conflict_detector.resolution_strategy ≠ .manual := by
        rw [hrp,hd,← hl,← hrm]
      rw [hr']
      cases hf : detect (x.moment s.moments).conflict (x.moment s.moments).detected_at change.table change.row_id
          local_entry remote_entry with
      | none => exact ⟨rfl,by simp⟩
      | some conflict =>
        simp only
        rcases resolve_cases x.display (x.moment s.moments).resolved_at s.conflict_detector conflict with
          ⟨hm,e,hr⟩ | ⟨ha,report,detector,hr⟩
        · rw [hr]
          exact ⟨rfl,by simp [hm]⟩
        · rw [hr]
          exact ⟨rfl,by simp [ha]⟩

/-- What applying one change comes to. -/
inductive Step (x : Engine Schema Indexes Tuple) (s : State Indexes Tuple) (change : ChangeEntry)
    (s' : State Indexes Tuple) : Except DeltaError ApplyResult → Prop
  | skipped (hskips : Skips x s change) (hsame : s' = s) (reason : String) : Step x s change s' (.ok (.skipped reason))
  | applied (hnew : ¬Skips x s change) (hadmits : Admits x s change) (hplaces : Places x s change s'.rows)
      (htracker : s'.lsn_tracker = s.lsn_tracker.markApplied change.lsn) : Step x s change s' (.ok (.applied change.lsn))
  | reported (hnew : ¬Skips x s change) (hrefused : ¬Admits x s change) (hreports : Reports s change)
      (hdata : s'.data = s.data) (report : ConflictReport) : Step x s change s' (.ok (.conflict report))
  | refused (hnew : ¬Skips x s change) (hrefused : ¬Admits x s change) (hsilent : ¬Reports s change)
      (hdata : s'.data = s.data) (e : DeltaError) : Step x s change s' (.error e)

theorem applyChange_step : Step x s change (applyChange x s change).1 (applyChange x s change).2 := by
  rw [applyChange]
  cases hc : change.verifyChecksum x with
  | false => exact .skipped (.inl hc) rfl _
  | true =>
    cases ha : s.lsn_tracker.isApplied change.lsn with
    | true => exact .skipped (.inr ha) rfl _
    | false =>
      have hnew : ¬Skips x s change := by simp [Skips,hc,ha]
      simp only [Bool.not_true,Bool.false_eq_true,if_false]
      rcases @applyOperation_outcome _ _ _ x s change with ⟨had,hp,htr,hok⟩ | ⟨hr,counters,e,hrn⟩
      · generalize applyOperation x s change = result at hp htr hok
        obtain ⟨s₁,outcome⟩ := result
        simp only at hp htr hok
        subst hok
        exact .applied hnew had hp (by rw [← htr])
      · rw [hrn]
        simp only
        have hs := @detectConflict_spec _ _ _ x { s with row_counters := counters } change
        generalize detectConflict x { s with row_counters := counters } change = checked at hs
        obtain ⟨s₁,report⟩ := checked
        cases report with
        | none => exact .refused hnew hr (fun h => absurd (hs.2.mpr h) (by simp)) hs.1 e
        | some report =>
          refine .reported hnew hr (hs.2.mp rfl) ?_ report
          exact hs.1

theorem lsn_tracker_of_data (hdata : s'.data = s.data) : s'.lsn_tracker = s.lsn_tracker :=
  congrArg Data.lsn_tracker hdata

theorem rows_of_data (hdata : s'.data = s.data) : s'.rows = s.rows := congrArg Data.rows hdata

section
variable {outcome : Except DeltaError ApplyResult} (h : Step x s change s' outcome)
include h

theorem Step.cache_subset : s.lsn_tracker.cache ⊆ s'.lsn_tracker.cache := by
  cases h with
  | skipped hsk hsame reason => rw [hsame]
  | applied hnew ha hp htr =>
    rw [htr]
    exact Finset.subset_insert _ _
  | reported hnew hr hrp hdata report | refused hnew hr hs hdata e => rw [lsn_tracker_of_data hdata]

theorem Step.skips {other : ChangeEntry} (hs : Skips x s other) : Skips x s' other := by
  refine hs.imp_right fun ha => ?_
  simp only [AppliedLSNTracker.isApplied,decide_eq_true_eq] at ha ⊢
  exact h.cache_subset ha

theorem Step.fresh (hnew : ¬Skips x s change) (ha : Admits x s change) :
    change.lsn ∈ s'.lsn_tracker.cache ∧ change.lsn ∉ s.lsn_tracker.cache := by
  cases h with
  | skipped hs hsame reason => exact absurd hs hnew
  | applied _ _ hp htr =>
    refine ⟨?_,fun hm => hnew (.inr ?_)⟩
    · rw [htr]
      exact Finset.mem_insert_self _ _
    · simpa [AppliedLSNTracker.isApplied] using hm
  | reported _ hr hrp hdata report | refused _ hr hsl hdata e => exact absurd ha hr

end

theorem applyAll_cache_subset (result : BatchApplyResult) (changes : List ChangeEntry) :
    s.lsn_tracker.cache ⊆ (applyAll x s result changes).1.lsn_tracker.cache := by
  induction changes generalizing s result with
  | nil => exact Finset.Subset.refl _
  | cons change rest ih =>
    rw [applyAll,applyChangeInTransaction]
    have hs := (@applyChange_step _ _ _ x s change).cache_subset
    generalize applyChange x s change = run at hs
    obtain ⟨s',outcome⟩ := run
    cases outcome with
    | error e => exact hs
    | ok result' =>
      cases result' with
      | applied lsn | conflict report | skipped reason => exact hs.trans (ih _)

variable (result : BatchApplyResult) (changes : List ChangeEntry)

theorem applyAll_data_iff : (applyAll x s result changes).1.data = s.data ↔ Quiet x s changes := by
  induction changes generalizing s result with
  | nil => simp [applyAll,Quiet]
  | cons change rest ih =>
    rw [applyAll,applyChangeInTransaction,Quiet]
    have hs := @applyChange_step _ _ _ x s change
    generalize applyChange x s change = run at hs ⊢
    obtain ⟨s',outcome⟩ := run
    simp only at hs ⊢
    cases hs with
    | skipped hsk hsame reason =>
      subst hsame
      simp only [ih,hsk,not_true_eq_false,false_implies,and_true,true_implies]
    | applied hnew ha hp htr =>
      simp only [hnew,ha,not_true_eq_false,not_false_eq_true,false_implies,true_implies,false_and,and_false,
        iff_false]
      intro hdata
      have hm := @applyAll_cache_subset _ _ _ x s' { result with applied := result.applied ++ [change.lsn] } rest
      have hf := (Step.applied hnew ha hp htr).fresh hnew ha
      rw [lsn_tracker_of_data hdata] at hm
      exact hf.2 (hm hf.1)
    | reported hnew hr hrp hdata report =>
      rw [← hdata,ih]
      simp only [hnew,hr,hrp,not_false_eq_true,false_implies,true_implies,true_and]
    | refused hnew hr hsl hdata e =>
      simp only [hdata,hnew,hr,hsl,not_false_eq_true,false_implies,true_implies,and_true]

theorem applyAll_cons_ok (rest : List ChangeEntry)
    (hok : (applyChange x s change).2 = .ok result') : ∃ result₁, result₁.failed = result.failed ∧
      applyAll x s result (change::rest) = applyAll x (applyChange x s change).1 result₁ rest := by
  rw [applyAll,applyChangeInTransaction]
  generalize applyChange x s change = run at hok ⊢
  obtain ⟨s',outcome⟩ := run
  simp only at hok
  subst hok
  cases result' with
  | applied lsn => exact ⟨{ result with applied := result.applied ++ [lsn] },rfl,rfl⟩
  | conflict report => exact ⟨{ result with conflicts := result.conflicts ++ [report] },rfl,rfl⟩
  | skipped reason => exact ⟨result,rfl,rfl⟩

theorem applyAll_cons_error (rest : List ChangeEntry)
    (he : (applyChange x s change).2 = .error e) : applyAll x s result (change::rest) =
      ((applyChange x s change).1,{ result with failed := result.failed ++ [(change.lsn,e.display)] }) := by
  rw [applyAll,applyChangeInTransaction]
  generalize applyChange x s change = run at he ⊢
  obtain ⟨s',outcome⟩ := run
  simp only at he
  subst he
  rfl

theorem sortByLsn_eq {changes : List ChangeEntry} (hs : changes.Pairwise fun c c' => c.lsn ≤ c'.lsn) :
    sortByLsn changes = changes := hs.insertionSort_eq

theorem sortByLsn_pairwise : (sortByLsn changes).Pairwise fun c c' => c.lsn ≤ c'.lsn := by
  have htt : Std.Total fun c c' : ChangeEntry => c.lsn ≤ c'.lsn := ⟨fun c c' => Nat.le_total c.lsn c'.lsn⟩
  have htr : IsTrans ChangeEntry fun c c' => c.lsn ≤ c'.lsn := ⟨fun _ _ _ => Nat.le_trans⟩
  exact pairwise_insertionSort _ changes

theorem applyBatch_data : (applyBatch x s changes).1.data =
    (applyAll x s ⟨[],[],[],changes.length⟩ (sortByLsn changes)).1.data := by
  simp only [applyBatch]
  split <;> rfl

theorem applyBatch_failed : (applyBatch x s changes).2.failed =
    (applyAll x s ⟨[],[],[],changes.length⟩ (sortByLsn changes)).2.failed := by
  simp only [applyBatch]
  split <;> rfl

theorem update_eq_update_iff {κ : Type} [DecidableEq κ] {f : κ → α} {k k' : κ} {v v' : α} :
    Function.update f k v = Function.update f k' v' ↔ (k = k' ∧ v = v') ∨ (k ≠ k' ∧ f k = v ∧ f k' = v') := by
  constructor
  · intro h
    by_cases hk : k = k'
    · subst hk
      have hv := congrFun h k
      rw [update_self,update_self] at hv
      exact .inl ⟨rfl,hv⟩
    · have hv := congrFun h k
      have hv' := congrFun h k'
      rw [update_self,update_of_ne hk] at hv
      rw [update_self,update_of_ne (Ne.symm hk)] at hv'
      exact .inr ⟨hk,hv.symm,hv'⟩
  · rintro (⟨rfl,rfl⟩ | ⟨-,rfl,rfl⟩)
    · rfl
    · rw [update_eq_self,update_eq_self]

theorem Stores.unique {stored' : Tuple} (h : Stores x s change stored) (h' : Stores x s change stored') : stored = stored' := by
  obtain ⟨tuple,schema,indexes,htp,hs,hf,-⟩ := h
  obtain ⟨tuple',schema',indexes',ht',hs',hf',-⟩ := h'
  rw [htp] at ht'
  cases ht'
  rw [hs] at hs'
  cases hs'
  rw [hf] at hf'
  cases hf'
  rfl

theorem stored_keyed_iff (hid : rowIdToU64 change.row_id = .ok row_id)
    (hd : x.decode change.data = .ok tuple) (hs : Stores x s change stored) :
    Function.update s.rows (change.table,nextRowId s change.table) (some stored) =
        Function.update s.rows (change.table,row_id) (some tuple) ↔
      ∀ row_id tuple stored, rowIdToU64 change.row_id = .ok row_id → x.decode change.data = .ok tuple →
        Stores x s change stored → (nextRowId s change.table = row_id ∧ stored = tuple) ∨
          (nextRowId s change.table ≠ row_id ∧ s.rows (change.table,nextRowId s change.table) = some stored ∧
            s.rows (change.table,row_id) = some tuple) := by
  rw [update_eq_update_iff]
  simp only [Prod.mk.injEq,some.injEq,true_and,ne_eq]
  constructor
  · intro h row_id' tuple' stored' hid' hd' hs'
    rw [hid] at hid'
    cases hid'
    rw [hd] at hd'
    cases hd'
    rw [hs'.unique hs]
    exact h
  · exact fun h => h row_id tuple stored hid hd hs

theorem Places.keyed_iff {rows : String × Nat → Option Tuple} (h : Places x s change rows) :
    rows = keyedApply x change s.rows ↔ WellPlaced x s change := by
  obtain ⟨row_id,hid,hp⟩ := h
  rw [keyedApply,hid,WellPlaced]
  cases hop : change.operation with
  | delete =>
    rw [hop] at hp
    simp [hp]
  | insert | update columns =>
    rw [hop] at hp
    obtain ⟨stored,hs,rfl⟩ := hp
    have ⟨tuple,_,_,hd,_⟩ := hs
    simp only [hd]
    rw [stored_keyed_iff hid hd hs,hd]

structure Reached (x : Engine Schema Indexes Tuple) (s₀ : State Indexes Tuple) (seen : List ChangeEntry)
    (s : State Indexes Tuple) (applied : List ChangeEntry) (started : Bool) : Prop where
  run : ∀ total rest, ∃ result : BatchApplyResult, result.failed = [] ∧
    applyAll x s₀ ⟨[],[],[],total⟩ (seen ++ rest) = applyAll x s result rest
  accepts : ∀ rest, accepted x s₀ (seen ++ rest) = applied ++ accepted x s rest
  untouched : started = false → s.data = s₀.data
  touched : started = true → ∃ lsn ∈ s.lsn_tracker.cache, lsn ∉ s₀.lsn_tracker.cache
  grown : s₀.lsn_tracker.cache ⊆ s.lsn_tracker.cache

/-- The data follow the keyed map so far, and what was seen would not be applied again. -/
def Good (x : Engine Schema Indexes Tuple) (s₀ : State Indexes Tuple) (seen : List ChangeEntry)
    (s : State Indexes Tuple) (applied : List ChangeEntry) : Prop :=
  s.rows = applied.foldl (fun rows change => keyedApply x change rows) s₀.rows ∧ Quiet x s seen

section
variable {s₀ : State Indexes Tuple} {seen rest applied : List ChangeEntry} {started : Bool}
  (h : Reached x s₀ seen s applied started)

theorem Reached.start : Reached x s [] s [] false where
  run _ _ := ⟨_,rfl,rfl⟩
  accepts _ := rfl
  untouched _ := rfl
  touched hstarted := (nomatch hstarted)
  grown := Finset.Subset.refl _

include h

theorem Reached.next {result' : ApplyResult} {applied' : List ChangeEntry} {started' : Bool}
    (hok : (applyChange x s change).2 = .ok result')
    (ha : ∀ rest, accepted x s (change::rest) = applied' ++ accepted x (applyChange x s change).1 rest)
    (hu : started' = false → started = false ∧ (applyChange x s change).1.data = s.data)
    (htc : started' = true → started = true ∨
      ∃ lsn ∈ (applyChange x s change).1.lsn_tracker.cache, lsn ∉ s.lsn_tracker.cache) :
    Reached x s₀ (seen ++ [change]) (applyChange x s change).1 (applied ++ applied') started' where
  run total rest := by
    obtain ⟨result,hf,hr⟩ := h.run total (change::rest)
    obtain ⟨result₁,hf₁,hc⟩ := applyAll_cons_ok result rest hok
    refine ⟨result₁,hf₁.trans hf,?_⟩
    rw [append_assoc,singleton_append,hr,hc]
  accepts rest := by rw [append_assoc,singleton_append,h.accepts,ha,append_assoc]
  untouched hstarted := (hu hstarted).2.trans (h.untouched (hu hstarted).1)
  touched hstarted := by
    rcases htc hstarted with hs' | ⟨lsn,hm,hn⟩
    · obtain ⟨lsn,hm,hn⟩ := h.touched hs'
      exact ⟨lsn,applyChange_step.cache_subset hm,hn⟩
    · exact ⟨lsn,hm,fun hmm => hn (h.grown hmm)⟩
  grown := h.grown.trans applyChange_step.cache_subset

theorem Reached.allOrNothing_iff (hs : seen.Pairwise fun c c' => c.lsn ≤ c'.lsn) :
    AllOrNothing x s₀ seen ↔ Good x s₀ seen s applied := by
  obtain ⟨result,hf,hr⟩ := h.run seen.length []
  have ha := h.accepts []
  rw [append_nil] at hr ha
  have hb : (applyBatch x s₀ seen).1 = s := by
    rw [applyBatch,sortByLsn_eq hs,hr]
    simp [applyAll,hf]
  have hn : (applyBatch x s₀ seen).2.failed = [] := by
    rw [applyBatch_failed,sortByLsn_eq hs,hr]
    exact hf
  rw [AllOrNothing,if_pos hn,hb,sortByLsn_eq hs,ha,applyBatch_data,sortByLsn_eq hs,
    applyAll_data_iff,Good]
  simp [accepted]

theorem Reached.refused_iff {e : DeltaError} (hsr : (seen ++ change::rest).Pairwise fun c c' => c.lsn ≤ c'.lsn)
    (he : (applyChange x s change).2 = .error e) (hdata : (applyChange x s change).1.data = s.data) :
    AllOrNothing x s₀ (seen ++ change::rest) ↔ started = false := by
  obtain ⟨result,hf,hr⟩ := h.run (seen ++ change::rest).length (change::rest)
  rw [applyAll_cons_error result rest he] at hr
  have hsm : (applyBatch x s₀ (seen ++ change::rest)).2.failed ≠ [] := by
    rw [applyBatch_failed,sortByLsn_eq hsr,hr]
    simp
  rw [AllOrNothing,if_neg hsm,applyBatch_data,sortByLsn_eq hsr,hr]
  simp only [hdata]
  cases hs : started with
  | false => simp [h.untouched hs]
  | true =>
    obtain ⟨lsn,hm,hn⟩ := h.touched hs
    simp only [Bool.true_eq_false,iff_false]
    intro hsame
    rw [lsn_tracker_of_data hsame] at hm
    exact hn hm

end

theorem quiet_append_skipped (hqt : Quiet x s seen) (hs : Skips x s change) : Quiet x s (seen ++ [change]) := by
  induction seen generalizing s with
  | nil => exact ⟨fun _ => trivial,fun hnew => absurd hs hnew⟩
  | cons first seen ih =>
    have hs' : Skips x (applyChange x s first).1 change := applyChange_step.skips hs
    refine ⟨fun h => ih (hqt.1 h) hs',fun h => ⟨(hqt.2 h).1,fun hr => ?_⟩⟩
    exact ih ((hqt.2 h).2 hr) hs'

theorem accepted_cons_applied {lsn : Nat} (hok : (applyChange x s change).2 = .ok (.applied lsn)) (rest : List ChangeEntry) :
    accepted x s (change::rest) = [change] ++ accepted x (applyChange x s change).1 rest := by
  rw [accepted]
  generalize applyChange x s change = run at hok ⊢
  obtain ⟨s',outcome⟩ := run
  simp only at hok
  subst hok
  rfl

theorem accepted_cons_other (hok : (applyChange x s change).2 = .ok result')
    (ho : ∀ lsn, result' ≠ .applied lsn) (rest : List ChangeEntry) :
    accepted x s (change::rest) = [] ++ accepted x (applyChange x s change).1 rest := by
  rw [accepted]
  generalize applyChange x s change = run at hok ⊢
  obtain ⟨s',outcome⟩ := run
  simp only at hok
  subst hok
  cases result' with
  | applied lsn => exact absurd rfl (ho lsn)
  | conflict report | skipped reason => rfl

theorem good_applied_iff (hg : Good x s₀ seen s applied) (hp : Places x s change s'.rows) :
    Good x s₀ (seen ++ [change]) s' (applied ++ [change]) ↔ WellPlaced x s change ∧ Quiet x s' (seen ++ [change]) := by
  rw [Good,foldl_append,← hg.1]
  exact and_congr_left fun _ => hp.keyed_iff

theorem forall_take_cons {P : List α → Prop} {seen rest : List α} {a : α} (hs : P seen) :
    (∀ n, P (seen ++ (a::rest).take n)) ↔ ∀ n, P (seen ++ [a] ++ rest.take n) := by
  constructor
  · intro h n
    have hn := h (n+1)
    rwa [take_succ_cons,← singleton_append,← append_assoc] at hn
  · intro h n
    cases n with
    | zero => simpa using hs
    | succ n =>
      rw [take_succ_cons,← singleton_append,← append_assoc]
      exact h n

theorem faithful_iff {rest : List ChangeEntry} {started : Bool}
    (h : Reached x s₀ seen s applied started) (hg : Good x s₀ seen s applied)
    (hsr : (seen ++ rest).Pairwise fun c c' => c.lsn ≤ c'.lsn) :
    (∀ n, AllOrNothing x s₀ (seen ++ rest.take n)) ↔ Faithful x s seen started rest := by
  induction rest generalizing s seen applied started with
  | nil =>
    have hl := (h.allOrNothing_iff (hsr.sublist (sublist_append_left _ _))).mpr hg
    simp only [take_nil,append_nil,hl,true_iff,implies_true]
    exact .nil
  | cons change rest ih =>
    have hsn := (h.allOrNothing_iff (hsr.sublist (sublist_append_left _ _))).mpr hg
    have hs' : (seen ++ [change] ++ rest).Pairwise fun c c' => c.lsn ≤ c'.lsn := by
      rwa [append_assoc,singleton_append]
    have hn : (seen ++ [change]).Pairwise fun c c' => c.lsn ≤ c'.lsn :=
      hs'.sublist (sublist_append_left _ _)
    have hsp := @applyChange_step _ _ _ x s change
    cases ho : (applyChange x s change).2 with
    | error e =>
      rw [ho] at hsp
      cases hsp with
      | refused hnew hrf hsl hdata =>
        constructor
        · intro hal
          have hb := hal (rest.length+1)
          rw [take_succ_cons,take_length] at hb
          rw [(h.refused_iff hsr ho hdata).mp hb]
          exact .refused hnew hrf hsl
        · intro hf n
          have hst : started = false := by
            cases hf with
            | skipped hs => exact absurd hs hnew
            | applied _ ha => exact absurd ha hrf
            | reported _ _ hrp => exact absurd hrp hsl
            | refused => rfl
          cases n with
          | zero => simpa using hsn
          | succ n =>
            rw [take_succ_cons]
            have hsb : (seen ++ change :: rest.take n).Sublist (seen ++ change::rest) :=
              (List.Sublist.refl seen).append ((take_sublist n rest).cons_cons change)
            exact (h.refused_iff (hsr.sublist hsb) ho hdata).mpr hst
    | ok result' =>
      rw [forall_take_cons hsn]
      rw [ho] at hsp
      cases hsp with
      | skipped hs hsame reason =>
        have hr := h.next ho (accepted_cons_other ho fun lsn => by simp)
          (fun hst => ⟨hst,by rw [hsame]⟩) .inl
        have hgood' : Good x s₀ (seen ++ [change]) (applyChange x s change).1 (applied ++ []) := by
          rw [hsame,append_nil]
          exact ⟨hg.1,quiet_append_skipped hg.2 hs⟩
        rw [ih hr hgood' hs']
        constructor
        · exact .skipped hs
        · intro hf
          cases hf with
          | skipped _ hrest => exact hrest
          | applied hnew | reported hnew | refused hnew => exact absurd hs hnew
      | applied hnew ha hpl htr =>
        have hfr := applyChange_step.fresh hnew ha
        have hr : Reached x s₀ (seen ++ [change]) (applyChange x s change).1 (applied ++ [change]) true :=
          h.next ho (accepted_cons_applied ho) nofun fun _ => .inr ⟨change.lsn,hfr⟩
        constructor
        · intro hal
          have hgood' := (hr.allOrNothing_iff hn).mp (by simpa using hal 0)
          have hp := (good_applied_iff hg hpl).mp hgood'
          exact .applied hnew ha hp.1 hp.2 ((ih hr hgood' hs').mp hal)
        · intro hf
          cases hf with
          | skipped hs => exact absurd hs hnew
          | applied _ _ hpc hqt hrest =>
            exact (ih hr ((good_applied_iff hg hpl).mpr ⟨hpc,hqt⟩) hs').mpr hrest
          | reported _ hrf | refused _ hrf => exact absurd ha hrf
      | reported hnew hrf hrp hdata report =>
        have hr := h.next ho (accepted_cons_other ho fun lsn => by simp)
          (fun hst => ⟨hst,hdata⟩) .inl
        have hrw : (applyChange x s change).1.rows =
            (applied ++ []).foldl (fun rows change => keyedApply x change rows) s₀.rows := by
          rw [rows_of_data hdata,append_nil]
          exact hg.1
        constructor
        · intro hal
          have hgood' := (hr.allOrNothing_iff hn).mp (by simpa using hal 0)
          exact .reported hnew hrf hrp hgood'.2 ((ih hr hgood' hs').mp hal)
        · intro hf
          cases hf with
          | skipped hs => exact absurd hs hnew
          | applied _ ha => exact absurd ha hrf
          | reported _ _ _ hqt hrest => exact (ih hr ⟨hrw,hqt⟩ hs').mpr hrest
          | refused _ _ hsl => exact absurd hrp hsl

/-- A batch is all or nothing when its changes are faithful, and it is so with all its prefixes exactly then. -/
theorem delta_batch_all_or_nothing (x : Engine Schema Indexes Tuple) (s : State Indexes Tuple) (changes : List ChangeEntry) :
    (Faithful x s [] false (sortByLsn changes) → AllOrNothing x s changes) ∧
    ((∀ n, AllOrNothing x s ((sortByLsn changes).take n)) ↔ Faithful x s [] false (sortByLsn changes)) := by
  have hsorted := sortByLsn_pairwise changes
  have hiff : (∀ n, AllOrNothing x s ((sortByLsn changes).take n)) ↔ Faithful x s [] false (sortByLsn changes) :=
    faithful_iff Reached.start ⟨rfl,trivial⟩ hsorted
  refine ⟨fun hfaithful => ?_,hiff⟩
  have hall := hiff.mpr hfaithful (sortByLsn changes).length
  rw [take_length] at hall
  -- A sorted batch is its own sorted form, and it has as many entries.
  have hlength : (sortByLsn changes).length = changes.length := length_insertionSort _ changes
  simpa only [AllOrNothing,applyBatch,sortByLsn_eq hsorted,hlength] using hall

/-- An engine whose rows are single bytes. -/
def byteEngine : Engine Unit Unit Nat where
  hash _ := 0
  decode data := match data with
    | [b] => .ok b.val
    | _ => .error "unexpected end of file"
  encode _ := []
  schema _ := .ok ()
  explicitKey _ _ := 0
  fillKeys _ _ tuple := .ok tuple
  claim _ _ _ _ _ := .ok ()
  display := ⟨fun _ => "",fun _ => ""⟩
  moment _ := ⟨0,0,0,0,0⟩

def emptyState : State Unit Nat where
  rows _ := none
  row_counters _ := 0
  indexes := ()
  conflict_detector := ⟨.lastWriteWins,[],9⟩
  stats := ⟨0,0,0,0,0⟩
  lsn_tracker := .new ∅
  node_id := 9
  row_clocks _ := none
  moments := 0

def firstInsert : ChangeEntry := ⟨1,"t",.insert,[1],[42],.new,0,5⟩

/-- The row behind the first one does not decode. -/
def tornBatch : List ChangeEntry := [firstInsert,⟨2,"t",.insert,[2],[],.new,0,5⟩]

def updatingBatch : List ChangeEntry :=
  [firstInsert,⟨2,"t",.update [],[1],[43],(VectorClock.new.increment 9).increment 5,0,5⟩]

theorem delta_batch_all_or_nothing_insert : AllOrNothing byteEngine emptyState [firstInsert] := by
  refine (delta_batch_all_or_nothing byteEngine emptyState [firstInsert]).1 ?_
  have hstores : Stores byteEngine emptyState firstInsert 42 := ⟨42,(),(),rfl,rfl,rfl,rfl⟩
  have hadmits : Admits byteEngine emptyState firstInsert := ⟨1,rfl,rfl,42,hstores⟩
  have hnew : ¬Skips byteEngine emptyState firstInsert := by
    rintro (h | h)
    · exact absurd h (by decide)
    · exact absurd h (by decide)
  refine .applied hnew hadmits ?_ ?_ .nil
  · rintro row_id tuple stored ⟨⟩ ⟨⟩ hstored
    exact .inl ⟨rfl,hstored.unique hstores⟩
  · exact ⟨fun _ => trivial,fun hnew => absurd (.inr (by decide)) hnew⟩

/-- The first batch fails and keeps its first row, and the second one stores its update as another row. -/
theorem delta_batches_diverge : ¬AllOrNothing byteEngine emptyState tornBatch ∧
    ¬AllOrNothing byteEngine emptyState updatingBatch := by
  constructor
  · rw [AllOrNothing,if_neg (by decide)]
    intro hdata
    have happlied : 1 ∈ (applyBatch byteEngine emptyState tornBatch).1.lsn_tracker.cache := by decide
    rw [lsn_tracker_of_data hdata] at happlied
    exact absurd happlied (by decide)
  · rw [AllOrNothing,if_pos (by decide)]
    intro h
    exact absurd (congrFun h.1 ("t",1)) (by decide)

end HeliosNano.Sync.DeltaApplicator
