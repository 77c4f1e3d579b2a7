import HeliosNano.Storage.Db

/-! The physical replica: source batches in the raw format of the store, and the staging receiver that
applies them. The hash and the JSON text of the cursor come from outside. -/
namespace HeliosNano.Replication
open Foundation Storage

/-- A UUID as a number; 0 is the nil one. -/
abbrev Uuid := Nat

def cursorFormat : Nat := 1

/-- `__nano_physical_replica_cursor_v1` -/
def cursorKey : Key := ascii ['_','_','n','a','n','o','_','p','h','y','s','i','c','a','l','_','r','e','p','l',
  'i','c','a','_','c','u','r','s','o','r','_','v','1']

def maxBatchBytes : Nat := 64*1024*1024

def maxBatchOperations : Nat := 1000000

def maxSequence : Nat := 2^56-1

inductive PhysicalError
  | storage
  | invalid (message : String)
  | gap (expected observed : Nat)
  | historyMismatch
  | poisoned
deriving DecidableEq, Repr

def checkHistory (history : Uuid) : Except PhysicalError Unit :=
  if history = 0 then .error (.invalid "nil history identity") else .ok ()

def checkLocalAdvance (current operations : Nat) : Except PhysicalError Unit :=
  if operations = 0 ∨ maxSequence < current+operations then
    .error (.invalid "receiver-local RocksDB sequence exhausted")
  else .ok ()

/-- A record of a raw batch. Log data consumes no sequence number. -/
inductive Record
  | put (key : Key) (value : Bytes)
  | delete (key : Key)
  | logData
  | deleteRange (first last : Key)
deriving DecidableEq, Repr

namespace Record

def counted : Record → Nat
  | logData => 0
  | _ => 1

/-- What the store does with a record; a range is half-open. -/
def apply (rows : Store) : Record → Store
  | put key value => rows.insert key value
  | delete key => rows.erase key
  | logData => rows
  | deleteRange first last => rows.retain fun key _ => !(decide (first ≤ key) && decide (key < last))

end Record

def leValue (bytes : Bytes) : Nat := beValue bytes.reverse

/-- A length in groups of seven bits, at most 32 bits. -/
def takeLength : List Nat → Bytes → Nat → Except PhysicalError (Nat × Bytes)
  | [], _, _ => .error (.invalid "truncated value")
  | _::_, [], _ => .error (.invalid "truncated length")
  | shift::shifts, byte::rest, length =>
    if shift = 28 ∧ 15 < byte.val then .error (.invalid "length overflow")
    else
      let length := length+byte.val%128*2^shift
      if byte.val < 128 then .ok (length,rest) else takeLength shifts rest length

def takeSlice (input : Bytes) : Except PhysicalError (Bytes × Bytes) := do
  let (length,rest) ← takeLength [0,7,14,21,28] input 0
  if rest.length < length then .error (.invalid "truncated value") else .ok (rest.splitAt length)

def checkSourceKey (key : Key) : Except PhysicalError Unit :=
  if key = cursorKey then .error (.invalid "source batch contains receiver-local progress") else .ok ()

def readRecord (tag : Byte) (input : Bytes) : Except PhysicalError (Record × Bytes) :=
  if tag.val = 0 ∨ tag.val = 7 then do
    let (key,input) ← takeSlice input
    checkSourceKey key
    .ok (.delete key,input)
  else if tag.val = 1 then do
    let (key,input) ← takeSlice input
    checkSourceKey key
    let (value,input) ← takeSlice input
    .ok (.put key value,input)
  else if tag.val = 3 then do
    let (_,input) ← takeSlice input
    .ok (.logData,input)
  else if tag.val = 15 then do
    let (first,input) ← takeSlice input
    let (last,input) ← takeSlice input
    if last < first ∨ first ≤ cursorKey ∧ cursorKey < last then
      .error (.invalid "invalid or receiver-metadata-overlapping range deletion")
    else .ok (.deleteRange first last,input)
  else .error (.invalid ("unsupported RocksDB write opcode " ++ toString tag.val))

/-- The loop over the records; every record takes a byte at least, so the bytes are fuel enough. -/
def readRecords (count : Nat) : Nat → Bytes → Nat → Except PhysicalError (List Record)
  | _, [], observed =>
    if observed ≠ count then .error (.invalid "batch operation count mismatch") else .ok []
  | 0, _::_, _ => .error (.invalid "batch operation count mismatch")
  | fuel+1, tag::input, observed => do
    let (record,input) ← readRecord tag input
    let observed := observed+record.counted
    if count < observed then .error (.invalid "batch operation count mismatch")
    else
      let records ← readRecords count fuel input observed
      .ok (record::records)

/-- The count of the header and the records, as the store will read them. -/
def validateRawBatch (raw : Bytes) : Except PhysicalError (Nat × List Record) := do
  if raw.length < 12 ∨ maxBatchBytes < raw.length then .error (.invalid "batch byte limit/header")
  else
    let count := leValue ((raw.drop 8).take 4)
    if count = 0 ∨ maxBatchOperations < count then .error (.invalid "batch operation limit")
    else
      let records ← readRecords count raw.length (raw.drop 12) 0
      .ok (count,records)

structure PhysicalBatch where
  history : Uuid
  first : Nat
  last : Nat
  digest : Bytes
  raw : Bytes
deriving DecidableEq, Repr

def PhysicalBatch.records (batch : PhysicalBatch) : List Record :=
  match validateRawBatch batch.raw with
  | .ok (_,records) => records
  | .error _ => []

def PhysicalBatch.decode (sha256 : Bytes → Bytes) (history : Uuid) (first : Nat) (raw expectedDigest : Bytes) :
    Except PhysicalError PhysicalBatch := do
  checkHistory history
  let (count,_) ← validateRawBatch raw
  let encodedFirst := leValue (raw.take 8)
  if first = 0 ∨ first ≠ encodedFirst then .error (.invalid "batch source sequence disagrees with its header")
  else
    let last := first+(count-1)
    if maxSequence < last then .error (.invalid "source sequence overflow")
    else if sha256 raw ≠ expectedDigest then .error (.invalid "batch checksum mismatch")
    else .ok ⟨history,first,last,sha256 raw,raw⟩

structure Db where
  rows : Store
  latestSequenceNumber : Nat

structure PhysicalCursor where
  format : Nat
  history : Uuid
  snapshotSequence : Nat
  sourceSequence : Nat
  localSequence : Nat
  lastFirstSequence : Option Nat
  lastDigest : Option Bytes
deriving DecidableEq, Repr

def PhysicalCursor.validate (c : PhysicalCursor) : Except PhysicalError Unit := do
  checkHistory c.history
  if c.format ≠ cursorFormat ∨ c.sourceSequence < c.snapshotSequence ∨ maxSequence < c.sourceSequence ∨
      c.localSequence ≤ c.sourceSequence ∨ maxSequence < c.localSequence then
    .error (.invalid "invalid durable cursor")
  else
    match c.lastFirstSequence, c.lastDigest with
    | none, none =>
      if c.sourceSequence = c.snapshotSequence then .ok ()
      else .error (.invalid "inconsistent durable cursor batch identity")
    | some first, some _ =>
      if c.snapshotSequence < first ∧ first ≤ c.sourceSequence then .ok ()
      else .error (.invalid "inconsistent durable cursor batch identity")
    | _, _ => .error (.invalid "inconsistent durable cursor batch identity")

structure CursorJson where
  toVec : PhysicalCursor → Bytes
  fromSlice : Bytes → Option PhysicalCursor

/-- The text of a cursor is read as that cursor, if it is read at all. -/
def CursorJson.Faithful (json : CursorJson) : Prop := ∀ c c', json.fromSlice (json.toVec c) = some c' → c' = c

section
variable (json : CursorJson)

def readCursor (db : Db) : Except PhysicalError PhysicalCursor :=
  match db.rows.lookup cursorKey with
  | none => .error (.invalid "missing physical receiver cursor")
  | some bytes =>
    if 2048 < bytes.length then .error (.invalid "oversized durable cursor")
    else
      match json.fromSlice bytes with
      | none => .error (.invalid "malformed durable cursor")
      | some cursor => do
        cursor.validate
        if db.latestSequenceNumber ≠ cursor.localSequence then
          .error (.invalid "receiver was modified outside physical replication")
        else .ok cursor

structure StagedPhysicalReplica where
  db : Db
  cursor : PhysicalCursor
  poisoned : Bool

/-- A failed write left the store as it was, or was stored all the same. -/
inductive WriteOutcome
  | written
  | lost
  | stored
deriving DecidableEq, Repr

namespace StagedPhysicalReplica

def fromCheckpoint (db : Db) (history : Uuid) (checkpointSequence : Nat) : Except PhysicalError StagedPhysicalReplica := do
  checkHistory history
  if db.latestSequenceNumber ≠ checkpointSequence ∨ (db.rows.lookup cursorKey).isSome then
    .error (.invalid "checkpoint sequence mismatch or existing receiver cursor")
  else
    checkLocalAdvance checkpointSequence 1
    let cursor : PhysicalCursor :=
      ⟨cursorFormat,history,checkpointSequence,checkpointSequence,checkpointSequence+1,none,none⟩
    cursor.validate
    .ok ⟨⟨db.rows.insert cursorKey (json.toVec cursor),db.latestSequenceNumber+1⟩,cursor,false⟩

def resume (db : Db) (history : Uuid) : Except PhysicalError StagedPhysicalReplica := do
  let cursor ← readCursor json db
  if cursor.history ≠ history then .error .historyMismatch else .ok ⟨db,cursor,false⟩

/-- The cursor after a batch. The cursor itself takes one more local sequence number. -/
def advance (cursor : PhysicalCursor) (batch : PhysicalBatch) : PhysicalCursor :=
  { cursor with
    localSequence := cursor.localSequence+(batch.last-batch.first + 2)
    sourceSequence := batch.last
    lastFirstSequence := some batch.first
    lastDigest := some batch.digest }

/-- One write of the records and of the cursor: a sequence number for each of them. -/
def importBatch (db : Db) (batch : PhysicalBatch) (cursor : PhysicalCursor) : Db :=
  ⟨(batch.records.foldl Record.apply db.rows).insert cursorKey (json.toVec cursor),
    db.latestSequenceNumber + (batch.records.map Record.counted).sum + 1⟩

def apply (r : StagedPhysicalReplica) (batch : PhysicalBatch) (outcome : WriteOutcome) :
    StagedPhysicalReplica × Except PhysicalError Bool :=
  if r.poisoned then (r,.error .poisoned)
  else if r.db.latestSequenceNumber ≠ r.cursor.localSequence then
    ({ r with poisoned := true },.error (.invalid "receiver was modified outside physical replication"))
  else if batch.history ≠ r.cursor.history then (r,.error .historyMismatch)
  else if batch.last = r.cursor.sourceSequence ∧ some batch.first = r.cursor.lastFirstSequence ∧
      some batch.digest = r.cursor.lastDigest then (r,.ok false)
  else if batch.first ≠ r.cursor.sourceSequence+1 then (r,.error (.gap (r.cursor.sourceSequence+1) batch.first))
  else
    match checkLocalAdvance r.cursor.localSequence (batch.last-batch.first + 2) with
    | .error error => (r,.error error)
    | .ok () =>
      let cursor := advance r.cursor batch
      match outcome with
      | .written => (⟨importBatch json r.db batch cursor,cursor,false⟩,.ok true)
      | .lost => ({ r with poisoned := true },.error .storage)
      | .stored => ({ r with db := importBatch json r.db batch cursor, poisoned := true },.error .storage)

end StagedPhysicalReplica
end
end HeliosNano.Replication
