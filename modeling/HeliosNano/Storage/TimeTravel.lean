import HeliosNano.Storage.Db

namespace HeliosNano.Storage
open Foundation

/-- One marker: the rows of a COPY batch and its commit timestamp. -/
structure Interval where
  first : RowId
  last : RowId
  ts : Timestamp
deriving DecidableEq

structure CopyMarkers where
  byTable : Map Bytes (List Interval)
  any : Bool

namespace CopyMarkers

def new : CopyMarkers := ⟨∅,false⟩

variable (m : CopyMarkers)

def isEmpty : Bool := !m.any

/-- `vmeta:{table}:{first:020}:{last:020}` -/
def markerKey (table : Bytes) (first last : RowId) : Key :=
  vmetaPrefix ++ ((table ++ colon :: padded 20 first) ++ colon :: padded 20 last)

/-- Read from the end: the table name may hold the separator. -/
def parseMarker (key : Key) (value : Bytes) : Option (Bytes × Interval) :=
  if (fromUtf8 key).isSome then do
    let rest ← stripPrefix vmetaPrefix key
    let (rest,last) ← splitLast colon rest
    let (table,first) ← splitLast colon rest
    let first ← parseUnsigned u64Max first
    let last ← parseUnsigned u64Max last
    if value.length < 8 then none else some (table,⟨first,last,beValue (value.take 8)⟩)
  else none

def insert (m : CopyMarkers) (table : Bytes) (first last : RowId) (ts : Timestamp) : CopyMarkers :=
  ⟨m.byTable.insert table (((m.byTable.lookup table).getD []) ++ [⟨first,last,ts⟩]),true⟩

def loadRecord (key : Key) (value : Bytes) : CopyMarkers :=
  match parseMarker key value with
  | some (table,interval) => m.insert table interval.first interval.last interval.ts
  | none => m

/-- The scan over all keys at open. -/
def loadRecords (entries : List (Key × Bytes)) : CopyMarkers :=
  entries.foldl (fun m entry => if vmetaPrefix <+: entry.1 then m.loadRecord entry.1 entry.2 else m) m

def coveringTs (table : Bytes) (row : RowId) : Option Timestamp :=
  if m.isEmpty then none
  else match m.byTable.lookup table with
    | none => none
    | some intervals =>
      (intervals.find? fun interval => decide (interval.first ≤ row) && decide (row ≤ interval.last)).map (·.ts)

end CopyMarkers

abbrev SnapshotCacheKey := Bytes × RowId × Timestamp

/-- The cached reads are in the order of their last use, newest first; each carries the
generation of its table at the time of the lookup. -/
structure SnapshotManager where
  snapshotCache : List (SnapshotCacheKey × (Nat × Option Bytes))
  snapshotCacheGen : Map Bytes Nat
  maxEntries : Nat
  cacheEnabled : Bool
  persistMetadata : Bool
  copyMarkers : CopyMarkers
  elideLatestVersion : Bool
  maybeElidedRows : Bool
  keyManager : Option KeyManager

namespace SnapshotManager

/-- The manager of a durable database. -/
def new (keyManager : Option KeyManager) : SnapshotManager where
  snapshotCache := []
  snapshotCacheGen := ∅
  maxEntries := 1000
  cacheEnabled := true
  persistMetadata := true
  copyMarkers := .new
  elideLatestVersion := false
  maybeElidedRows := false
  keyManager := keyManager

variable (m : SnapshotManager) (db : Db) (table : Bytes) (row : RowId) (snapshotTs : Timestamp)

/-- The knob is set at open. The sentinel of an earlier session keeps the materialize
gate armed; a new sentinel is written before any flagged row can be. -/
def configureElision (elideLatestVersion : Bool) : SnapshotManager × Db :=
  let m := { m with elideLatestVersion := elideLatestVersion }
  let sentinelPresent := match db.get elideSentinelKey with
    | .ok (some _) => true
    | _ => false
  let m := if sentinelPresent then { m with maybeElidedRows := true } else m
  if elideLatestVersion then
    if sentinelPresent || !m.persistMetadata then ({ m with maybeElidedRows := true },db)
    else match db.write [.put elideSentinelKey [1]] with
      | .ok db => ({ m with maybeElidedRows := true },db)
      | .error _ => ({ m with elideLatestVersion := false },db)
  else (m,db)

/-- The marker half of `recover_snapshots`: every durable marker is loaded again. -/
def recoverMarkers : SnapshotManager :=
  { m with copyMarkers := m.copyMarkers.loadRecords (db.store.iterFrom []) }

def recordCopyMarker (first last : RowId) (ts : Timestamp) : SnapshotManager :=
  { m with copyMarkers := m.copyMarkers.insert table first last ts }

/-- The value under a key, with the error of the call under a lead. -/
def readKey (lead : String) (key : Key) : Except Error (Option Bytes) :=
  match db.get key with
  | .ok value => .ok value
  | .error message => .error (.storage (lead ++ message))

def getVersionByExactTimestamp (ts : Timestamp) : Except Error (Option Bytes) :=
  readKey db "Failed to read version: " (versionKey table row ts)

/-- An iterator that reports an error counts as empty. -/
def hasAnyVersionIndex : Bool :=
  match db.next (indexPrefix table row) with
  | some (.ok (key,_)) => decide (indexPrefix table row <+: key)
  | _ => false

/-- The event that the seek lands on, if it belongs to the row and is visible. -/
def landedEvent : Option (Timestamp × Bool) :=
  match db.next (indexKey table row snapshotTs) with
  | some (.ok (key,value)) =>
    if (fromUtf8 key).isSome && decide (indexPrefix table row <+: key) then
      (decodeVersionIndexValue value).filter fun event => decide (event.1 ≤ snapshotTs)
    else none
  | _ => none

/-- An elided event is served from the row, any other from its copy. A row without
events is visible from its marker on, or always. -/
def readAtSnapshotUncached : Except Error (Option Bytes) :=
  match landedEvent db table row snapshotTs with
  | some (_,true) => readKey db "Failed to read elided version data: " (dataKey table row)
  | some (actualTs,false) => getVersionByExactTimestamp db table row actualTs
  | none =>
    if hasAnyVersionIndex db table row then .ok none
    else match m.copyMarkers.coveringTs table row with
      | some markerTs =>
        if snapshotTs < markerTs then .ok none
        else readKey db "Failed to read data key fallback: " (dataKey table row)
      | none => readKey db "Failed to read data key fallback: " (dataKey table row)

def tableCacheGeneration : Nat := (m.snapshotCacheGen.lookup table).getD 0

/-- A hit moves the entry to the front, also when its generation has passed. -/
def promote (key : SnapshotCacheKey) : SnapshotManager :=
  match m.snapshotCache.find? (·.1 == key) with
  | some entry => { m with snapshotCache := entry :: m.snapshotCache.filter (·.1 != key) }
  | none => m

def cachePut (key : SnapshotCacheKey) (value : Nat × Option Bytes) : SnapshotManager :=
  { m with snapshotCache := ((key,value) :: m.snapshotCache.filter (·.1 != key)).take m.maxEntries }

def cached : Option (Option Bytes) :=
  if m.cacheEnabled then
    match m.snapshotCache.find? (·.1 == (table,row,snapshotTs)) with
    | some (_,generation,value) => if generation = m.tableCacheGeneration table then some value else none
    | none => none
  else none

def readAtSnapshot : SnapshotManager × Except Error (Option Bytes) :=
  let looked := if m.cacheEnabled then m.promote (table,row,snapshotTs) else m
  match m.cached table row snapshotTs with
  | some value => (looked,.ok value)
  | none =>
    match m.readAtSnapshotUncached db table row snapshotTs with
    | .error error => (looked,.error error)
    | .ok stored =>
      let result := stored.map (openOwned m.keyManager)
      if m.cacheEnabled then
        (looked.cachePut (table,row,snapshotTs) (m.tableCacheGeneration table,result),.ok result)
      else (looked,.ok result)

/-- The newest event of a row, when its copy is elided: its timestamp and index key. -/
def findFlaggedLatestVersion : Except Error (Option (Timestamp × Key)) :=
  match db.next (indexPrefix table row) with
  | some (.error message) => .error (.storage ("flagged version seek failed: " ++ message))
  | some (.ok (key,value)) =>
    if indexPrefix table row <+: key then
      match decodeVersionIndexValue value with
      | some (eventTs,true) => .ok (some (eventTs,key))
      | _ => .ok none
    else .ok none
  | none => .ok none

/-- Before a row is overwritten, its elided version gets its copy and loses its flag. -/
def materializeElidedLatestVersion : Except Error WriteBatch := do
  match ← findFlaggedLatestVersion db table row with
  | none => .ok []
  | some (eventTs,key) =>
    match ← readKey db "elided version backfill data read failed: " (dataKey table row) with
    | some oldValue =>
      .ok [.put (versionKey table row eventTs) oldValue,.put key (encodeVersionIndexValue eventTs false)]
    | none => .ok []

/-- Before a covered row is overwritten for the first time, its version at the marker
is written. -/
def materializeCopyMarkerRow (newTimestamp : Timestamp) : Except Error WriteBatch :=
  match m.copyMarkers.coveringTs table row with
  | none => .ok []
  | some markerTs =>
    if newTimestamp ≤ markerTs ∨ hasAnyVersionIndex db table row = true then .ok []
    else do
      match ← readKey db "marker backfill data read failed: " (dataKey table row) with
      | some oldValue =>
        .ok [.put (versionKey table row markerTs) oldValue,.put (indexKey table row markerTs) (beBytes 8 markerTs)]
      | none => .ok []

end SnapshotManager
end HeliosNano.Storage
