import HeliosNano.Replication.Physical

namespace HeliosNano.Replication.WalStore
open Foundation Storage

abbrev Lsn := Nat

def walMagic : Nat := 0x57414C31
def walVersion : Nat := 1
def segmentHeaderSize : Nat := 32

/-- Length (4), entry type (1), LSN (8) and checksum (4). -/
def recordHeaderSize : Nat := 17

def leBytes (width n : Nat) : Bytes := (beBytes width n).reverse

inductive WalEntryType
  | insert
  | update
  | delete
  | txBegin
  | txCommit
  | txRollback
  | checkpoint
  | schemaChange
  | branchOp
deriving DecidableEq

structure WalEntry where
  lsn : Lsn
  tx_id : Option Nat
  entry_type : WalEntryType
  data : Bytes
  checksum : Nat
deriving DecidableEq

structure WalStoreConfig where
  max_segment_size : Nat
  max_entries_per_segment : Nat
  cache_size : Nat

def u8ToEntryType (value : Byte) : WalEntryType :=
  match value.val with
  | 0 => .insert
  | 1 => .update
  | 2 => .delete
  | 3 => .txBegin
  | 4 => .txCommit
  | 5 => .txRollback
  | 6 => .checkpoint
  | 7 => .schemaChange
  | 8 => .branchOp
  | _ => .insert

def entryTypeToU8 : WalEntryType → Byte
  | .insert => 0
  | .update => 1
  | .delete => 2
  | .txBegin => 3
  | .txCommit => 4
  | .txRollback => 5
  | .checkpoint => 6
  | .schemaChange => 7
  | .branchOp => 8

inductive ScanStop
  | headerTruncated
  | tornTail (claimed remaining_in_file : Nat)
  | exceedsMaxEntrySize (claimed max_entry_size : Nat)
  | tooManyEntries (max_entries_per_segment : Nat)
  | checksumMismatch (lsn : Lsn) (expected computed : Nat)
deriving DecidableEq

structure ScanOutcome where
  accepted : Nat
  end_lsn : Lsn
  stopped_early : Option (Nat × ScanStop)

structure Accepted where
  lsn : Lsn
  entry_type : Byte
  checksum : Nat
  data : Bytes

section
variable (crc : Bytes → Nat) (config : WalStoreConfig)

def scanRecord (bytes : Bytes) : Except ScanStop Accepted :=
  match bytes with
  | l0::l1::l2::l3::entry_type::body =>
    if body.length+5 < recordHeaderSize then .error .headerTruncated
    else
      let claimed := leValue [l0,l1,l2,l3]
      let lsn := leValue (body.take 8)
      let checksum := leValue ((body.drop 8).take 4)
      let remaining := body.length-12
      if claimed > remaining then .error (.tornTail claimed remaining)
      else if claimed > config.max_segment_size then .error (.exceedsMaxEntrySize claimed config.max_segment_size)
      else
        let data := (body.drop 12).take claimed
        let computed := crc data
        if computed ≠ checksum then .error (.checksumMismatch lsn checksum computed)
        else .ok ⟨lsn,entry_type,checksum,data⟩
  | _ => .error .headerTruncated

/-- The records from a position on, as long as the count allows. A record that fails ends the scan. -/
def scanFrom : Nat → Nat → ScanOutcome → Bytes → ScanOutcome × List Accepted
  | 0, position, outcome, bytes =>
    if bytes = [] then (outcome,[])
    else ({ outcome with stopped_early := some (position,.tooManyEntries config.max_entries_per_segment) },[])
  | left+1, position, outcome, bytes =>
    if bytes = [] then (outcome,[])
    else
      match scanRecord crc config bytes with
      | .error stop => ({ outcome with stopped_early := some (position,stop) },[])
      | .ok record =>
        let size := recordHeaderSize+record.data.length
        let (outcome,records) :=
          scanFrom left (position+size) { outcome with accepted := outcome.accepted+1, end_lsn := record.lsn }
            (bytes.drop size)
        (outcome,record::records)

def scanSegmentRecords (start_lsn : Lsn) (file : Bytes) : ScanOutcome × List Accepted :=
  scanFrom crc config config.max_entries_per_segment segmentHeaderSize ⟨0,start_lsn,none⟩ (file.drop segmentHeaderSize)

structure WalSegmentInfo where
  segment_id : Nat
  start_lsn : Lsn
  end_lsn : Lsn
  entry_count : Nat
  size_bytes : Nat
  is_complete : Bool

/-- The entry count of the header is not read. -/
def loadSegmentMetadata (file : Bytes) : Option WalSegmentInfo :=
  if file.length < segmentHeaderSize then none
  else if leValue (file.take 4) ≠ walMagic then none
  else
    let segment_id := leValue ((file.drop 8).take 8)
    let start_lsn := leValue ((file.drop 16).take 8)
    let (outcome,_) := scanSegmentRecords crc config start_lsn file
    some ⟨segment_id,start_lsn,outcome.end_lsn,outcome.accepted,file.length,true⟩

/-- The transaction id is not stored. -/
def Accepted.toEntry (record : Accepted) : WalEntry :=
  ⟨record.lsn,none,u8ToEntryType record.entry_type,record.data,record.checksum⟩

def insertEntries (entries : Lsn → Option WalEntry) (loaded : List WalEntry) : Lsn → Option WalEntry :=
  loaded.foldl (fun entries e => Function.update entries e.lsn (some e)) entries

def segmentEntries (info : WalSegmentInfo) (file : Bytes) : List WalEntry :=
  (scanSegmentRecords crc config info.start_lsn file).2.map Accepted.toEntry

def loadSegmentEntries (entries : Lsn → Option WalEntry) (file : Bytes) (info : WalSegmentInfo) : Lsn → Option WalEntry :=
  insertEntries entries (segmentEntries crc config info file)

structure SegmentWriter where
  segment_id : Nat
  start_lsn : Lsn
  offset : Nat
  entry_count : Nat

structure Store where
  current_lsn : Lsn
  lsn_index : Lsn → Option Nat
  segments : Nat → Option WalSegmentInfo
  current_segment : Nat
  cache : List WalEntry
  entries : Lsn → Option WalEntry
  min_retained_lsn : Lsn
  writer : Option SegmentWriter
  checkpoint_lsn : Lsn

def Store.new : Store := ⟨0,fun _ => none,fun _ => none,0,[],fun _ => none,0,none,0⟩

/-- What `init` has gathered of the files read so far. -/
structure Gathered where
  store : Store
  max_lsn : Lsn
  max_segment_id : Nat
  min_lsn : Lsn

/-- One segment file. The range query over the entries panics when the range ends before it starts. -/
def loadSegment (g : Gathered) (file : Bytes) : Option Gathered :=
  match loadSegmentMetadata crc config file with
  | none => some g
  | some info =>
    let entries := loadSegmentEntries crc config g.store.entries file info
    if info.end_lsn < info.start_lsn then none
    else
      let lsn_index := fun lsn =>
        if info.start_lsn ≤ lsn ∧ lsn ≤ info.end_lsn ∧ (entries lsn).isSome then some info.segment_id
        else g.store.lsn_index lsn
      let segments := Function.update g.store.segments info.segment_id (some info)
      some {
        store := { g.store with entries := entries, lsn_index := lsn_index, segments := segments }
        max_lsn := max g.max_lsn info.end_lsn
        max_segment_id := max g.max_segment_id info.segment_id
        min_lsn := min g.min_lsn info.start_lsn }

variable (store : Store) (disk : Disk) (entry : WalEntry)

/-- The segment files in the order of the directory, and the checkpoint file. `none` is a panic. -/
def init (dir : List Bytes) (checkpoint : Option Bytes) : Option Store := do
  let g ← dir.foldlM (loadSegment crc config) ⟨store,0,0,u64Max⟩
  let checkpoint_lsn := match checkpoint with
    | some buf => if buf.length < 8 then g.store.checkpoint_lsn else leValue (buf.take 8)
    | none => g.store.checkpoint_lsn
  return { g.store with
    checkpoint_lsn := checkpoint_lsn
    current_lsn := g.max_lsn
    current_segment := g.max_segment_id
    min_retained_lsn := if g.min_lsn ≠ u64Max then g.min_lsn else g.store.min_retained_lsn }

abbrev Disk := Map Nat Bytes

def segmentHeader (segment_id : Nat) (start_lsn : Lsn) (entry_count : Nat) : Bytes :=
  leBytes 4 walMagic ++ leBytes 4 walVersion ++ leBytes 8 segment_id ++ leBytes 8 start_lsn ++ leBytes 8 entry_count

def createSegment (segment_id : Nat) (start_lsn : Lsn) : Disk × SegmentWriter :=
  (disk.insert segment_id (segmentHeader segment_id start_lsn 0),⟨segment_id,start_lsn,segmentHeaderSize,0⟩)

def patch (file : Bytes) (offset : Nat) (bytes : Bytes) : Bytes :=
  file.take offset ++ bytes ++ file.drop (offset+bytes.length)

def closeSegment (writer : SegmentWriter) : Store × Disk :=
  let file := patch ((disk.lookup writer.segment_id).getD []) 24 (leBytes 8 writer.entry_count)
  let info : WalSegmentInfo :=
    ⟨writer.segment_id,writer.start_lsn,store.current_lsn,writer.entry_count,writer.offset,true⟩
  ({ store with segments := Function.update store.segments writer.segment_id (some info) },
    disk.insert writer.segment_id file)

/-- The length is cast to 32 bits. -/
def WalEntry.recordBytes : Bytes :=
  leBytes 4 (entry.data.length%2^32) ++ [entryTypeToU8 entry.entry_type] ++ leBytes 8 entry.lsn ++
    leBytes 4 entry.checksum ++ entry.data

def needsNewSegment : Option SegmentWriter → Bool
  | none => true
  | some w => config.max_entries_per_segment ≤ w.entry_count || config.max_segment_size ≤ w.offset

/-- The writer to append with, in a new segment when the current one is full. -/
def rollOver : Store × Disk × SegmentWriter :=
  match store.writer with
  | some writer =>
    if needsNewSegment config (some writer) then
      let (store,disk) := closeSegment store disk writer
      let (disk,writer) := createSegment disk (store.current_segment+1) entry.lsn
      ({ store with current_segment := store.current_segment+1 },disk,writer)
    else (store,disk,writer)
  | none =>
    let (disk,writer) := createSegment disk (store.current_segment+1) entry.lsn
    ({ store with current_segment := store.current_segment+1 },disk,writer)

/-- The files hold what was written to them. Bytes that a crash finds in the buffer of the writer are a truncation. -/
def writeEntryToDisk : Store × Disk :=
  let (store,disk,writer) := rollOver config store disk entry
  let file := (disk.lookup writer.segment_id).getD [] ++ entry.recordBytes
  let writer := { writer with
    offset := writer.offset+(17+entry.data.length)
    entry_count := writer.entry_count+1 }
  ({ store with
      writer := some writer
      lsn_index := Function.update store.lsn_index entry.lsn (some writer.segment_id) },
    disk.insert writer.segment_id file)

def append (run : Store × Disk) (entry : WalEntry) : Store × Disk :=
  let cache := run.1.cache ++ [entry]
  let store := { run.1 with
    entries := Function.update run.1.entries entry.lsn (some entry)
    cache := cache.drop (cache.length-config.cache_size)
    current_lsn := entry.lsn }
  writeEntryToDisk config store run.2 entry

def appendAll (entries : List WalEntry) : Store × Disk := entries.foldl (append config) (Store.new,∅)

end
end HeliosNano.Replication.WalStore
