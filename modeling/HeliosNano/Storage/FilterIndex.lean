import HeliosNano.Foundation.BitWords
import HeliosNano.Foundation.Extremes
import HeliosNano.Foundation.Runs
import HeliosNano.Sql.Value
import Mathlib.Data.UInt

namespace HeliosNano.Storage.FilterIndex
open Foundation Sql Function

/-- What the hasher, the formats and the comparisons outside answer. `finish` is `DefaultHasher` on all bytes that are written to it;
`trackerBytes` and `filterBytes` are what the two sides write of a value that is a code here. -/
structure Outside where
  finish : Bytes → UInt64
  uuidBytes : Nat → Bytes
  uuidText : Nat → Text
  timestampBytes : Int → Bytes
  dateBytes : Int → Bytes
  dateText : Int → Text
  trackerBytes : Nat → Bytes
  filterBytes : Nat → Bytes
  sameOther : Nat → Nat → Bool
  compareOther : Nat → Nat → Option Ordering
  cmpFiniteNumeric : Text → Text → Option Ordering

section

/-- An integer in two's complement, the low byte first. -/
def leBytes (width : Nat) (n : Int) : Bytes :=
  (List.range width).map fun k => Fin.ofNat 256 ((n/(256^k : Nat))%256).toNat

/-- `Hash` of a `str`. -/
def strBytes (s : Text) : Bytes := (s.flatMap String.utf8EncodeChar).map (fun b => Fin.ofNat 256 b.toNat) ++ [255]

/-- `Hash` of a byte vector: its length is written first. -/
def vecBytes (b : Bytes) : Bytes := leBytes 8 b.length ++ b

def boolBytes (b : Bool) : Bytes := [if b then 1 else 0]

/-- `timestamp_nanos_opt().unwrap_or(0)`. -/
def timestampNanos (nanos : Int) : Int := if i64Min ≤ nanos ∧ nanos ≤ i64Max then nanos else 0

variable (o : Outside)

def trackerInput : Value → Bytes
  | .null => leBytes 8 0
  | .boolean b => boolBytes b
  | .int2 n => leBytes 2 n
  | .int4 n => leBytes 4 n
  | .int8 n => leBytes 8 n
  | .numeric payload => strBytes payload
  | .string s => strBytes s
  | .bytes b => vecBytes b
  | .uuid n => o.uuidBytes n
  | .timestamp nanos => o.timestampBytes nanos
  | .date days => o.dateBytes days
  | .other code => o.trackerBytes code

def filterInput : Value → Bytes
  | .null => leBytes 1 0
  | .boolean b => boolBytes b
  | .int2 n => leBytes 2 n
  | .int4 n => leBytes 4 n
  | .int8 n => leBytes 8 n
  | .numeric payload => strBytes payload
  | .string s => strBytes s
  | .bytes b => vecBytes b
  | .uuid n => strBytes (o.uuidText n)
  | .timestamp nanos => leBytes 8 (timestampNanos nanos)
  | .date days => strBytes (o.dateText days)
  | .other code => o.filterBytes code

def hashSeed1 : Nat := 0x517cc1b727220a95
def hashSeed2 : Nat := 0x7369726564616f72

/-- The tracker's own hashes: each hasher starts with a seed, the second has only the first hash. -/
def hashValue (v : Value) : UInt64 × UInt64 :=
  let h1 := o.finish (leBytes 8 hashSeed1 ++ trackerInput o v)
  (h1,o.finish (leBytes 8 hashSeed2 ++ leBytes 8 h1.toNat))

def hashPair (v : Value) : UInt64 × UInt64 :=
  let h1 := o.finish (filterInput o v)
  (h1,o.finish (leBytes 8 h1.toNat ++ filterInput o v))

/-- Values as their derived `PartialEq` compares them. -/
def valueEq : Value → Value → Bool
  | .other a, .other b => o.sameOther a b
  | a, b => a == b

end

section

/-- A bloom filter: its words, and the numbers of bits and of hashes that it was built with. -/
structure BloomFilter where
  bits : List Nat
  numBits : Nat
  numHashes : Nat
  insertions : Nat
deriving DecidableEq

/-- The sizes that the floating-point formulas give for 10000 elements at a false positive rate of one in a hundred. -/
def defaultNumBits : Nat := 95851
def defaultNumHashes : Nat := 7

namespace BloomFilter

def forDefaultElements : BloomFilter := ⟨List.replicate ((defaultNumBits+63)/64) 0,defaultNumBits,defaultNumHashes,0⟩

def getBitIndex (f : BloomFilter) (h : UInt64 × UInt64) (i : Nat) : Nat := (h.1 + UInt64.ofNat i * h.2).toNat % f.numBits

def checkValue (o : Outside) (f : BloomFilter) (v : Value) : Bool :=
  (List.range f.numHashes).all fun i => getBit f.bits (f.getBitIndex (hashPair o v) i)

end BloomFilter

structure FilterIndexConfig where
  numHashes : Nat
  bloomBits : Nat
  enableBloom : Bool
  enableZoneMap : Bool
deriving DecidableEq

def FilterIndexConfig.default : FilterIndexConfig := ⟨7,1000000,true,true⟩

/-- Masks to merge into the words of a filter, by the index of the word. -/
structure BloomFilterDelta where
  bitsToSet : List (Nat × Nat)
  rowsAdded : Nat
deriving DecidableEq

namespace BloomFilterDelta

def new : BloomFilterDelta := ⟨[],0⟩

def merge (d other : BloomFilterDelta) : BloomFilterDelta := ⟨d.bitsToSet ++ other.bitsToSet,d.rowsAdded+other.rowsAdded⟩

def applyTo (d : BloomFilterDelta) (f : BloomFilter) : BloomFilter :=
  { f with bits := orWords f.bits d.bitsToSet, insertions := f.insertions+d.rowsAdded }

end BloomFilterDelta

variable (o : Outside) (config : FilterIndexConfig)

def deltaPositions (v : Value) : List Nat :=
  let h := hashValue o v
  (List.range config.numHashes).map fun k => ((h.1 + UInt64.ofNat k)*h.2).toNat % config.bloomBits

def computeBloomDelta (v : Value) : BloomFilterDelta :=
  ⟨(deltaPositions o config v).map fun bitPos => (bitPos/64,bitMask bitPos),1⟩

end

section
variable (o : Outside)

def cmpNumericPushdown (a b : Text) : Option Ordering :=
  match specialOf a, specialOf b with
  | none, none => o.cmpFiniteNumeric a b
  | sa, sb => some (cmp (rankOf sa) (rankOf sb))

/-- `ValueRange::compare_values`, which knows nothing of dates. The values that are codes here are compared outside. -/
def compareValues : Value → Value → Option Ordering
  | .null, .null => some .eq
  | .null, _ => some .lt
  | _, .null => some .gt
  | .boolean a, .boolean b => some (cmp a b)
  | .int2 a, .int2 b | .int2 a, .int4 b | .int2 a, .int8 b
  | .int4 a, .int2 b | .int4 a, .int4 b | .int4 a, .int8 b
  | .int8 a, .int2 b | .int8 a, .int4 b | .int8 a, .int8 b => some (cmp a b)
  | .string a, .string b => some (cmp a b)
  | .bytes a, .bytes b => some (cmp a b)
  | .uuid a, .uuid b => some (cmp a b)
  | .timestamp a, .timestamp b => some (cmp a b)
  | .numeric a, .numeric b => cmpNumericPushdown o a b
  | .other a, .other b => o.compareOther a b
  | _, _ => none

structure ValueRange where
  min : Option Value
  max : Option Value
  hasNulls : Bool
  count : Nat
  nullCount : Nat
deriving DecidableEq

namespace ValueRange

def empty : ValueRange := ⟨none,none,false,0,0⟩

def update (range : ValueRange) (v : Value) : ValueRange :=
  if v = .null then { range with count := range.count+1, hasNulls := true, nullCount := range.nullCount+1 }
  else
    { range with count := range.count+1, min := lower (compareValues o) range.min v, max := upper (compareValues o) range.max v }

/-- A comparison that has no answer excludes the value. -/
def mightContain (range : ValueRange) (v : Value) : Bool :=
  if v = .null then range.hasNulls
  else
    match range.min, range.max with
    | some min, some max =>
      ((compareValues o v min).map (· != .lt)).getD false && ((compareValues o v max).map (· != .gt)).getD false
    | _, _ => false

end ValueRange

structure ZoneColumnUpdate where
  columnName : String
  value : Value
  isNull : Bool
  isNull_eq : isNull = decide (value = .null)
deriving DecidableEq

def ZoneColumnUpdate.new (columnName : String) (value : Value) : ZoneColumnUpdate := ⟨columnName,value,value = .null,rfl⟩

structure ZoneMapDelta where
  columnUpdates : List ZoneColumnUpdate
  rowsAffected : Nat
deriving DecidableEq

def ZoneMapDelta.valuesOf (d : ZoneMapDelta) (column : String) : List Value :=
  (d.columnUpdates.filter fun u => !u.isNull && u.columnName == column).map (·.value)

/-- A block; one that has not been pushed yet is the same as a new one. -/
structure BlockZoneMap where
  rowCount : Nat
  columns : String → Option ValueRange

def BlockZoneMap.new : BlockZoneMap := ⟨0,fun _ => none⟩

/-- One update of a delta is merged; NULLs are passed over. -/
def BlockZoneMap.applyUpdate (columns : String → Option ValueRange) (u : ZoneColumnUpdate) : String → Option ValueRange :=
  if u.isNull then columns
  else update columns u.columnName (some (((columns u.columnName).getD .empty).update o u.value))

def BlockZoneMap.apply (block : BlockZoneMap) (d : ZoneMapDelta) : BlockZoneMap :=
  ⟨block.rowCount+d.rowsAffected,d.columnUpdates.foldl (applyUpdate o) block.columns⟩

end

abbrev Tuple := List Value

/-- The delta of one call. `bloomDeltas` is the map by column in its iteration order. -/
structure FilterDelta where
  bloomDeltas : List (String × BloomFilterDelta)
  zoneDelta : Option (Nat × ZoneMapDelta)

structure TableFilterDeltas where
  bloomDeltas : String → Option BloomFilterDelta
  zoneDeltas : Nat → Option ZoneMapDelta
  deltaCount : Nat

def TableFilterDeltas.new : TableFilterDeltas := ⟨fun _ => none,fun _ => none,0⟩

def blockSize : Nat := 1000

def cells (columns : List String) (tuple : Tuple) : List (String × Value) := columns.zip tuple

/-- `HashMap::insert`. -/
def insertDelta (deltas : List (String × BloomFilterDelta)) (column : String) (d : BloomFilterDelta) :
    List (String × BloomFilterDelta) :=
  deltas.filter (fun e => e.1 ≠ column) ++ [(column,d)]

section
variable (o : Outside) (config : FilterIndexConfig)

def bloomDeltasOf (written : List (String × Value)) : List (String × BloomFilterDelta) :=
  written.foldl (fun deltas cell =>
    if cell.2 = .null then deltas else insertDelta deltas cell.1 (computeBloomDelta o config cell.2)) []

variable (columns : List String) (rowId : RowId) (tuple : Tuple)

def zoneDeltaOf : Option (Nat × ZoneMapDelta) :=
  if config.enableZoneMap then
    some (rowId/blockSize,⟨(cells columns tuple).map fun cell => .new cell.1 cell.2,1⟩)
  else none

/-- The cells of a new tuple whose values are not those of the old one. -/
def changedCells (old new : Tuple) : List (String × Value) :=
  ((cells columns new).zipIdx.filter fun e => !((old[e.2]?).any fun u => valueEq o u e.1.2)).map (·.1)

def insertDeltaOf : FilterDelta :=
  ⟨if config.enableBloom then bloomDeltasOf o config (cells columns tuple) else [],zoneDeltaOf config columns rowId tuple⟩

def updateDeltaOf (old new : Tuple) : FilterDelta :=
  ⟨if config.enableBloom then bloomDeltasOf o config (changedCells o columns old new) else [],
    zoneDeltaOf config columns rowId new⟩

def deleteDeltaOf : FilterDelta :=
  ⟨[],zoneDeltaOf config columns rowId tuple⟩

def mergeBloom (deltas : String → Option BloomFilterDelta) (e : String × BloomFilterDelta) : String → Option BloomFilterDelta :=
  update deltas e.1 (some (((deltas e.1).getD .new).merge e.2))

def mergeZone (deltas : Nat → Option ZoneMapDelta) : Option (Nat × ZoneMapDelta) → Nat → Option ZoneMapDelta
  | none => deltas
  | some (blockId,d) =>
    let existing := (deltas blockId).getD ⟨[],0⟩
    update deltas blockId
      (some ⟨existing.columnUpdates ++ d.columnUpdates,existing.rowsAffected+d.rowsAffected⟩)

/-- `buffer_delta` on the buffer of the table. -/
def TableFilterDeltas.buffer (buffered : TableFilterDeltas) (delta : FilterDelta) : TableFilterDeltas :=
  ⟨delta.bloomDeltas.foldl mergeBloom buffered.bloomDeltas,mergeZone buffered.zoneDeltas delta.zoneDelta,
    buffered.deltaCount+1⟩

end

/-- The tracker, the guards of bulk loads by the suspensions that they hold, what the worker keeps, and the live rows of the tables.
`tracked` are the values that tracked calls have had for a column in a block. -/
structure World where
  tableDeltas : String → Option TableFilterDeltas
  suspendedTables : String → Option Nat
  rowsAffected : Nat → Nat
  guards : Nat → Option String
  nextSuspension : Nat
  enabled : Bool
  bloomFilters : String → String → Option BloomFilter
  zoneMaps : String → Nat → BlockZoneMap
  rows : String → RowId → Option Tuple
  tracked : String → Nat → String → List Value

def World.init : World :=
  ⟨fun _ => none,fun _ => none,fun _ => 0,fun _ => none,0,true,fun _ _ => none,fun _ _ => .new,fun _ _ => none,
    fun _ _ _ => []⟩

inductive Action
  | insert (table : String) (rowId : RowId) (tuple : Tuple)
  | update (table : String) (rowId : RowId) (tuple : Tuple)
  | delete (table : String) (rowId : RowId)
  | suspend (table : String)
  | dropGuard (suspension : Nat)
  | setEnabled (enabled : Bool)
  | consolidate (table : String)
deriving DecidableEq

namespace World

variable (w : World) (table : String)

def shouldTrack : Bool := w.enabled && (w.suspendedTables table).isNone

def recordSuspendedRow : World :=
  match w.suspendedTables table with
  | none => w
  | some suspension => { w with rowsAffected := update w.rowsAffected suspension (w.rowsAffected suspension + 1) }

def setRow (rowId : RowId) (tuple : Option Tuple) : World :=
  { w with rows := update w.rows table (update (w.rows table) rowId tuple) }

def bufferDelta (delta : FilterDelta) : World :=
  { w with tableDeltas := update w.tableDeltas table (some (((w.tableDeltas table).getD .new).buffer delta)) }

/-- The values of the column that a zone delta carries for the block. -/
def valuesOf (zoneDelta : Option (Nat × ZoneMapDelta)) (blockId : Nat) (column : String) : List Value :=
  match zoneDelta with
  | none => []
  | some (b,d) => if b = blockId then d.valuesOf column else []

def noteTracked (zoneDelta : Option (Nat × ZoneMapDelta)) : World :=
  { w with tracked := update w.tracked table fun b column => w.tracked table b column ++ valuesOf zoneDelta b column }

/-- The part that the three calls share: a call that is not tracked is only counted. -/
def call (delta : FilterDelta) : World :=
  if w.shouldTrack table then (w.bufferDelta table delta).noteTracked table delta.zoneDelta
  else w.recordSuspendedRow table

def suspendTable : World :=
  { w with
    suspendedTables := update w.suspendedTables table (some w.nextSuspension)
    rowsAffected := update w.rowsAffected w.nextSuspension 0
    guards := update w.guards w.nextSuspension (some table)
    nextSuspension := w.nextSuspension+1 }

/-- The rebuild that is asked for is the removal of the pending deltas. -/
def markForRebuild : World :=
  { w with tableDeltas := update w.tableDeltas table none }

/-- `Drop` of a guard: whatever suspends the table is removed. -/
def dropGuard (suspension : Nat) : World :=
  match w.guards suspension with
  | none => w
  | some table =>
    let resumed := { w with
      guards := update w.guards suspension none
      suspendedTables := update w.suspendedTables table none }
    if 0 < w.rowsAffected suspension then resumed.markForRebuild table else resumed

def mergeFilters (filters : String → Option BloomFilter) (deltas : String → Option BloomFilterDelta) : String → Option BloomFilter :=
  fun column =>
    match deltas column with
    | none => filters column
    | some d => some (d.applyTo ((filters column).getD .forDefaultElements))

def mergeBlocks (o : Outside) (blocks : Nat → BlockZoneMap) (deltas : Nat → Option ZoneMapDelta) : Nat → BlockZoneMap :=
  fun blockId =>
    match deltas blockId with
    | none => blocks blockId
    | some d => (blocks blockId).apply o d

def consolidateTable (o : Outside) (w : World) (table : String) : World :=
  match w.tableDeltas table with
  | none => w
  | some deltas =>
    { w with
      tableDeltas := update w.tableDeltas table none
      bloomFilters := update w.bloomFilters table (mergeFilters (w.bloomFilters table) deltas.bloomDeltas)
      zoneMaps := update w.zoneMaps table (mergeBlocks o (w.zoneMaps table) deltas.zoneDeltas) }

variable (o : Outside) (config : FilterIndexConfig) (schema : String → List String)

/-- The engine writes a row and makes the call with the tuples before and after. -/
def step (w : World) : Action → World
  | .insert table rowId tuple =>
    (w.setRow table rowId (some tuple)).call table (insertDeltaOf o config (schema table) rowId tuple)
  | .update table rowId tuple =>
    match w.rows table rowId with
    | none => w
    | some old => (w.setRow table rowId (some tuple)).call table (updateDeltaOf o config (schema table) rowId old tuple)
  | .delete table rowId =>
    match w.rows table rowId with
    | none => w
    | some old => (w.setRow table rowId none).call table (deleteDeltaOf config (schema table) rowId old)
  | .suspend table => w.suspendTable table
  | .dropGuard suspension => w.dropGuard suspension
  | .setEnabled enabled => { w with enabled }
  | .consolidate table => w.consolidateTable o table

end World

end HeliosNano.Storage.FilterIndex
