import HeliosNano.Storage.CommitEffect
import HeliosNano.Storage.CopyMarkers

namespace HeliosNano.Storage
open Foundation List Option RowHistory CopyMarkers Map

/-- How the columns of the table are stored. Columnar tables are not modelled. -/
inductive ColumnStorageMode
  | default
  | dictionary
  | contentAddressed
deriving DecidableEq

/-- The engine's side of a COPY, with the outcomes of the serializer and of the claim of
the unique index keys. -/
structure CopyContext where
  fastDmlRequiresLogicalWal : Bool
  schema : List ColumnStorageMode
  copyVrangeEnabled : Bool
  keyManager : Option KeyManager
  serializeCounter : RowId → Except String Bytes
  claim : Except Error Unit

/-- The least and the greatest row id of a batch. -/
def versionRange (prepared : List (RowId × Bytes)) : RowId × RowId :=
  (prepared.foldl (fun first entry => if entry.1 < first then entry.1 else first) u64Max,
    prepared.foldl (fun last entry => if last < entry.1 then entry.1 else last) 0)

namespace CopyContext
variable (ctx : CopyContext) (table : TableName)

/-- One row; with a timestamp also its version and index event. -/
def copyRow (versionTs : Option Timestamp) (entry : RowId × Bytes) : Except Error WriteBatch := do
  let stored ← sealStored ctx.keyManager (dataKey table.bytes entry.1) entry.2
  match versionTs with
  | none => .ok [.put (dataKey table.bytes entry.1) stored]
  | some ts => do
    let storedVersion ← sealStored ctx.keyManager (versionKey table.bytes entry.1 ts) entry.2
    .ok [.put (dataKey table.bytes entry.1) stored,.put (versionKey table.bytes entry.1 ts) storedVersion,
      .put (indexKey table.bytes entry.1 ts) (beBytes 8 ts)]

def stageRowCounter (finalRowId : RowId) : Except Error WriteBatch :=
  if 0 < finalRowId then
    match ctx.serializeCounter finalRowId with
    | .error message => .error (.storage ("Failed to serialize counter: " ++ message))
    | .ok value => do
      let stored ← sealStored ctx.keyManager (counterPrefix ++ table.bytes) value
      .ok [.put (counterPrefix ++ table.bytes) stored]
  else .ok []

/-- Versions go through a marker when the rows have a timestamp and markers are on. -/
def useVrange (commitTs : Option Timestamp) : Bool := commitTs.isSome && ctx.copyVrangeEnabled

def copyBatch (prepared : List (RowId × Bytes)) (commitTs : Option Timestamp) : Except Error WriteBatch := do
  let rows ← stageAll (ctx.copyRow table (if ctx.useVrange commitTs then none else commitTs)) prepared
  let marker := if ctx.useVrange commitTs then
    [.put (markerKey table.bytes (versionRange prepared).1 (versionRange prepared).2)
      (beBytes 8 (commitTs.getD 0))] else []
  let counter ← ctx.stageRowCounter table ((prepared.getLast?.map (·.1)).getD 0)
  .ok (rows ++ (marker ++ counter))

/-- The whole call. The marker is published once its batch is written. -/
def insertPreparedTuplesFastBatch (m : SnapshotManager) (db : Db) (prepared : List (RowId × Bytes))
    (commitTs : Option Timestamp) : SnapshotManager × Db × Except Error Nat :=
  if prepared.isEmpty then (m,db,.ok 0)
  else if ctx.fastDmlRequiresLogicalWal then
    (m,db,.error (.internal "fast batch insert requires Transaction path when logical WAL is active"))
  else if ctx.schema.any (fun mode => mode == .dictionary || mode == .contentAddressed) then
    (m,db,.error (.internal "fast batch insert direct WriteBatch requires default or columnar row storage"))
  else match ctx.copyBatch table prepared commitTs with
    | .error error => (m,db,.error error)
    | .ok batch =>
      match ctx.claim with
      | .error error => (m,db,.error error)
      | .ok () =>
        match db.write batch with
        | .error message => (m,db,.error (.storage ("Fast batch insert failed: " ++ message)))
        | .ok db =>
          let m := if ctx.useVrange commitTs then
            m.recordCopyMarker table.bytes (versionRange prepared).1 (versionRange prepared).2 (commitTs.getD 0) else m
          (m,db,.ok prepared.length)

/-- The parts of a COPY that do not depend on what the rows hold. -/
def copies (prepared : List (RowId × Bytes)) : Bool :=
  !prepared.isEmpty && !ctx.fastDmlRequiresLogicalWal &&
    !ctx.schema.any (fun mode => mode == .dictionary || mode == .contentAddressed) &&
    (ctx.stageRowCounter table ((prepared.getLast?.map (·.1)).getD 0)).isOk && ctx.claim.isOk

end CopyContext
open CopyContext

def Contiguous (prepared : List (RowId × Bytes)) : Prop :=
  ∃ first, prepared.map (·.1) = List.range' first prepared.length

theorem foldl_least {α : Type} [LinearOrder α] (f : RowId → α) (prepared : List (RowId × Bytes)) (start : RowId) :
    (f (prepared.foldl (fun best entry => if f entry.1 < f best then entry.1 else best) start) ≤ f start ∧ ∀ entry ∈ prepared,
        f (prepared.foldl (fun best entry => if f entry.1 < f best then entry.1 else best) start) ≤ f entry.1) ∧
    (prepared.foldl (fun best entry => if f entry.1 < f best then entry.1 else best) start = start ∨
      prepared.foldl (fun best entry => if f entry.1 < f best then entry.1 else best) start ∈ prepared.map (·.1)) := by
  induction prepared generalizing start with
  | nil => simp
  | cons entry rest ih =>
    obtain ⟨⟨hle,ha⟩,hin⟩ := ih (if f entry.1 < f start then entry.1 else start)
    rw [foldl_cons,forall_mem_cons,map_cons,mem_cons]
    by_cases hlt : f entry.1 < f start
    · rw [if_pos hlt] at hle ha hin ⊢
      exact ⟨⟨hle.trans hlt.le,hle,ha⟩,.inr hin⟩
    · rw [if_neg hlt] at hle ha hin ⊢
      exact ⟨⟨hle,hle.trans (le_of_not_gt hlt),ha⟩,hin.imp_right .inr⟩

theorem versionRange_least (prepared : List (RowId × Bytes)) :
    ((versionRange prepared).1 ≤ u64Max ∧ ∀ entry ∈ prepared, (versionRange prepared).1 ≤ entry.1) ∧
      ((versionRange prepared).1 = u64Max ∨ (versionRange prepared).1 ∈ prepared.map (·.1)) :=
  foldl_least id prepared u64Max

theorem versionRange_greatest (prepared : List (RowId × Bytes)) :
    (0 ≤ (versionRange prepared).2 ∧ ∀ entry ∈ prepared, entry.1 ≤ (versionRange prepared).2) ∧
      ((versionRange prepared).2 = 0 ∨ (versionRange prepared).2 ∈ prepared.map (·.1)) :=
  foldl_least OrderDual.toDual prepared 0

variable {prepared : List (RowId × Bytes)}

theorem mem_versionRange (hne : prepared ≠ []) (hc : Contiguous prepared)
    (hle : ∀ entry ∈ prepared, entry.1 ≤ u64Max) (row : RowId) :
    (versionRange prepared).1 ≤ row ∧ row ≤ (versionRange prepared).2 ↔ row ∈ prepared.map (·.1) := by
  obtain ⟨⟨-,hls⟩,hfs⟩ := versionRange_least prepared
  obtain ⟨⟨-,hg⟩,hl⟩ := versionRange_greatest prepared
  constructor
  · obtain ⟨first,hi⟩ := hc
    have hp : 0 < prepared.length := length_pos_iff.mpr hne
    have hf : first ≤ u64Max := by
      have hm : first ∈ prepared.map (·.1) := by
        rw [hi,mem_range'_1]
        omega
      obtain ⟨entry,he,heq⟩ := mem_map.mp hm
      exact heq ▸ hle entry he
    rintro ⟨hlo,hhi⟩
    rw [hi,mem_range'_1]
    refine ⟨?_,?_⟩
    · refine Nat.le_trans ?_ hlo
      rcases hfs with heq | hm
      · rw [heq]
        exact hf
      · rw [hi,mem_range'_1] at hm
        exact hm.1
    · refine Nat.lt_of_le_of_lt hhi ?_
      rcases hl with heq | hm
      · rw [heq]
        omega
      · rw [hi,mem_range'_1] at hm
        exact hm.2
  · intro hm
    obtain ⟨entry,he,rfl⟩ := mem_map.mp hm
    exact ⟨hls entry he,hg entry he⟩

theorem versionRange_le_u64Max (hle : ∀ entry ∈ prepared, entry.1 ≤ u64Max) :
    (versionRange prepared).1 ≤ u64Max ∧ (versionRange prepared).2 ≤ u64Max := by
  refine ⟨(versionRange_least prepared).1.1,?_⟩
  rcases (versionRange_greatest prepared).2 with heq | hm
  · rw [heq]
    exact Nat.zero_le _
  · obtain ⟨entry,he,heq⟩ := mem_map.mp hm
    rw [← heq]
    exact hle entry he

/-- A COPY whose cipher works. -/
structure CopyContext.Sound (ctx : CopyContext) (km : Option KeyManager) : Prop where
  sealing : SoundSeal km
  keyManager : ctx.keyManager = km

def copiedValue (other : TableName) (prepared : List (RowId × Bytes)) (table : TableName) (row : RowId) : Option Bytes :=
  if other.bytes = table.bytes then (prepared.find? fun entry => entry.1 == row).map (·.2) else none

/-- A copied row has a version from the timestamp of the batch on, whatever its table. -/
def RowHistory.copy (h : RowHistory) (ts : Timestamp) : Option Bytes → RowHistory
  | none => h
  | some value => h.put true ts value

theorem Contiguous.nodup (h : Contiguous prepared) : (prepared.map (·.1)).Nodup := by
  obtain ⟨first,hi⟩ := h
  rw [hi]
  exact nodup_range'

variable {row : RowId} {table : TableName}

theorem copiedValue_of_mem (hnd : (prepared.map (·.1)).Nodup)
    {value : Bytes} (h : (row,value) ∈ prepared) : copiedValue table prepared table row = some value := by
  obtain ⟨before,after,rfl,hb,-⟩ := exists_split_of_nodup_keys hnd h
  have hn : before.find? (fun entry => entry.1 == row) = none := by
    rw [find?_eq_none]
    intro entry he heq
    exact hb entry he (by simpa using heq)
  simp [copiedValue,find?_append,hn]

theorem copiedValue_eq_none {other : TableName}
    (h : ¬(other = table ∧ row ∈ prepared.map (·.1))) : copiedValue other prepared table row = none := by
  unfold copiedValue
  split
  next ht =>
    have hn : prepared.find? (fun entry => entry.1 == row) = none := by
      rw [find?_eq_none]
      intro entry he heq
      exact h ⟨TableName.ext ht,mem_map.mpr ⟨entry,he,by simpa using heq⟩⟩
    rw [hn]
    rfl
  · rfl

section
variable {km : Option KeyManager} {m : SnapshotManager} {store : Store} {table other : TableName} {row : RowId}
  {h : RowHistory} {ts : Timestamp} {ctx : CopyContext} {prepared : List (RowId × Bytes)}

theorem copyRow_ok (hc : ctx.Sound km) (other : TableName) (versionTs : Option Timestamp) (entry : RowId × Bytes) :
    ∃ stored storedVersion, openOwned km stored = entry.2 ∧ openOwned km storedVersion = entry.2 ∧
      ctx.copyRow other versionTs entry = .ok (.put (dataKey other.bytes entry.1) stored ::
        match versionTs with
        | none => []
        | some ts => [.put (versionKey other.bytes entry.1 ts) storedVersion,
            .put (indexKey other.bytes entry.1 ts) (encodeVersionIndexValue ts false)]) := by
  obtain ⟨stored,hs,ho⟩ := hc.sealing.seal_open (dataKey other.bytes entry.1) entry.2
  cases versionTs with
  | none => exact ⟨stored,stored,ho,ho,by simp [copyRow,hc.keyManager,hs,bind,Except.bind]⟩
  | some ts =>
    obtain ⟨storedVersion,hv,hov⟩ := hc.sealing.seal_open (versionKey other.bytes entry.1 ts) entry.2
    refine ⟨stored,storedVersion,ho,hov,?_⟩
    simp [copyRow,hc.keyManager,hs,hv,bind,Except.bind,encodeVersionIndexValue]

theorem copyRow_other (hc : ctx.Sound km) (ha : ¬Aliases other.bytes table.bytes row)
    (versionTs : Option Timestamp) (entry : RowId × Bytes) (hne : ¬(other = table ∧ entry.1 = row)) :
    ∃ ops, ctx.copyRow other versionTs entry = .ok ops ∧ Avoids table row ops := by
  obtain ⟨stored,storedVersion,-,-,hr⟩ := copyRow_ok hc other versionTs entry
  refine ⟨_,hr,fun op hop => ?_⟩
  rcases mem_cons.mp hop with rfl | hop
  · exact not_rowKey_dataKey hne
  cases versionTs with
  | none => simp at hop
  | some ts =>
    rcases mem_cons.mp hop with rfl | hop
    · exact not_rowKey_versionKey hne ts
    · rw [mem_singleton.mp hop]
      exact not_rowKey_indexKey hne ha ts

variable {batch : WriteBatch}

theorem keepsMeta_copyRow {versionTs : Option Timestamp} {entry : RowId × Bytes}
    (hc : ctx.Sound km) (hb : ctx.copyRow other versionTs entry = .ok batch) : KeepsMeta batch := by
  obtain ⟨stored,storedVersion,-,-,hr⟩ := copyRow_ok hc other versionTs entry
  rw [hb,Except.ok.injEq] at hr
  rw [hr]
  refine .cons .data (not_isMeta (by simp)) (prefix_append _ _) ?_
  cases versionTs with
  | none => exact inSpaces_nil
  | some ts =>
    exact (isVersion_record (prefix_append _ _) (indexLead_of_indexPrefix (prefix_append _ _)) _ _).keepsMeta

theorem isLog_stageRowCounter {finalRowId : RowId}
    (hb : ctx.stageRowCounter other finalRowId = .ok batch) : InSpaces Keyspace.IsLog batch := by
  unfold stageRowCounter at hb
  split at hb
  · split at hb
    · cases hb
    · obtain ⟨stored,-,hb⟩ := bind_eq_ok.mp hb
      cases hb
      exact .cons .counter (.inl rfl) (prefix_append _ _) inSpaces_nil
  · cases hb
    exact inSpaces_nil

variable (hr : Represents km m store table row .empty)
include hr

theorem Represents.fresh : Indexed km m store table row .empty ∧ ∀ e elided, ¬HasEvent store table row e elided := by
  rcases hr.versions with ⟨_,_,he,-⟩ | hi
  · simp [empty] at he
  · refine ⟨hi,fun e elided hev => ?_⟩
    obtain ⟨value,hm⟩ := hi.recorded e elided hev
    simp [empty] at hm

theorem Represents.copyRow_indexed (hts : ts < versionValueElidedFlag)
    {stored storedVersion value : Bytes} (ho : openOwned km stored = value) (hov : openOwned km storedVersion = value) :
    Represents km m (store.write [.put (dataKey table.bytes row) stored,.put (versionKey table.bytes row ts) storedVersion,
        .put (indexKey table.bytes row ts) (encodeVersionIndexValue ts false)]) table row (empty.put true ts value) ∧
    ∀ e, ¬HasEvent (store.write [.put (dataKey table.bytes row) stored,.put (versionKey table.bytes row ts) storedVersion,
        .put (indexKey table.bytes row ts) (encodeVersionIndexValue ts false)]) table row e true := by
  -- First the row alone, then its version.
  have hm := hr.materialized_of_empty rfl
  have hd : ((store.write [.put (dataKey table.bytes row) stored]).lookup (dataKey table.bytes row)) = some stored := by
    simp [write_cons,lookup_apply_put]
  have hs : ∀ key, RowKey table row key → key ≠ dataKey table.bytes row →
      (store.write [.put (dataKey table.bytes row) stored]).lookup key = store.lookup key := by
    intro key _ hne
    rw [write_cons,write_nil,lookup_apply_put,if_neg hne]
  have hrc : Records (store.write [.put (dataKey table.bytes row) stored]) (store.write [.put (dataKey table.bytes row) stored,
      .put (versionKey table.bytes row ts) storedVersion,
      .put (indexKey table.bytes row ts) (encodeVersionIndexValue ts false)]) table row ts (some storedVersion) :=
    records_write hts storedVersion
  have hp := hm.setData hr.ordered hr.bounded (some value) hs (by rw [hd,map_some,ho])
  have hno : ∀ e elided, ¬HasEvent (store.write [.put (dataKey table.bytes row) stored]) table row e elided := by
    intro e elided hev
    unfold HasEvent at hev
    rw [indexKey,hs _ (.inr (.inr (prefix_append _ _))) (index_range_ne_dataKey _ _ _ _ _)] at hev
    exact hr.fresh.2 e elided hev
  refine ⟨⟨hrc.clean hp.clean,by simp [Ordered,put,empty],?_,?_,.inr ⟨?_,?_,?_⟩⟩,?_⟩
  · simpa [put,empty] using hts
  · simp [write_cons,lookup_apply_put,dataKey_ne_indexKey,dataKey_ne_versionKey,ho,put]
  · intro e elided hev
    rw [hrc.hasEvent] at hev
    by_cases he : e = ts
    · exact ⟨value,by simp [put,he]⟩
    · rw [if_neg he] at hev
      exact absurd hev (hno e elided)
  · intro event he
    obtain rfl : event = (ts,value) := by simpa [put,empty] using he
    exact .inl (hrc.hasCopy rfl hov)
  · intro hn
    cases hn
  · intro e hev
    rw [hrc.hasEvent] at hev
    by_cases he : e = ts
    · simp [he] at hev
    · rw [if_neg he] at hev
      exact hno e true hev

omit hr

theorem copyRows_cases (table : TableName) (row : RowId) (hc : ctx.Sound km) (hal : ¬Aliases other.bytes table.bytes row)
    (hnd : (prepared.map (·.1)).Nodup) (versionTs : Option Timestamp) :
    ∃ rows, stageAll (ctx.copyRow other versionTs) prepared = .ok rows ∧ KeepsMeta rows ∧
      ((¬(other = table ∧ row ∈ prepared.map (·.1)) ∧ Avoids table row rows) ∨
        ∃ value before own after, other = table ∧ (row,value) ∈ prepared ∧ rows = before ++ (own ++ after) ∧
          Avoids table row before ∧ Avoids table row after ∧ ctx.copyRow table versionTs (row,value) = .ok own) := by
  have hm : ∀ rows, stageAll (ctx.copyRow other versionTs) prepared = .ok rows → KeepsMeta rows := fun rows hr =>
    stageAll_inSpaces (fun entry _ own ho => keepsMeta_copyRow hc ho) hr
  by_cases hin : other = table ∧ row ∈ prepared.map (·.1)
  · obtain ⟨rfl,hmm⟩ := hin
    obtain ⟨⟨row',value⟩,he,rfl⟩ := mem_map.mp hmm
    obtain ⟨before,after,hsp,hb,haf⟩ := exists_split_of_nodup_keys hnd he
    obtain ⟨_,_,-,-,ho⟩ := copyRow_ok hc other versionTs (row',value)
    obtain ⟨first,last,hs,hfa,hla⟩ := stageAll_one (ctx.copyRow other versionTs)
      (fun y hy => copyRow_other hc hal versionTs y fun hsame => hb y hy hsame.2)
      (fun y hy => copyRow_other hc hal versionTs y fun hsame => haf y hy hsame.2) ho
    rw [← hsp] at hs
    exact ⟨_,hs, hm _ hs,.inr ⟨value,first,_,last,rfl,he,rfl,hfa,hla,ho⟩⟩
  · obtain ⟨rows,hr,ha⟩ := stageAll_avoids (ctx.copyRow other versionTs) prepared fun y hy =>
      copyRow_other hc hal versionTs y fun hsame => hin ⟨hsame.1,mem_map.mpr ⟨y,hy,hsame.2⟩⟩
    exact ⟨rows,hr, hm _ hr,.inl ⟨hin,ha⟩⟩

theorem Represents.copyRows_indexed (hr : Represents km m store table row h) (hc : ctx.Sound km)
    (hal : ¬Aliases other.bytes table.bytes row) (hnd : (prepared.map (·.1)).Nodup)
    (hf : other = table → row ∈ prepared.map (·.1) → h = .empty) (hts : ts < versionValueElidedFlag) :
    ∃ rows, stageAll (ctx.copyRow other (some ts)) prepared = .ok rows ∧ KeepsMeta rows ∧ ∀ tail, Avoids table row tail →
        Represents km m (store.write (rows ++ tail)) table row (h.copy ts (copiedValue other prepared table row)) ∧
        ∀ e, HasEvent (store.write (rows ++ tail)) table row e true → HasEvent store table row e true := by
  obtain ⟨rows,hrs, hmt,hcs⟩ := copyRows_cases table row hc hal hnd (some ts)
  refine ⟨rows,hrs, hmt,fun tail htl => ?_⟩
  rcases hcs with ⟨hin,ha⟩ | ⟨value,before,own,after,rfl,hm,rfl,hba,haa,how⟩
  · have hs : ∀ key, RowKey table row key → (store.write (rows ++ tail)).lookup key = store.lookup key :=
      fun key hk => (ha.append htl).lookup hk
    rw [copiedValue_eq_none hin]
    exact ⟨hr.congr hs rfl,fun e hev => (HasEvent.congr hs).mp hev⟩
  · obtain rfl := hf rfl (mem_map.mpr ⟨_,hm,rfl⟩)
    obtain ⟨stored,storedVersion,ho,hov,hrw⟩ := copyRow_ok hc other (some ts) (row,value)
    rw [how,Except.ok.injEq] at hrw
    subst hrw
    obtain ⟨hrp,hno⟩ := hr.copyRow_indexed hts ho hov
    rw [copiedValue_of_mem hnd hm,append_assoc,append_assoc]
    exact represents_own hba (haa.append htl) hrp fun e hev => absurd hev (hno e)

theorem Represents.copyRows_marked (hr : Represents km m store table row h) (m' : SnapshotManager) (hc : ctx.Sound km)
    (hal : ¬Aliases other.bytes table.bytes row) (hnd : (prepared.map (·.1)).Nodup)
    (hf : other = table → row ∈ prepared.map (·.1) → h = .empty) (hts : ts < versionValueElidedFlag)
    (hm' : m'.copyMarkers.coveringTs table.bytes row = (m.copyMarkers.coveringTs table.bytes row).or
      (if other.bytes = table.bytes ∧ row ∈ prepared.map (·.1) then some ts else none)) :
    ∃ rows, stageAll (ctx.copyRow other none) prepared = .ok rows ∧ KeepsMeta rows ∧ ∀ tail, Avoids table row tail →
        Represents km m' (store.write (rows ++ tail)) table row (h.copy ts (copiedValue other prepared table row)) ∧
        ∀ e, HasEvent (store.write (rows ++ tail)) table row e true → HasEvent store table row e true := by
  obtain ⟨rows,hrs, hmt,hcs⟩ := copyRows_cases table row hc hal hnd none
  refine ⟨rows,hrs, hmt,fun tail htl => ?_⟩
  rcases hcs with ⟨hin,ha⟩ | ⟨value,before,own,after,rfl,hm,rfl,hba,haa,how⟩
  · have hs : ∀ key, RowKey table row key → (store.write (rows ++ tail)).lookup key = store.lookup key :=
      fun key hk => (ha.append htl).lookup hk
    rw [if_neg fun hsame => hin ⟨TableName.ext hsame.1,hsame.2⟩,or_none] at hm'
    rw [copiedValue_eq_none hin]
    exact ⟨hr.congr hs hm',fun e hev => (HasEvent.congr hs).mp hev⟩
  · have hid : row ∈ prepared.map (·.1) := mem_map.mpr ⟨_,hm,rfl⟩
    obtain rfl := hf rfl hid
    obtain ⟨stored,_,ho,-,hrw⟩ := copyRow_ok hc other none (row,value)
    rw [how,Except.ok.injEq] at hrw
    subst hrw
    obtain ⟨hi,hno⟩ := hr.fresh
    rw [hi.unmarked rfl,if_pos ⟨rfl,hid⟩,none_or] at hm'
    have hs : ∀ key, RowKey other row key → (store.write (before ++ ([.put (dataKey other.bytes row) stored] ++ after) ++
        tail)).lookup key = if key = dataKey other.bytes row then some stored else store.lookup key := by
      intro key hk
      rw [append_assoc,append_assoc,lookup_own hba (haa.append htl) hk,write_cons,write_nil,
        lookup_apply_put]
    have hix : ∀ rest, (store.write (before ++ ([.put (dataKey other.bytes row) stored] ++ after) ++ tail)).lookup
        (indexPrefix other.bytes row ++ rest) = store.lookup (indexPrefix other.bytes row ++ rest) := by
      intro rest
      rw [hs _ (.inr (.inr (prefix_append _ _))),if_neg (index_range_ne_dataKey _ _ _ _ _)]
    have he : ∀ e elided, ¬HasEvent (store.write (before ++ ([.put (dataKey other.bytes row) stored] ++ after) ++
        tail)) other row e elided := by
      intro e elided hev
      unfold HasEvent at hev
      rw [indexKey,hix] at hev
      exact hno e elided hev
    rw [copiedValue_of_mem hnd hm]
    refine ⟨⟨fun rest v hl => hr.clean rest v (by rwa [hix] at hl),?_,?_,?_,.inl ⟨ts,value,rfl,rfl,hm',he⟩⟩,
      fun e hev => absurd hev (he e true)⟩
    · simp [Ordered,copy,put,empty]
    · simpa [copy,put,empty] using hts
    · rw [hs _ (.inl rfl),if_pos rfl,map_some,ho]
      rfl

end

/-- What a COPY into a table does, seen from one row. Markers of other tables stay. -/
structure CopyStep (km : Option KeyManager) (other : TableName) (m m' : SnapshotManager) (store : Store)
    (table : TableName) (row : RowId) (h' : RowHistory) (batch : WriteBatch) : Prop where
  sentinel : (store.write batch).lookup elideSentinelKey = store.lookup elideSentinelKey
  represents : Represents km m' (store.write batch) table row h'
  flagged : ∀ e, HasEvent (store.write batch) table row e true → HasEvent store table row e true
  wf : m'.copyMarkers.Wf
  durable : DurableMarkers (store.write batch) table row (m'.copyMarkers.coveringTs table.bytes row)
  elsewhere : ∀ table' row', table' ≠ other →
    m'.copyMarkers.coveringTs table'.bytes row' = m.copyMarkers.coveringTs table'.bytes row' ∧
    ∀ marker, DurableMarkers store table' row' marker → DurableMarkers (store.write batch) table' row' marker

section
variable {km : Option KeyManager} {m : SnapshotManager} {store store' : Store} {table other : TableName} {row : RowId}
  {h : RowHistory} {ts : Timestamp} {ctx : CopyContext} {prepared : List (RowId × Bytes)} {marker : Option Timestamp}

theorem DurableMarkers.congr (hd : DurableMarkers store table row marker)
    (hs : ∀ key, vmetaPrefix <+: key → store'.lookup key = store.lookup key) : DurableMarkers store' table row marker where
  canonical key value hp hl := hd.canonical key value hp (by rwa [hs key hp] at hl)
  present ts hts := by
    obtain ⟨key,value,other,interval,hmk,hl,hc⟩ := hd.present ts hts
    refine ⟨key,value,other,interval,hmk,?_,hc⟩
    rw [hs key (hmk.2.2.2.1 ▸ prefix_append _ _),hl]

theorem DurableMarkers.insert (hd : DurableMarkers store table row marker) {interval : Interval} {key : Key}
    {value : Bytes} (hmk : IsMarker key value other interval)
    (hfr : covers other.bytes interval table.bytes row → marker = none)
    (hs : ∀ k, vmetaPrefix <+: k → store'.lookup k = if k = key then some value else store.lookup k) :
    DurableMarkers store' table row
      (marker.or (if covers other.bytes interval table.bytes row then some interval.ts else none)) where
  canonical k v hp hl := by
    rw [hs k hp] at hl
    split at hl
    next hk =>
      cases hl
      refine ⟨other,interval,hk ▸ hmk,fun hc => ?_⟩
      rw [hfr hc,if_pos hc,none_or]
    · obtain ⟨other',interval',hmk',ha⟩ := hd.canonical k v hp hl
      exact ⟨other',interval',hmk',fun hc => by rw [ha hc,some_or]⟩
  present ts hts := by
    cases hm : marker with
    | none =>
      rw [hm,none_or] at hts
      split at hts
      next hc =>
        refine ⟨key,value,other,interval,hmk,?_,hc,Option.some.inj hts⟩
        rw [hs key (hmk.2.2.2.1 ▸ prefix_append _ _),if_pos rfl]
      · cases hts
    | some old =>
      rw [hm,some_or] at hts
      obtain ⟨k,v,other',interval',hmk',hl,hc,hts'⟩ := hd.present ts (hm.trans hts)
      refine ⟨k,v,other',interval',hmk',?_,hc,hts'⟩
      rw [hs k (hmk'.2.2.2.1 ▸ prefix_append _ _),if_neg ?_,hl]
      -- The new marker is not the old one: it would cover the row.
      intro hk
      obtain ⟨hf,hl',-,hkey,-⟩ := hmk
      obtain ⟨hf',hl'',-,hk',-⟩ := hmk'
      obtain ⟨ht,hfs,hls⟩ := markerKey_inj hf' hf hl'' hl' (hk'.symm.trans (hk.trans hkey))
      have hn := hfr ⟨ht ▸ hc.1,hfs ▸ hc.2.1,hls ▸ hc.2.2⟩
      rw [hm] at hn
      cases hn

theorem avoids_marker (table : TableName) (row : RowId) (other : Bytes) (first last : RowId) (value : Bytes) :
    Avoids table row [.put (markerKey other first last) value] := by
  intro op hop
  rw [mem_singleton.mp hop]
  refine not_rowKey_of_keyspace (show Keyspace.vmeta ≠ .data by decide) (by decide) (by decide) _

theorem Represents.copyCall (hr : Represents km m store table row h) (hc : ctx.Sound km) (hwf : m.copyMarkers.Wf)
    (hd : DurableMarkers store table row (m.copyMarkers.coveringTs table.bytes row))
    (hal : ¬Aliases other.bytes table.bytes row) (hct : Contiguous prepared) (hle : ∀ entry ∈ prepared, entry.1 ≤ u64Max)
    (hfr : other = table → row ∈ prepared.map (·.1) → h = .empty) (hts : ts < versionValueElidedFlag) :
    (ctx.copies other prepared = true ∧ ∃ batch markers,
      ctx.insertPreparedTuplesFastBatch other m (.healthy store) prepared (some ts) =
        ({ m with copyMarkers := markers },.healthy (store.write batch),.ok prepared.length) ∧
      CopyStep km other m { m with copyMarkers := markers } store table row
        (h.copy ts (copiedValue other prepared table row)) batch) ∨ (ctx.copies other prepared = false ∧ ∃ result,
      ctx.insertPreparedTuplesFastBatch other m (.healthy store) prepared (some ts) = (m,.healthy store,result)) := by
  unfold copies insertPreparedTuplesFastBatch
  by_cases he : prepared.isEmpty = true
  · exact .inr (by simp [he])
  by_cases hw : ctx.fastDmlRequiresLogicalWal = true
  · exact .inr (by simp [he,hw])
  by_cases hsc : ctx.schema.any (fun mode => mode == .dictionary || mode == .contentAddressed) = true
  · exact .inr (by simp only [he,hw,hsc]; simp)
  have hne : prepared ≠ [] := fun hn => he (by simp [hn])
  simp only [he,hw,hsc]
  cases hcn : ctx.stageRowCounter other ((prepared.getLast?.map (·.1)).getD 0) with
  | error e =>
    -- The rows can be staged, the counter cannot.
    refine .inr ⟨by simp [Except.isOk,Except.toBool],.error e,?_⟩
    obtain ⟨rows,hrw,-⟩ := copyRows_cases table row hc hal hct.nodup
      (if ctx.useVrange (some ts) then none else some ts)
    simp [copyBatch,hrw,hcn,bind,Except.bind]
  | ok counter =>
    have hlg := isLog_stageRowCounter hcn
    have hl : KeepsMeta counter := hlg.mono fun space hs => not_isMeta (.inr (.inr (.inr hs)))
    cases hv : ctx.copyVrangeEnabled with
    | false =>
      obtain ⟨rows,hrw, hm,hst⟩ := hr.copyRows_indexed hc hal hct.nodup hfr hts
      have hb : ctx.copyBatch other prepared (some ts) = .ok (rows ++ counter) := by
        simp [copyBatch,useVrange,hv,hrw,hcn,bind,Except.bind]
      cases hcl : ctx.claim with
      | error e => exact .inr ⟨by simp [Except.isOk,Except.toBool],.error e,by simp [hb]⟩
      | ok =>
        obtain ⟨hrp,hf⟩ := hst counter (hlg.avoids table row)
        have ha : KeepsMeta (rows ++ counter) := hm.append hl
        refine .inl ⟨by simp [Except.isOk,Except.toBool],rows ++ counter,m.copyMarkers,?_,
          ha.sentinel,hrp,hf,hwf,hd.congr fun key hp => ha.marker hp,
          fun _ _ _ => ⟨rfl,fun _ hmk => hmk.congr fun key hp => ha.marker hp⟩⟩
        simp [hb,useVrange,hv]
    | true =>
      have hco : ∀ r, (covers other.bytes ⟨(versionRange prepared).1,(versionRange prepared).2,ts⟩
          table.bytes r) ↔ other.bytes = table.bytes ∧ r ∈ prepared.map (·.1) := fun r =>
        and_congr_right fun _ => mem_versionRange hne hct hle r
      have hcv := coveringTs_insert hwf other.bytes
        ⟨(versionRange prepared).1,(versionRange prepared).2,ts⟩ table.bytes row
      obtain ⟨rows,hrw, hm,hst⟩ := hr.copyRows_marked (m.recordCopyMarker other.bytes
        (versionRange prepared).1 (versionRange prepared).2 ts) hc hal hct.nodup hfr hts (by
          rw [SnapshotManager.recordCopyMarker,hcv]
          congr 1
          exact if_congr (hco row) rfl rfl)
      have hb : ctx.copyBatch other prepared (some ts) = .ok (rows ++
          ([.put (markerKey other.bytes (versionRange prepared).1 (versionRange prepared).2)
            (beBytes 8 ts)] ++ counter)) := by
        simp [copyBatch,useVrange,hv,hrw,hcn,bind,Except.bind]
      cases hcl : ctx.claim with
      | error e => exact .inr ⟨by simp [Except.isOk,Except.toBool],.error e,by simp [hb]⟩
      | ok =>
        obtain ⟨hrp,hf⟩ := hst _ ((avoids_marker table row other.bytes (versionRange prepared).1
          (versionRange prepared).2 (beBytes 8 ts)).append (hlg.avoids table row))
        have hmk : IsMarker (markerKey other.bytes (versionRange prepared).1 (versionRange prepared).2)
            (beBytes 8 ts) other ⟨(versionRange prepared).1,(versionRange prepared).2,ts⟩ :=
          ⟨(versionRange_le_u64Max hle).1,(versionRange_le_u64Max hle).2,hts,rfl,rfl⟩
        have hvm : ∀ k, vmetaPrefix <+: k → (store.write (rows ++ ([.put (markerKey other.bytes
            (versionRange prepared).1 (versionRange prepared).2) (beBytes 8 ts)] ++ counter))).lookup k =
            if k = markerKey other.bytes (versionRange prepared).1 (versionRange prepared).2 then
              some (beBytes 8 ts) else store.lookup k := by
          intro k hk
          rw [write_append,write_append,hl.marker hk,write_cons,write_nil,
            lookup_apply_put,hm.marker hk]
        refine .inl ⟨by simp [Except.isOk,Except.toBool],_,_,?_,?_,hrp,hf,wf_insert _ _ _ _ _,?_,?_⟩
        · simp only [hb,Db.healthy_write,useVrange,hv,isSome_some,Bool.and_self,if_true,
            getD_some,SnapshotManager.recordCopyMarker]
          simp
        · have hmd : ((store.write rows).write [.put (markerKey other.bytes (versionRange prepared).1
              (versionRange prepared).2) (beBytes 8 ts)]).lookup elideSentinelKey =
              (store.write rows).lookup elideSentinelKey := by
            rw [write_cons,write_nil,lookup_apply_put,if_neg]
            have := keyspace_disjoint (show Keyspace.elideSentinel ≠ Keyspace.vmeta by decide) []
            intro heq
            exact this _ ((append_nil _).trans heq)
          rw [write_append,write_append,hl.sentinel,hmd,hm.sentinel]
        · rw [hcv]
          refine hd.insert hmk (fun hc => ?_) hvm
          obtain ⟨ht,hmm⟩ := (hco row).mp hc
          obtain rfl := hfr (TableName.ext ht) hmm
          exact hr.fresh.1.unmarked rfl
        · intro table' row' hne'
          have hno : ¬covers other.bytes ⟨(versionRange prepared).1,(versionRange prepared).2,ts⟩
            table'.bytes row' := fun hc => hne' (TableName.ext hc.1.symm)
          refine ⟨?_,fun marker hmr => ?_⟩
          · dsimp only
            rw [coveringTs_insert hwf other.bytes ⟨(versionRange prepared).1,(versionRange prepared).2,ts⟩,
              if_neg hno,or_none]
          · have hi := hmr.insert hmk (fun hc => absurd hc hno) hvm
            rwa [if_neg hno,or_none] at hi

end
end HeliosNano.Storage
