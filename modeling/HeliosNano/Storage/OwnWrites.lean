import HeliosNano.Foundation.Listing
import HeliosNano.Storage.CommitRows
import HeliosNano.Storage.Staging

namespace HeliosNano.Storage.OwnWrites
open Foundation List

structure Tuple (Value : Type) where
  values : List Value
  rowId : Option RowId
deriving DecidableEq

/-- The serializer of tuples, with the value that stands for a missing column. -/
structure RowCodec (Value : Type) where
  deserialize : Bytes → Except String (Tuple Value)
  null : Value

section
variable {Value : Type} (codec : RowCodec Value)

/-- Rows from before a column was added are as short as they were staged. -/
def pad (width : Option Nat) (tuple : Tuple Value) : Tuple Value :=
  match width with
  | none => tuple
  | some w =>
    if tuple.values.length < w then { tuple with values := tuple.values ++ List.replicate (w-tuple.values.length) codec.null }
    else tuple

def stagedTuple (width : Option Nat) (row : RowId) (data : Bytes) : Except Error (Tuple Value) :=
  match codec.deserialize data with
  | .error e => .error (.storage ("Failed to deserialize tuple: " ++ e))
  | .ok tuple => .ok (pad codec width { tuple with rowId := some row })

def stagedRowId (table : Bytes) (key : Key) : Option RowId :=
  if (fromUtf8 key).isSome then (stripPrefix (stagedPrefix table) key).bind (parseUnsigned u64Max) else none

/-- The committed rows, each replaced or removed by what the write set has for it. -/
def overwriteRows (writeSet : Map Key (Option Bytes)) (table : Bytes) (width : Option Nat) :
    List (Tuple Value) → Except Error (List (Tuple Value))
  | [] => .ok []
  | tuple::rest =>
    match tuple.rowId with
    | none => do
      let others ← overwriteRows writeSet table width rest
      .ok (tuple::others)
    | some row =>
      match writeSet.lookup (dataKey table row) with
      | some (some data) => do
        let updated ← stagedTuple codec width row data
        let others ← overwriteRows writeSet table width rest
        .ok (updated::others)
      | some none => overwriteRows writeSet table width rest
      | none => do
        let others ← overwriteRows writeSet table width rest
        .ok (tuple::others)

/-- The rows of the write set that were not among the committed ones. -/
def addWrites (table : Bytes) (width : Option Nat) (handled : List RowId) :
    List (Key × Option Bytes) → Except Error (List (Tuple Value))
  | [] => .ok []
  | (key,staged)::rest =>
    match stagedRowId table key with
    | some row =>
      if row ∈ handled then addWrites table width handled rest
      else match staged with
        | some data => do
          let added ← stagedTuple codec width row data
          let others ← addWrites table width handled rest
          .ok (added::others)
        | none => addWrites table width handled rest
    | none => addWrites table width handled rest

/-- The rows of the insert log that no write replaces. -/
def addInserts (writeSet : Map Key (Option Bytes)) (table : Bytes) (width : Option Nat) :
    List RowId → List (Key × Bytes) → Except Error (List (Tuple Value))
  | _, [] => .ok []
  | handled, (key,data)::rest =>
    if key ∈ writeSet then addInserts writeSet table width handled rest
    else match stagedRowId table key with
      | some row =>
        if row ∈ handled then addInserts writeSet table width handled rest
        else do
          let added ← stagedTuple codec width row data
          let others ← addInserts writeSet table width (row::handled) rest
          .ok (added::others)
      | none => addInserts writeSet table width handled rest

/-- `merge_with_write_set_inner` -/
def mergeWithWriteSetInner (t : Transaction) (table : Bytes) (width : Option Nat) (tuples : List (Tuple Value)) :
    Except Error (List (Tuple Value)) := do
  let handled := tuples.filterMap (·.rowId)
  let base ← overwriteRows codec t.writeSet table width tuples
  let written ← addWrites codec table width handled t.stagedEntries
  let inserted ← addInserts codec t.writeSet table width handled t.insertLog
  .ok (base ++ written ++ inserted)

def mergeWithWriteSet (t : Transaction) (table : Bytes) (tuples : List (Tuple Value)) : Except Error (List (Tuple Value)) :=
  mergeWithWriteSetInner codec t table none tuples

def mergeWithWriteSetToWidth (t : Transaction) (table : Bytes) (tuples : List (Tuple Value)) (width : Nat) :
    Except Error (List (Tuple Value)) :=
  mergeWithWriteSetInner codec t table (some width) tuples

def readRow (width : Option Nat) (row : RowId) (data : Bytes) : Option (Tuple Value) := (stagedTuple codec width row data).toOption

def rowAt (width : Option Nat) (row : RowId) (value : Option Bytes) : Option (Tuple Value) :=
  if row ≤ u64Max then value.bind (readRow codec width row) else none

end

def committed (km : Option KeyManager) (store : Store) (key : Key) : Option Bytes := (store.lookup key).map (openOwned km)

def own (km : Option KeyManager) (t : Transaction) (store : Store) (key : Key) : Option Bytes :=
  (t.staged key).getD (committed km store key)

def IsRowKey (key : Key) : Prop := ∃ (table : TableName) (row : RowId), row ≤ u64Max ∧ key = dataKey table.bytes row

/-- What may be staged under a key: under `data:` the serialized tuple of a row. -/
structure FitsRow {Value : Type} (codec : RowCodec Value) (key : Key) (staged : Option Bytes) : Prop where
  isRow : dataPrefix <+: key → IsRowKey key
  decodes : dataPrefix <+: key → ∀ value ∈ staged, ∃ tuple, codec.deserialize value = .ok tuple

/-- Only rows are staged under `data:`, and the insert log has new rows only. -/
structure StagesRows {Value : Type} (codec : RowCodec Value) (store : Store) (t : Transaction) : Prop where
  writes : ∀ key staged, t.writeSet.lookup key = some staged → FitsRow codec key staged
  inserts : ∀ entry ∈ t.insertLog, FitsRow codec entry.1 (some entry.2)
  fresh : ∀ entry ∈ t.insertLog, dataPrefix <+: entry.1 → store.lookup entry.1 = none
  distinct : t.insertLog.Pairwise fun a b => dataPrefix <+: a.1 → a.1 ≠ b.1

section
variable {table : TableName} {row : RowId} {key : Key}

theorem stagedPrefix_dataKey (table : Bytes) (row : RowId) : dataKey table row = stagedPrefix table ++ decimal row := by
  rw [dataKey,rowText,stagedPrefix,append_assoc,append_assoc,singleton_append]

theorem isUtf8_dataKey (table : TableName) (row : RowId) : IsUtf8 (dataKey table.bytes row) := by
  have hl : IsUtf8 dataPrefix := isUtf8_of_ascii (by decide +kernel)
  exact hl.append (isUtf8_rowText table row)

theorem colon_not_mem_of_parseUnsigned {text : Bytes} (h : parseUnsigned u64Max text = some row) : colon ∉ text := by
  intro hm
  rw [parseUnsigned.eq_def] at h
  obtain ⟨⟨-,hd,-⟩,-⟩ := Option.ite_none_right_eq_some.mp h
  cases text with
  | nil => exact absurd hm not_mem_nil
  | cons first rest =>
    dsimp only at hd
    split at hd
    next hp =>
      obtain hf | hrest := mem_cons.mp hm
      · rw [← hf] at hp
        exact absurd hp (by decide)
      · exact absurd (all_eq_true.mp hd colon hrest) (by decide)
    · exact absurd (all_eq_true.mp hd colon hm) (by decide)

theorem stagedRowId_dataKey (table : TableName) (hr : row ≤ u64Max) : stagedRowId table.bytes (dataKey table.bytes row) = some row := by
  rw [stagedRowId,if_pos ((isSome_fromUtf8 _).mpr (isUtf8_dataKey table row)),stagedPrefix_dataKey,stripPrefix_append,
    Option.bind_some,parseUnsigned_decimal hr]

theorem stagedRowId_eq_some (hkey : dataPrefix <+: key → IsRowKey key) :
    stagedRowId table.bytes key = some row ↔ row ≤ u64Max ∧ key = dataKey table.bytes row := by
  constructor
  · intro h
    rw [stagedRowId] at h
    obtain ⟨-,h⟩ := Option.ite_none_right_eq_some.mp h
    obtain ⟨text,hs,hp⟩ := Option.bind_eq_some_iff.mp h
    have htx : key = dataPrefix ++ (table.bytes ++ colon::text) := by
      rw [stripPrefix_eq_some hs,stagedPrefix,append_assoc,append_assoc,singleton_append]
    obtain ⟨other,row',hr',hdata⟩ := hkey (htx ▸ prefix_append _ _)
    have hsame : table.bytes ++ colon::text = other.bytes ++ colon :: decimal row' := append_cancel_left (htx.symm.trans hdata)
    obtain ⟨htb,hd⟩ := append_sep_inj (colon_not_mem_of_parseUnsigned hp) (colon_not_mem_decimal row') hsame
    rw [hd,parseUnsigned_decimal hr'] at hp
    obtain rfl := Option.some.inj hp
    exact ⟨hr',by rw [hdata,htb]⟩
  · rintro ⟨hr,rfl⟩
    exact stagedRowId_dataKey table hr

end

section
variable {Value : Type} {codec : RowCodec Value} {writeSet : Map Key (Option Bytes)} {table : Bytes} {width : Option Nat} {row : RowId}
variable {data : Bytes}

theorem rowId_of_readRow {tuple : Tuple Value} (h : readRow codec width row data = some tuple) : tuple.rowId = some row := by
  rw [readRow,stagedTuple] at h
  split at h
  · cases h
  cases h
  rw [pad.eq_def]
  split
  · rfl
  · split
    · rfl
    · rfl

theorem stagedTuple_of_decodes (width : Option Nat) (row : RowId) (h : ∃ tuple, codec.deserialize data = .ok tuple) :
    ∃ tuple, stagedTuple codec width row data = .ok tuple ∧ readRow codec width row data = some tuple := by
  obtain ⟨tuple,htp⟩ := h
  rw [readRow,stagedTuple,htp]
  exact ⟨_,rfl,rfl⟩

def overwritten (codec : RowCodec Value) (writeSet : Map Key (Option Bytes)) (table : Bytes) (width : Option Nat) (tuple : Tuple Value) :
    Option (Tuple Value) :=
  match tuple.rowId with
  | none => some tuple
  | some row =>
    match writeSet.lookup (dataKey table row) with
    | some staged => staged.bind (readRow codec width row)
    | none => some tuple

theorem overwriteRows_eq (hd : ∀ row data, writeSet.lookup (dataKey table row) = some (some data) → ∃ tuple, codec.deserialize data = .ok tuple)
    (tuples : List (Tuple Value)) :
    overwriteRows codec writeSet table width tuples = .ok (tuples.filterMap (overwritten codec writeSet table width)) := by
  induction tuples with
  | nil => rfl
  | cons tuple rest ih =>
    rw [overwriteRows,ih,filterMap_cons]
    cases hr : tuple.rowId with
    | none =>
      rw [overwritten,hr]
      rfl
    | some row =>
      cases hlk : writeSet.lookup (dataKey table row) with
      | none =>
        simp only [overwritten,hr,hlk]
        rfl
      | some staged =>
        cases staged with
        | none =>
          simp only [overwritten,hr,hlk,Option.bind_none]
        | some data =>
          obtain ⟨updated,hs,hrd⟩ := stagedTuple_of_decodes width row (hd row data hlk)
          simp only [overwritten,hr,hlk,Option.bind_some,hs,hrd]
          rfl

def written (codec : RowCodec Value) (width : Option Nat) (handled : List RowId) (row : RowId) (entry : Key × Option Bytes) :
    Option (Tuple Value) :=
  if row ∈ handled then none else entry.2.bind (readRow codec width row)

theorem addWrites_eq {handled : List RowId} {entries : List (Key × Option Bytes)}
    (hd : ∀ entry ∈ entries, ∀ row data, stagedRowId table entry.1 = some row → entry.2 = some data →
      ∃ tuple, codec.deserialize data = .ok tuple) : addWrites codec table width handled entries =
      .ok (entries.filterMap fun entry => (stagedRowId table entry.1).bind fun row => written codec width handled row entry) := by
  induction entries with
  | nil => rfl
  | cons entry rest ih =>
    obtain ⟨key,staged⟩ := entry
    obtain ⟨hf,hrest⟩ := forall_mem_cons.mp hd
    rw [addWrites,ih hrest,filterMap_cons]
    cases hrw : stagedRowId table key with
    | none => rfl
    | some row =>
      by_cases hh : row ∈ handled
      · simp only [Option.bind_some,written,if_pos hh]
      cases staged with
      | none => simp only [Option.bind_some,written,if_neg hh,Option.bind_none]
      | some data =>
        obtain ⟨added,hs,hr⟩ := stagedTuple_of_decodes width row (hf row data hrw rfl)
        simp only [Option.bind_some,written,if_neg hh,hs,hr]
        rfl

def inserted (codec : RowCodec Value) (writeSet : Map Key (Option Bytes)) (width : Option Nat) (handled : List RowId) (row : RowId)
    (entry : Key × Bytes) : Option (Tuple Value) :=
  if entry.1 ∈ writeSet ∨ row ∈ handled then none else readRow codec width row entry.2

theorem addInserts_eq {log : List (Key × Bytes)}
    (hd : ∀ entry ∈ log, ∀ row, stagedRowId table entry.1 = some row → ∃ tuple, codec.deserialize entry.2 = .ok tuple)
    (hds : log.Pairwise fun a b => ∀ i j, stagedRowId table a.1 = some i → stagedRowId table b.1 = some j → i ≠ j)
    (handled : List RowId) : addInserts codec writeSet table width handled log =
      .ok (log.filterMap fun entry => (stagedRowId table entry.1).bind fun row => inserted codec writeSet width handled row entry) := by
  induction log generalizing handled with
  | nil => rfl
  | cons entry rest ih =>
    obtain ⟨key,data⟩ := entry
    obtain ⟨hf,hrest⟩ := forall_mem_cons.mp hd
    obtain ⟨hnew,ho⟩ := pairwise_cons.mp hds
    rw [addInserts,ih hrest ho,filterMap_cons]
    by_cases hkey : key ∈ writeSet
    · rw [if_pos hkey]
      cases hr : stagedRowId table key with
      | none => rfl
      | some row => simp only [Option.bind_some,inserted,if_pos (Or.inl hkey)]
    · rw [if_neg hkey]
      cases hr : stagedRowId table key with
      | none => rfl
      | some row =>
        by_cases hh : row ∈ handled
        · simp only [Option.bind_some,inserted,if_pos (Or.inr hh),if_pos hh]
        obtain ⟨added,hs,hrd⟩ := stagedTuple_of_decodes width row (hf row hr)
        have hsame : ∀ entry ∈ rest,
            ((stagedRowId table entry.1).bind fun other => inserted codec writeSet width (row::handled) other entry) =
              (stagedRowId table entry.1).bind fun other => inserted codec writeSet width handled other entry := by
          intro entry he
          cases hoh : stagedRowId table entry.1 with
          | none => rfl
          | some other =>
            have hne : other ≠ row := (hnew entry he row other hr hoh).symm
            simp only [Option.bind_some,inserted,mem_cons,hne,false_or]
        have ha : inserted codec writeSet width handled row (key,data) = some added := by
          rw [inserted,if_neg (not_or.mpr ⟨hkey,hh⟩),hrd]
        dsimp only
        rw [if_neg hh,hs,ih hrest ho,filterMap_congr hsame,Option.bind_some,ha]
        rfl

end

section
variable {Value : Type} {codec : RowCodec Value} {store : Store} {t : Transaction} {key : Key}

theorem mem_stagedEntries (t : Transaction) (entry : Key × Option Bytes) :
    entry ∈ t.stagedEntries ↔ t.writeSet.lookup entry.1 = some entry.2 := by
  rw [← Option.mem_def,AList.mem_lookup_iff,Transaction.stagedEntries,mem_map]
  constructor
  · rintro ⟨entry,hm,rfl⟩
    exact hm
  · exact fun hm => ⟨⟨entry.1,entry.2⟩,hm,rfl⟩

theorem StagesRows.entry_unique (h : StagesRows codec store t) {a b : Key × Bytes} (ha : a ∈ t.insertLog) (hb : b ∈ t.insertLog)
    (hkey : dataPrefix <+: a.1) (hsame : a.1 = b.1) : a = b := by
  by_contra hne
  have hs : Std.Symm fun a b : Key × Bytes => dataPrefix <+: a.1 → a.1 ≠ b.1 := by
    refine ⟨fun a b hab hb heq => ?_⟩
    rw [heq] at hb
    exact hab hb heq.symm
  exact h.distinct.forall ha hb hne hkey hsame

variable {staged : Option Bytes}

theorem staged_write (h : t.writeSet.lookup key = some staged) : t.staged key = some staged := by
  rw [Transaction.staged,h]

theorem StagesRows.staged_insert (h : StagesRows codec store t) {data : Bytes} (hkey : dataPrefix <+: key)
    (hn : t.writeSet.lookup key = none) (hm : (key,data) ∈ t.insertLog) : t.staged key = some (some data) := by
  obtain ⟨found,hf⟩ : ∃ found, t.insertLog.find? (fun entry => entry.1 == key) = some found := by
    rw [← Option.isSome_iff_exists,find?_isSome]
    exact ⟨_,hm,beq_self_eq_true key⟩
  have hsame : found.1 = key := by simpa using find?_some hf
  have heq : (key,data) = found := h.entry_unique hm (mem_of_find?_eq_some hf) hkey hsame.symm
  rw [Transaction.staged,hn,hf,← heq]
  rfl

theorem insert_of_staged (hn : t.writeSet.lookup key = none) (h : t.staged key = some staged) :
    ∃ data, staged = some data ∧ (key,data) ∈ t.insertLog := by
  rw [Transaction.staged,hn] at h
  obtain ⟨entry,hf,rfl⟩ := Option.map_eq_some_iff.mp h
  have hkey : entry.1 = key := by simpa using find?_some hf
  exact ⟨entry.2,rfl,hkey ▸ mem_of_find?_eq_some hf⟩

end

section
variable {Value : Type} {codec : RowCodec Value} {km : Option KeyManager} {store : Store} {t : Transaction} {table : TableName}
  {width : Option Nat} {row : RowId} {handled : List RowId} {tuple : Tuple Value}

theorem dataPrefix_dataKey (table : Bytes) (row : RowId) : dataPrefix <+: dataKey table row := prefix_append _ _

variable {value : Option Bytes}

theorem rowAt_eq_some :
    rowAt codec width row value = some tuple ↔ row ≤ u64Max ∧ value.bind (readRow codec width row) = some tuple := by
  rw [rowAt,Option.ite_none_right_eq_some]

theorem rowId_of_bind (h : value.bind (readRow codec width row) = some tuple) : tuple.rowId = some row := by
  obtain ⟨data,-,hr⟩ := Option.bind_eq_some_iff.mp h
  exact rowId_of_readRow hr

theorem rowId_of_rowAt (h : rowAt codec width row value = some tuple) : tuple.rowId = some row :=
  rowId_of_bind (rowAt_eq_some.mp h).2

variable {writeSet : Map Key (Option Bytes)}

theorem rowId_of_overwritten {table : Bytes} {old : Tuple Value}
    (h : overwritten codec writeSet table width old = some tuple) : tuple.rowId = old.rowId := by
  rw [overwritten.eq_def] at h
  split at h
  · cases h
    rfl
  next row hr =>
    split at h
    · rw [rowId_of_bind h,hr]
    · cases h
      rfl

theorem rowId_of_written {entry : Key × Option Bytes} (h : written codec width handled row entry = some tuple) :
    row ∉ handled ∧ tuple.rowId = some row := by
  rw [written,Option.ite_none_left_eq_some] at h
  exact ⟨h.1,rowId_of_bind h.2⟩

theorem rowId_of_inserted {entry : Key × Bytes}
    (h : inserted codec writeSet width handled row entry = some tuple) : row ∉ handled ∧ tuple.rowId = some row := by
  rw [inserted,Option.ite_none_left_eq_some,not_or] at h
  exact ⟨h.1.2,rowId_of_readRow h.2⟩

variable (h : StagesRows codec store t)
include h

theorem StagesRows.written_iff :
    (∃ entry ∈ t.stagedEntries, stagedRowId table.bytes entry.1 = some row ∧ written codec width handled row entry = some tuple) ↔
      row ≤ u64Max ∧ row ∉ handled ∧ ∃ staged, t.writeSet.lookup (dataKey table.bytes row) = some staged ∧
        staged.bind (readRow codec width row) = some tuple := by
  constructor
  · rintro ⟨entry,hm,hid,hw⟩
    have hlk := (mem_stagedEntries t entry).mp hm
    obtain ⟨hr,hkey⟩ := (stagedRowId_eq_some (h.writes _ _ hlk).isRow).mp hid
    rw [written,Option.ite_none_left_eq_some] at hw
    exact ⟨hr,hw.1,entry.2,hkey ▸ hlk,hw.2⟩
  · rintro ⟨hr,hnew,staged,hlk,hrd⟩
    refine ⟨(dataKey table.bytes row,staged),(mem_stagedEntries t _).mpr hlk,stagedRowId_dataKey table hr,?_⟩
    rw [written,if_neg hnew]
    exact hrd

theorem StagesRows.inserted_iff :
    (∃ entry ∈ t.insertLog, stagedRowId table.bytes entry.1 = some row ∧ inserted codec t.writeSet width handled row entry = some tuple) ↔
      row ≤ u64Max ∧ row ∉ handled ∧ t.writeSet.lookup (dataKey table.bytes row) = none ∧
        ∃ data, (dataKey table.bytes row,data) ∈ t.insertLog ∧ readRow codec width row data = some tuple := by
  constructor
  · rintro ⟨entry,hm,hid,hi⟩
    obtain ⟨hrw,hkey⟩ := (stagedRowId_eq_some (h.inserts _ hm).isRow).mp hid
    rw [inserted,Option.ite_none_left_eq_some,not_or] at hi
    obtain ⟨⟨hn,hnew⟩,hr⟩ := hi
    rw [hkey] at hn
    exact ⟨hrw,hnew,AList.lookup_eq_none.mpr hn,entry.2,hkey ▸ hm,hr⟩
  · rintro ⟨hrw,hnew,hlk,data,hm,hr⟩
    refine ⟨(dataKey table.bytes row,data),hm,stagedRowId_dataKey table hrw,?_⟩
    rw [inserted,if_neg (not_or.mpr ⟨AList.lookup_eq_none.mp hlk,hnew⟩)]
    exact hr

omit h in
theorem overwritten_iff : (∃ old, rowAt codec width row (committed km store (dataKey table.bytes row)) = some old ∧
      overwritten codec t.writeSet table.bytes width old = some tuple) ↔
    ∃ old, rowAt codec width row (committed km store (dataKey table.bytes row)) = some old ∧
      (t.writeSet.lookup (dataKey table.bytes row)).elim (some old) (fun staged => staged.bind (readRow codec width row)) = some tuple := by
  refine exists_congr fun old => and_congr_right fun hold => ?_
  rw [overwritten,rowId_of_rowAt hold]
  dsimp only
  cases t.writeSet.lookup (dataKey table.bytes row) with
  | none | some staged => rfl

theorem StagesRows.parts_iff
    (hh : row ∈ handled ↔ ∃ old, rowAt codec width row (committed km store (dataKey table.bytes row)) = some old) :
    (((∃ old, rowAt codec width row (committed km store (dataKey table.bytes row)) = some old ∧
          overwritten codec t.writeSet table.bytes width old = some tuple) ∨
        ∃ entry ∈ t.stagedEntries, stagedRowId table.bytes entry.1 = some row ∧ written codec width handled row entry = some tuple) ∨
      ∃ entry ∈ t.insertLog, stagedRowId table.bytes entry.1 = some row ∧ inserted codec t.writeSet width handled row entry = some tuple) ↔
      rowAt codec width row (own km t store (dataKey table.bytes row)) = some tuple := by
  rw [overwritten_iff,h.written_iff,h.inserted_iff,rowAt_eq_some]
  have hle : ∀ {old}, rowAt codec width row (committed km store (dataKey table.bytes row)) = some old → row ≤ u64Max :=
    fun hold => (rowAt_eq_some.mp hold).1
  cases hlk : t.writeSet.lookup (dataKey table.bytes row) with
  | some staged =>
    rw [own,staged_write hlk,Option.getD_some]
    constructor
    · rintro ((⟨old,hold,hr⟩ | ⟨hrw,-,found,hf,hr⟩) | ⟨-,-,hno,-⟩)
      · exact ⟨hle hold,hr⟩
      · obtain rfl := Option.some.inj hf
        exact ⟨hrw,hr⟩
      · cases hno
    · rintro ⟨hrw,hr⟩
      by_cases hm : row ∈ handled
      · obtain ⟨old,hold⟩ := hh.mp hm
        exact .inl (.inl ⟨old,hold,hr⟩)
      · exact .inl (.inr ⟨hrw,hm,staged,rfl,hr⟩)
  | none =>
    by_cases hl : ∃ data, (dataKey table.bytes row,data) ∈ t.insertLog
    · -- a new row is none of the committed ones
      obtain ⟨data,hm⟩ := hl
      have hfr : committed km store (dataKey table.bytes row) = none := by
        rw [committed,h.fresh _ hm (dataPrefix_dataKey _ _)]
        rfl
      have hnew : ¬∃ old, rowAt codec width row (committed km store (dataKey table.bytes row)) = some old := by
        rintro ⟨old,hold⟩
        rw [hfr,rowAt_eq_some] at hold
        cases hold.2
      rw [own,h.staged_insert (dataPrefix_dataKey _ _) hlk hm,Option.getD_some,Option.bind_some]
      constructor
      · rintro ((⟨old,hold,-⟩ | ⟨-,-,found,hf,-⟩) | ⟨hrw,-,-,other,ho,hr⟩)
        · exact absurd ⟨old,hold⟩ hnew
        · cases hf
        · obtain rfl := congrArg Prod.snd (h.entry_unique ho hm (dataPrefix_dataKey _ _) rfl)
          exact ⟨hrw,hr⟩
      · rintro ⟨hrw,hr⟩
        exact .inr ⟨hrw,fun hm => hnew (hh.mp hm),rfl,data,hm,hr⟩
    · have hst : t.staged (dataKey table.bytes row) = none := by
        cases hs : t.staged (dataKey table.bytes row) with
        | none => rfl
        | some staged =>
          obtain ⟨data,-,hm⟩ := insert_of_staged hlk hs
          exact absurd ⟨data,hm⟩ hl
      rw [own,hst,Option.getD_none,← rowAt_eq_some]
      constructor
      · rintro ((⟨old,hold,hsame⟩ | ⟨-,-,found,hf,-⟩) | ⟨-,-,-,data,hm,-⟩)
        · exact hold.trans hsame
        · cases hf
        · exact absurd ⟨data,hm⟩ hl
      · exact fun hold => .inl (.inl ⟨tuple,hold,rfl⟩)

omit h in
theorem rows_distinct (table : TableName) {Entry : Type} {entries : List (Key × Entry)}
    (hk : entries.Pairwise fun a b => dataPrefix <+: a.1 → a.1 ≠ b.1) (hr : ∀ entry ∈ entries, dataPrefix <+: entry.1 → IsRowKey entry.1) :
    entries.Pairwise fun a b => ∀ i j, stagedRowId table.bytes a.1 = some i → stagedRowId table.bytes b.1 = some j → i ≠ j := by
  refine hk.imp_of_mem fun {a b} ha hb hne i j hi hj heq => ?_
  obtain ⟨-,hak⟩ := (stagedRowId_eq_some (hr a ha)).mp hi
  obtain ⟨-,hbk⟩ := (stagedRowId_eq_some (hr b hb)).mp hj
  rw [heq] at hak
  exact hne (hak ▸ dataPrefix_dataKey _ _) (hak.trans hbk.symm)

omit h in
theorem FitsRow.lead {key : Key} {staged : Option Bytes} (h : FitsRow codec key staged) (hid : stagedRowId table.bytes key = some row) :
    dataPrefix <+: key := by
  rw [((stagedRowId_eq_some h.isRow).mp hid).2]
  exact dataPrefix_dataKey _ _

omit h in
theorem row_eq_of_rowId {row row' : RowId} {tuple tuple' : Tuple Value} (hid : tuple.rowId = some row) (hid' : tuple'.rowId = some row')
    (hsame : tuple.rowId = tuple'.rowId) : row = row' :=
  Option.some.inj (hid.symm.trans (hsame.trans hid'))

theorem StagesRows.overwriteRows_ok (table : TableName) (width : Option Nat) (tuples : List (Tuple Value)) :
    overwriteRows codec t.writeSet table.bytes width tuples = .ok (tuples.filterMap (overwritten codec t.writeSet table.bytes width)) :=
  overwriteRows_eq (fun _ data hlk => (h.writes _ _ hlk).decodes (dataPrefix_dataKey _ _) data rfl) tuples

theorem StagesRows.addWrites_lists (table : TableName) (width : Option Nat) (handled : List RowId) :
    ∃ rows, addWrites codec table.bytes width handled t.stagedEntries = .ok rows ∧ Lists (fun tuple : Tuple Value => tuple.rowId) rows
      fun row tuple => ∃ entry ∈ t.stagedEntries, stagedRowId table.bytes entry.1 = some row ∧ written codec width handled row entry = some tuple := by
  have hr : ∀ entry ∈ t.stagedEntries, FitsRow codec entry.1 entry.2 :=
    fun entry hm => h.writes _ _ ((mem_stagedEntries t entry).mp hm)
  have hk : t.stagedEntries.Pairwise fun a b => dataPrefix <+: a.1 → a.1 ≠ b.1 := by
    have hnd := t.writeSet.keys_nodup
    rw [← t.stagedEntries_keys,List.Nodup,pairwise_map] at hnd
    refine hnd.imp fun {a b} hne => ?_
    exact fun _ => hne
  refine ⟨_,addWrites_eq fun entry hm row data hid hdata => (hr entry hm).decodes ((hr entry hm).lead hid) data hdata,?_⟩
  refine Lists.ofEntries (rows_distinct table hk fun entry hm => (hr entry hm).isRow) fun i j _ _ _ _ hrd hr' hsame => ?_
  exact row_eq_of_rowId (rowId_of_written hrd).2 (rowId_of_written hr').2 hsame

theorem StagesRows.addInserts_lists (table : TableName) (width : Option Nat) (handled : List RowId) :
    ∃ rows, addInserts codec t.writeSet table.bytes width handled t.insertLog = .ok rows ∧ Lists (fun tuple : Tuple Value => tuple.rowId) rows
      fun row tuple => ∃ entry ∈ t.insertLog, stagedRowId table.bytes entry.1 = some row ∧
        inserted codec t.writeSet width handled row entry = some tuple := by
  have hd := rows_distinct table h.distinct fun entry hm => (h.inserts entry hm).isRow
  refine ⟨_,addInserts_eq (fun entry hm row hid => (h.inserts entry hm).decodes ((h.inserts entry hm).lead hid) entry.2 rfl) hd
    handled,?_⟩
  refine Lists.ofEntries hd fun i j _ _ _ _ hr hr' hsame => ?_
  exact row_eq_of_rowId (rowId_of_inserted hr).2 (rowId_of_inserted hr').2 hsame

theorem StagesRows.merge_lists (table : TableName) (width : Option Nat) {tuples : List (Tuple Value)}
    (htp : Lists (fun tuple : Tuple Value => tuple.rowId) tuples
      fun row tuple => rowAt codec width row (committed km store (dataKey table.bytes row)) = some tuple) :
    ∃ merged, mergeWithWriteSetInner codec t table.bytes width tuples = .ok merged ∧ Lists (fun tuple : Tuple Value => tuple.rowId) merged
      fun row tuple => rowAt codec width row (own km t store (dataKey table.bytes row)) = some tuple := by
  have hh : ∀ row, row ∈ tuples.filterMap (·.rowId) ↔
      ∃ old, rowAt codec width row (committed km store (dataKey table.bytes row)) = some old := by
    intro row
    rw [mem_filterMap]
    constructor
    · rintro ⟨old,hm,hid⟩
      obtain ⟨row',hold⟩ := (htp.listed old).mp hm
      obtain rfl := Option.some.inj ((rowId_of_rowAt hold).symm.trans hid)
      exact ⟨old,hold⟩
    · rintro ⟨old,hold⟩
      exact ⟨old,(htp.listed old).mpr ⟨row,hold⟩,rowId_of_rowAt hold⟩
  have hb := h.overwriteRows_ok table width tuples
  obtain ⟨writes,hwr,hw⟩ := h.addWrites_lists table width (tuples.filterMap (·.rowId))
  obtain ⟨inserts,hin,hi⟩ := h.addInserts_lists table width (tuples.filterMap (·.rowId))
  refine ⟨_,by rw [mergeWithWriteSetInner,hb,hwr,hin]; rfl,?_⟩
  refine (((htp.filterMap fun _ _ => rowId_of_overwritten).append hw ?_).append hi ?_).congr
    fun row tuple => h.parts_iff (hh row)
  · rintro row tuple row' tuple' ⟨old,hold,ho⟩ ⟨entry,-,-,hr⟩ hsame
    obtain ⟨hnew,hid⟩ := rowId_of_written hr
    obtain rfl := row_eq_of_rowId ((rowId_of_overwritten ho).trans (rowId_of_rowAt hold)) hid hsame
    exact hnew ((hh _).mpr ⟨old,hold⟩)
  · rintro row tuple row' tuple' (⟨old,hold,ho⟩ | ⟨entry,hm,hid,hr⟩) ⟨entry',hm',hid',hr'⟩ hsame
    · obtain ⟨hnew,hrw⟩ := rowId_of_inserted hr'
      obtain rfl := row_eq_of_rowId ((rowId_of_overwritten ho).trans (rowId_of_rowAt hold)) hrw hsame
      exact hnew ((hh _).mpr ⟨old,hold⟩)
    · -- a row of the log that the write set has too is left out
      obtain rfl := row_eq_of_rowId (rowId_of_written hr).2 (rowId_of_inserted hr').2 hsame
      obtain ⟨-,-,staged,hlk,-⟩ := h.written_iff.mp ⟨entry,hm,hid,hr⟩
      obtain ⟨-,-,hn,-⟩ := h.inserted_iff.mp ⟨entry',hm',hid',hr'⟩
      rw [hlk] at hn
      cases hn

end
end HeliosNano.Storage.OwnWrites
