import HeliosNano.Foundation.Decimal
import HeliosNano.Foundation.Separated
import HeliosNano.Foundation.Utf8
import HeliosNano.Storage.Basics

namespace HeliosNano.Storage
open Foundation List Option

def ascii (chars : List Char) : Bytes := chars.map fun c => Fin.ofNat 256 c.toNat

def textBytes (text : String) : Bytes := text.toUTF8.toList.map fun b => Fin.ofNat 256 b.toNat

def colon : Byte := 58

def dataPrefix : Bytes := ascii ['d','a','t','a',':']
def versionLead : Bytes := ascii ['v',':']
def indexLead : Bytes := ascii ['v','_','i','d','x',':']
def vmetaPrefix : Bytes := ascii ['v','m','e','t','a',':']
def counterPrefix : Bytes := ascii ['c','o','u','n','t','e','r',':']
def walEntriesPrefix : Bytes := ascii ['w','a','l',':','e','n','t','r','i','e','s',':']
def walLastLsnKey : Key := ascii ['w','a','l',':','l','a','s','t','_','l','s','n']
def elideSentinelKey : Key := ascii ['w','3','_','2','_','e','l','i','d','e','_','u','s','e','d']

/-- A table name is text. It may hold any character, the separator too. -/
@[ext] structure TableName where
  bytes : Bytes
  utf8 : IsUtf8 bytes

/-- How a row is written inside every key: `{table}:{row_id}`. -/
def rowText (table : Bytes) (row : RowId) : Bytes := table ++ colon :: decimal row

/-- `data:{table}:{row_id}` -/
def dataKey (table : Bytes) (row : RowId) : Key := dataPrefix ++ rowText table row

/-- `v:{table}:{row_id}:{timestamp}` -/
def versionKey (table : Bytes) (row : RowId) (ts : Timestamp) : Key :=
  versionLead ++ (rowText table row ++ colon :: decimal ts)

/-- The reverse timestamp, padded so that keys are ordered as numbers, newest first. -/
@[irreducible] def reverseText (ts : Timestamp) : Bytes := padded 20 (u64Max-ts)

/-- `v_idx:{table}:{row_id}:` -/
def indexPrefix (table : Bytes) (row : RowId) : Bytes := indexLead ++ (rowText table row ++ [colon])

/-- `v_idx:{table}:{row_id}:{u64::MAX - timestamp:020}` -/
def indexKey (table : Bytes) (row : RowId) (ts : Timestamp) : Key := indexPrefix table row ++ reverseText ts

/-- Bit 63 of an index value: there is no `v:` copy, the value is the row itself. -/
def versionValueElidedFlag : Nat := 9223372036854775808

/-- The big-endian timestamp with the flag set for an elided copy. -/
def encodeVersionIndexValue (commitTs : Timestamp) (elided : Bool) : Bytes :=
  beBytes 8 (if elided then commitTs%versionValueElidedFlag+versionValueElidedFlag else commitTs)

def decodeVersionIndexValue (bytes : Bytes) : Option (Timestamp × Bool) :=
  if bytes.length < 8 then none
  else
    let raw := beValue (bytes.take 8)
    some (raw%versionValueElidedFlag,decide (versionValueElidedFlag ≤ raw))

/-- The row of a `data:` key, read from its end: the table name may hold the
separator. The commit loop and the row cache fence parse keys so. -/
def parseRowKey (key : Key) : Option (Bytes × RowId) := do
  let rest ← stripPrefix dataPrefix key
  if (fromUtf8 rest).isSome then
    let (table,text) ← splitLast colon rest
    let row ← parseUnsigned u64Max text
    some (table,row)
  else none

/-- The row that `put_version_index_batch` keeps versions for, read from the start
of the key: a table name with a separator leaves no row id behind it. -/
def versionedRow (key : Key) : Option (Bytes × Bytes) := do
  let rest ← stripPrefix dataPrefix key
  let (table,row) ← splitFirst colon rest
  if table = [] ∨ row = [] ∨ row.all isDigit = false then none else some (table,row)

def parseDataKeyTable (key : Key) : Option Bytes := do
  let rest ← stripPrefix dataPrefix key
  if (fromUtf8 rest).isSome then
    let (table,row) ← splitLast colon rest
    if row = [] ∨ row.all isDigit = false then none else some table
  else none

/-- Another table whose index keys lie in the range of a row: its name is
`{table}:{row_id}` or goes on with a separator after that. -/
def Aliases (other table : Bytes) (row : RowId) : Prop := rowText table row ++ [colon] <+: other ++ [colon]
deriving Decidable

theorem colon_not_mem_digits {bytes : Bytes} (h : ∀ b ∈ bytes, isDigit b = true) : colon ∉ bytes := by
  intro hm
  exact absurd (h colon hm) (by decide)

theorem colon_not_mem_decimal (n : Nat) : colon ∉ decimal n :=
  colon_not_mem_digits fun _ => isDigit_of_mem_decimal

variable {ts : Timestamp} {table' table : Bytes} {row' row : RowId}

theorem isDigit_of_mem_reverseText {b : Byte} (h : b ∈ reverseText ts) : isDigit b = true := by
  rw [reverseText] at h
  exact isDigit_of_mem_padded h

theorem colon_not_mem_reverseText (ts : Timestamp) : colon ∉ reverseText ts :=
  colon_not_mem_digits fun _ => isDigit_of_mem_reverseText

theorem rowText_inj (h : rowText table row = rowText table' row') : table = table' ∧ row = row' := by
  obtain ⟨ht,hr⟩ := append_sep_inj (colon_not_mem_decimal row) (colon_not_mem_decimal row') h
  exact ⟨ht,decimal_injective hr⟩

theorem dataKey_inj (h : dataKey table row = dataKey table' row') : table = table' ∧ row = row' :=
  rowText_inj (append_cancel_left h)

variable {ts' a b : Timestamp} {ts : Nat}

theorem versionKey_inj (h : versionKey table row ts = versionKey table' row' ts') : table = table' ∧ row = row' ∧ ts = ts' := by
  obtain ⟨hrw,hts⟩ := append_sep_inj (colon_not_mem_decimal ts) (colon_not_mem_decimal ts')
    (append_cancel_left h)
  obtain ⟨ht,hr⟩ := rowText_inj hrw
  exact ⟨ht,hr,decimal_injective hts⟩

theorem reverse_lt (ts : Timestamp) : u64Max-ts < 10^20 := by
  have : u64Max-ts ≤ u64Max := Nat.sub_le _ _
  exact Nat.lt_of_le_of_lt this (by decide)

theorem reverseText_le_iff (hb : b ≤ u64Max) : reverseText a ≤ reverseText b ↔ b ≤ a := by
  rw [reverseText,reverseText,padded_le_iff (reverse_lt a) (reverse_lt b)]
  exact ⟨fun h => (Nat.sub_le_sub_iff_left hb).mp h,fun h => Nat.sub_le_sub_left h _⟩

theorem reverseText_inj (ha : a ≤ u64Max) (hb : b ≤ u64Max) (h : reverseText a = reverseText b) : a = b :=
  Nat.le_antisymm ((reverseText_le_iff ha).mp (le_of_eq h.symm)) ((reverseText_le_iff hb).mp (le_of_eq h))

theorem indexKey_eq (table : Bytes) (row : RowId) (ts : Timestamp) :
    indexKey table row ts = indexLead ++ (rowText table row ++ colon :: reverseText ts) := by
  simp [indexKey,indexPrefix]

theorem indexKey_inj (hts : ts ≤ u64Max) (hts' : ts' ≤ u64Max) (h : indexKey table row ts = indexKey table' row' ts') :
    table = table' ∧ row = row' ∧ ts = ts' := by
  rw [indexKey_eq,indexKey_eq] at h
  obtain ⟨hrw,htx⟩ := append_sep_inj (colon_not_mem_reverseText ts) (colon_not_mem_reverseText ts')
    (append_cancel_left h)
  obtain ⟨ht,hr⟩ := rowText_inj hrw
  exact ⟨ht,hr,reverseText_inj hts hts' htx⟩

theorem rowText_cases {tail : Bytes} (htl : colon ∉ tail)
    (h : rowText table row ++ [colon] <+: rowText table' row' ++ colon::tail) :
    (table = table' ∧ row = row') ∨ Aliases table' table row := by
  have hr := prefix_sep_shrink htl h
  rcases prefix_sep_cases hr with heq | hp
  · exact .inl (rowText_inj heq)
  · exact .inr (prefix_sep_shrink (colon_not_mem_decimal row') hp)

theorem indexPrefix_cases (h : indexPrefix table row <+: indexKey table' row' ts) :
    (table = table' ∧ row = row') ∨ Aliases table' table row := by
  rw [indexKey_eq,indexPrefix,prefix_append_right_inj] at h
  exact rowText_cases (colon_not_mem_reverseText ts) h

theorem colon_mem_of_aliases {other : Bytes} (h : Aliases other table row) : colon ∈ other := by
  obtain ⟨rest,hrest⟩ := h
  cases rest using List.reverseRecOn with
  | nil =>
    rw [append_nil] at hrest
    rw [← append_cancel_right hrest]
    simp [rowText]
  | append_singleton rest last =>
    rw [← append_assoc] at hrest
    rw [← (append_inj' hrest rfl).1]
    simp

/-- The key spaces that are written, single keys among them. -/
inductive Keyspace
  | data
  | version
  | index
  | vmeta
  | counter
  | walEntries
  | walLastLsn
  | elideSentinel
deriving DecidableEq

def Keyspace.lead : Keyspace → Bytes
  | data => dataPrefix
  | version => versionLead
  | index => indexLead
  | vmeta => vmetaPrefix
  | counter => counterPrefix
  | walEntries => walEntriesPrefix
  | walLastLsn => walLastLsnKey
  | elideSentinel => elideSentinelKey

theorem Keyspace.lead_incomparable {a b : Keyspace} (h : a ≠ b) : ¬a.lead <+: b.lead := by
  revert h
  cases a <;> cases b <;> decide

theorem keyspace_disjoint {a b : Keyspace} (h : a ≠ b) (x y : Bytes) : a.lead ++ x ≠ b.lead ++ y := by
  intro heq
  rcases prefix_or_prefix_of_prefix (prefix_append a.lead x) (heq ▸ prefix_append b.lead y) with
    hp | hp
  · exact Keyspace.lead_incomparable h hp
  · exact Keyspace.lead_incomparable (Ne.symm h) hp

theorem dataKey_ne_versionKey (table table' : Bytes) (row row' : RowId) (ts : Timestamp) :
    dataKey table row ≠ versionKey table' row' ts :=
  keyspace_disjoint (show Keyspace.data ≠ Keyspace.version by decide) _ _

theorem dataKey_ne_indexKey (table table' : Bytes) (row row' : RowId) (ts : Timestamp) :
    dataKey table row ≠ indexKey table' row' ts := by
  rw [indexKey_eq]
  exact keyspace_disjoint (show Keyspace.data ≠ Keyspace.index by decide) _ _

theorem versionKey_ne_indexKey (table table' : Bytes) (row row' : RowId) (ts ts' : Timestamp) :
    versionKey table row ts ≠ indexKey table' row' ts' := by
  rw [indexKey_eq]
  exact keyspace_disjoint (show Keyspace.version ≠ Keyspace.index by decide) _ _

theorem index_range_eq (table : Bytes) (row : RowId) (rest : Bytes) :
    indexPrefix table row ++ rest = indexLead ++ (rowText table row ++ colon::rest) := by
  simp [indexPrefix]

theorem index_range_ne_dataKey (table table' : Bytes) (row row' : RowId) (rest : Bytes) :
    indexPrefix table row ++ rest ≠ dataKey table' row' := by
  rw [index_range_eq]
  exact keyspace_disjoint (show Keyspace.index ≠ Keyspace.data by decide) _ _

theorem index_range_ne_versionKey (table table' : Bytes) (row row' : RowId) (rest : Bytes) (ts : Timestamp) :
    indexPrefix table row ++ rest ≠ versionKey table' row' ts := by
  rw [index_range_eq]
  exact keyspace_disjoint (show Keyspace.index ≠ Keyspace.version by decide) _ _

theorem index_range_eq_indexKey (table : Bytes) (row : RowId) (rest : Bytes) (ts : Timestamp) :
    indexPrefix table row ++ rest = indexKey table row ts ↔ rest = reverseText ts := by
  rw [indexKey,append_cancel_left_eq]

theorem isUtf8_rowText (table : TableName) (row : RowId) : IsUtf8 (rowText table.bytes row) := by
  refine table.utf8.append (isUtf8_of_ascii fun b hb => ?_)
  rcases mem_cons.mp hb with rfl | hb
  · decide
  · have hd := isDigit_of_mem_decimal hb
    simp only [isDigit,Bool.and_eq_true,decide_eq_true_eq] at hd
    omega

theorem isUtf8_rowKey {lead : Bytes} (hl : ∀ b ∈ lead, b.val < 0x80) (table : TableName) (row : RowId) {digits : Bytes}
    (hdg : ∀ b ∈ digits, isDigit b = true) : IsUtf8 (lead ++ (rowText table.bytes row ++ colon::digits)) := by
  refine (isUtf8_of_ascii hl).append ((isUtf8_rowText table row).append (isUtf8_of_ascii fun b hb => ?_))
  rcases mem_cons.mp hb with rfl | hb
  · decide
  · have hd := hdg b hb
    simp only [isDigit,Bool.and_eq_true,decide_eq_true_eq] at hd
    omega

theorem parseRowKey_dataKey (table : TableName) (h : row ≤ u64Max) :
    parseRowKey (dataKey table.bytes row) = some (table.bytes,row) := by
  have hu : (fromUtf8 (rowText table.bytes row)).isSome = true :=
    (isSome_fromUtf8 _).mpr (isUtf8_rowText table row)
  simp only [parseRowKey,dataKey,stripPrefix_append,bind_eq_bind,bind_some,hu,if_true]
  rw [rowText,splitLast_append _ _ (colon_not_mem_decimal row)]
  simp [parseUnsigned_decimal h]

theorem decimal_all_digits (n : Nat) : (decimal n).all isDigit = true :=
  all_eq_true.mpr fun _ => isDigit_of_mem_decimal

theorem versionedRow_dataKey (hne : table ≠ []) (h : colon ∉ table) (row : RowId) :
    versionedRow (dataKey table row) = some (table,decimal row) := by
  simp only [versionedRow,dataKey,stripPrefix_append,rowText,splitFirst_append h,bind_eq_bind,
    bind_some,hne,decimal_ne_nil,decimal_all_digits]
  simp

theorem versionedRow_of_colon (h : colon ∈ table) (row : RowId) : versionedRow (dataKey table row) = none := by
  obtain ⟨before,after,hs,hm⟩ := splitFirst_of_mem h (decimal row)
  have hd : after.all isDigit = false := by
    rw [Bool.eq_false_iff]
    intro ha
    exact colon_not_mem_digits (all_eq_true.mp ha) hm
  simp only [versionedRow,dataKey,stripPrefix_append,rowText,hs,bind_eq_bind,bind_some,
    hd,or_true,if_true]

theorem versionedRow_nil (row : RowId) : versionedRow (dataKey [] row) = none := by
  have hs : splitFirst colon ([] ++ colon :: decimal row) = some ([],decimal row) :=
    splitFirst_append (by simp) (decimal row)
  simp only [versionedRow,dataKey,stripPrefix_append,rowText,hs,bind_eq_bind,bind_some,
    true_or,if_true]

theorem ts_le_u64Max (h : ts < versionValueElidedFlag) : ts ≤ u64Max := by
  simp only [versionValueElidedFlag] at h
  simp only [u64Max]
  omega

theorem decode_encodeVersionIndexValue (h : ts < versionValueElidedFlag) (elided : Bool) :
    decodeVersionIndexValue (encodeVersionIndexValue ts elided) = some (ts,elided) := by
  have hr : (if elided = true then ts%versionValueElidedFlag+versionValueElidedFlag else ts) < 256^8 := by
    simp only [versionValueElidedFlag] at h ⊢
    split <;> omega
  rw [decodeVersionIndexValue,encodeVersionIndexValue,length_beBytes,if_neg (by decide),
    take_of_length_le (by rw [length_beBytes]),beValue_beBytes hr]
  simp only [versionValueElidedFlag] at h ⊢
  cases elided with
  | true => simp [Nat.mod_eq_of_lt h]
  | false => simp [Nat.mod_eq_of_lt h,Nat.not_le.mpr h]

end HeliosNano.Storage
