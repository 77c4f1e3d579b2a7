import HeliosNano.Storage.Art.FixedWidth
import HeliosNano.Storage.KeyEncoding

namespace HeliosNano.Storage.KeyEncoding
open Foundation Foundation.Multimap Art IndexRegistry List Option AdaptiveRadixTree

/-- `index_range_scan`: an index that is not registered has no entries. -/
def indexRangeScan (manager : ArtIndexManager AdaptiveRadixTree) (indexName : Name) (lower upper : Bound) (limit : Option Nat) :
    List (Bytes × RowId) :=
  match manager.indexes.lookup indexName with
  | some entry => entry.tree.contents.rangeScan lower upper limit
  | none => []

inductive OrderedType
  | int2
  | int4
  | int8
  | string
  | bytes
deriving DecidableEq

namespace OrderedType

abbrev Carrier : OrderedType → Type
  | .int2 => BitVec 16
  | .int4 => BitVec 32
  | .int8 => BitVec 64
  | .string => List Char
  | .bytes => Bytes

instance : (t : OrderedType) → DecidableEq t.Carrier
  | .int2 => inferInstanceAs (DecidableEq (BitVec 16))
  | .int4 => inferInstanceAs (DecidableEq (BitVec 32))
  | .int8 => inferInstanceAs (DecidableEq (BitVec 64))
  | .string => inferInstanceAs (DecidableEq (List Char))
  | .bytes => inferInstanceAs (DecidableEq Bytes)

def value : (t : OrderedType) → t.Carrier → Value
  | .int2, x => .int2 x
  | .int4, x => .int4 x
  | .int8, x => .int8 x
  | .string, x => .string x
  | .bytes, x => .bytes x

/-- The order of the values: of numbers, of texts by their characters, of byte strings by their bytes. -/
def Less : (t : OrderedType) → t.Carrier → t.Carrier → Prop
  | .int2, x, y => x.toInt < y.toInt
  | .int4, x, y => x.toInt < y.toInt
  | .int8, x, y => x.toInt < y.toInt
  | .string, x, y => x < y
  | .bytes, x, y => x < y

def width : OrderedType → Option Nat
  | .int2 => some 2
  | .int4 => some 4
  | .int8 => some 8
  | _ => none

def number : (t : OrderedType) → t.Carrier → Int
  | .int2, x => x.toInt
  | .int4, x => x.toInt
  | .int8, x => x.toInt
  | _, _ => 0

/-- `int_value_width`. -/
def intValueWidth (t : OrderedType) (x : t.Carrier) : Option (Int × Nat) := t.width.map fun width => (t.number x,width)

instance : (t : OrderedType) → (x y : t.Carrier) → Decidable (t.Less x y)
  | .int2, x, y => inferInstanceAs (Decidable (x.toInt < y.toInt))
  | .int4, x, y => inferInstanceAs (Decidable (x.toInt < y.toInt))
  | .int8, x, y => inferInstanceAs (Decidable (x.toInt < y.toInt))
  | .string, x, y => inferInstanceAs (Decidable (@LT.lt (List Char) _ x y))
  | .bytes, x, y => inferInstanceAs (Decidable (@LT.lt Bytes _ x y))

def key (t : OrderedType) (x : t.Carrier) : Bytes := encodeKey [t.value x]

variable (t : OrderedType)

abbrev ValueBound := Option (t.Carrier × Bool)

variable {t}

def ValueBound.encoded (bound : t.ValueBound) : Bound := bound.map fun b => (t.key b.1,b.2)

def Within (lower upper : t.ValueBound) (x : t.Carrier) : Prop :=
  (∀ l ∈ lower, t.Less l.1 x ∨ x = l.1 ∧ l.2 = true) ∧ ∀ u ∈ upper, t.Less x u.1 ∨ x = u.1 ∧ u.2 = true
deriving Decidable

inductive RowOp (t : OrderedType)
  | insert (x : t.Carrier) (rowId : RowId)
  | remove (x : t.Carrier)
  | removeValue (x : t.Carrier) (rowId : RowId)

def RowOp.encoded : RowOp t → Op
  | .insert x rowId => .insert (t.key x) rowId
  | .remove x => .remove (t.key x)
  | .removeValue x rowId => .removeValue (t.key x) rowId

/-- What the calls mean for the indexed rows. A primary key takes no value whose key is empty. -/
def RowOp.apply (indexType : ArtIndexType) (rows : Multimap t.Carrier RowId) : RowOp t → Multimap t.Carrier RowId
  | .insert x rowId =>
    if t.key x = [] ∧ indexType = .primaryKey ∨ indexType.isUnique ∧ valuesAt rows x ≠ 0 then rows else (x,rowId) ::ₘ rows
  | .remove x => rows.filter fun row => row.1 ≠ x
  | .removeValue x rowId => rows.erase (x,rowId)

variable {x : t.Carrier} {width : Nat} {lower upper : t.ValueBound}

theorem key_lt_iff {y : t.Carrier} : t.key x < t.key y ↔ t.Less x y := by
  cases t
  case int2 | int4 | int8 => exact flippedBytes_lt_iff (by decide)
  case string => exact utf8Bytes_lt_iff
  case bytes => exact Iff.rfl

theorem key_injective : Function.Injective t.key := by
  intro x y h
  cases t
  case int2 | int4 | int8 => exact flippedBytes_injective (by decide) h
  case string => exact utf8Bytes_injective h
  case bytes => exact h

variable (h : t.width = some width)
include h

theorem decodeIntKey_key (x : t.Carrier) : decodeIntKey (t.key x) width = some (t.number x) := by
  cases t
  case int2 | int4 | int8 =>
    cases h
    rw [decodeIntKey,if_pos]
    · exact congrArg some (congrArg BitVec.toInt (unflip_flippedBytes (by decide) x))
    · exact length_flippedBytes _
  all_goals cases h

theorem length_key (x : t.Carrier) : (t.key x).length = width := by
  cases t
  case int2 | int4 | int8 =>
    cases h
    exact length_flippedBytes _
  all_goals cases h

theorem width_le : width ≤ maxPrefixLen := by
  cases t <;> cases h <;> decide

omit h

def entryOf (row : t.Carrier × RowId) : Bytes × RowId := Prod.map t.key id row

theorem entryOf_injective : Function.Injective (@entryOf t) := key_injective.prodMap Function.injective_id

theorem RowOp.map_apply (indexType : ArtIndexType) (rows : Multimap t.Carrier RowId) (op : RowOp t) :
    (op.apply indexType rows).map entryOf = op.encoded.apply indexType (rows.map entryOf) := by
  cases op with
  | insert x rowId =>
    rw [apply,encoded,Op.apply,show valuesAt (rows.map entryOf) (t.key x) = valuesAt rows x from valuesAt_map_key key_injective rows x]
    split
    · rfl
    · exact Multiset.map_cons _ _ _
  | remove x =>
    rw [apply,encoded,Op.apply,Multiset.filter_map]
    refine congrArg (Multiset.map entryOf) (Multiset.filter_congr fun row _ => ?_)
    exact not_congr key_injective.eq_iff.symm
  | removeValue x rowId => exact Multiset.map_erase _ entryOf_injective _ _

theorem map_run_apply (indexType : ArtIndexType) (rows : Multimap t.Carrier RowId) (ops : List (RowOp t)) :
    (run (RowOp.apply indexType) rows ops).map entryOf = run (Op.apply indexType) (rows.map entryOf) (ops.map RowOp.encoded) := by
  induction ops generalizing rows with
  | nil => rfl
  | cons op ops ih =>
    rw [run_cons,map_cons,run_cons,ih,RowOp.map_apply]

theorem keyInRange_key : keyInRange (t.key x) lower.encoded upper.encoded = true ↔ Within lower upper x := by
  rw [keyInRange_iff,Within]
  refine and_congr ⟨fun h l hl => ?_,fun h l hl => ?_⟩ ⟨fun h u hu => ?_,fun h u hu => ?_⟩
  · have hkey := h _ (Option.mem_map_of_mem _ hl)
    rwa [key_lt_iff,key_injective.eq_iff] at hkey
  · obtain ⟨b,hb,rfl⟩ := Option.mem_map.mp hl
    rw [key_lt_iff,key_injective.eq_iff]
    exact h b hb
  · have hkey := h _ (Option.mem_map_of_mem _ hu)
    rwa [key_lt_iff,key_injective.eq_iff] at hkey
  · obtain ⟨b,hb,rfl⟩ := Option.mem_map.mp hu
    rw [key_lt_iff,key_injective.eq_iff]
    exact h b hb

/-- The rows whose values lie within the bounds in the order of these, up to the limit, under the keys of the values. -/
def RangeRead (rows : Multimap t.Carrier RowId) (lower upper : t.ValueBound) (limit : Option Nat) (read : List (Bytes × RowId)) : Prop :=
  ∃ found : List (t.Carrier × RowId), found.Pairwise (fun a b => ¬t.Less b.1 a.1) ∧
    (found : Multimap t.Carrier RowId) = rows.filter (fun row => Within lower upper row.1) ∧
    read = (limit.elim found found.take).map entryOf

theorem rangeRead_of_scansExactly {tree : AdaptiveRadixTree} {rows : Multimap t.Carrier RowId}
    {limit : Option Nat} (h : tree.ScansExactly (rows.map entryOf) lower.encoded upper.encoded limit) :
    RangeRead rows lower upper limit (tree.rangeScan lower.encoded upper.encoded limit) := by
  obtain ⟨entries,hs,he,-,hr⟩ := h
  have hrw : (rows.map entryOf).filter (fun entry => keyInRange entry.1 lower.encoded upper.encoded = true) =
      (rows.filter fun row => Within lower upper row.1).map entryOf := by
    rw [Multiset.filter_map]
    exact congrArg (Multiset.map entryOf) (Multiset.filter_congr fun row _ => keyInRange_key)
  rw [hrw] at he
  -- every entry is one of a row
  have hrn : entries ∈ Set.range (List.map (@entryOf t)) := by
    rw [Set.range_list_map]
    intro entry hen
    have hm : entry ∈ (rows.filter fun row => Within lower upper row.1).map entryOf := by
      rw [← he]
      exact hen
    obtain ⟨row,-,hro⟩ := Multiset.mem_map.mp hm
    exact ⟨row,hro⟩
  obtain ⟨found,rfl⟩ := hrn
  rw [← Multiset.map_coe] at he
  refine ⟨found,?_,Multiset.map_injective entryOf_injective he,?_⟩
  · refine (pairwise_map.mp hs).imp fun hle hl => ?_
    exact absurd (key_lt_iff.mpr hl) (not_lt.mpr hle)
  · rw [hr]
    cases limit with
    | none => rfl
    | some n => exact (map_take).symm

/-- The range of a scan can be read off the index: the keys have one width, or every call was safe and the scan does not depend on
lost bytes. -/
def RangeKept (tree : AdaptiveRadixTree) (ops : List (RowOp t)) (lower upper : t.ValueBound) : Prop :=
  t.width.isSome = true ∨ Guarded step Safe tree (ops.map RowOp.encoded) ∧
    (run step tree (ops.map RowOp.encoded)).Scannable lower.encoded upper.encoded

instance (tree : AdaptiveRadixTree) (ops : List (RowOp t)) (lower upper : t.ValueBound) : Decidable (RangeKept tree ops lower upper) :=
  instDecidableOr

theorem hasWidth_run (h : t.width = some width) (name : String) (indexType : ArtIndexType) (ops : List (RowOp t)) :
    (run step (new name indexType) (ops.map RowOp.encoded)).HasWidth width
      ((run (RowOp.apply indexType) 0 ops).map entryOf) := by
  have hk : ∀ op ∈ ops.map RowOp.encoded, op.key.length = width := by
    intro op hop
    obtain ⟨rowOp,-,rfl⟩ := mem_map.mp hop
    cases rowOp with
    | insert x rowId | remove x | removeValue x rowId => exact length_key h x
  rw [map_run_apply]
  exact (HasWidth.new width name indexType).run (width_le h) hk

end OrderedType
open OrderedType

/-- The keys of a column are in the order of its values and those of integers read back as the integers. After a run of calls
whose range is kept, a scan reads the rows of its range. -/
theorem single_column_keys (t : OrderedType) : (∀ x y : t.Carrier, t.key x < t.key y ↔ t.Less x y) ∧
    (∀ (x : t.Carrier) n width, t.intValueWidth x = some (n,width) → decodeIntKey (t.key x) width = some n) ∧
    ∀ (manager : ArtIndexManager AdaptiveRadixTree) (indexName : Name) (entry : IndexEntry AdaptiveRadixTree) (name : String)
      (indexType : ArtIndexType) (ops : List (RowOp t)) (lower upper : t.ValueBound) (limit : Option Nat),
      manager.indexes.lookup indexName = some entry →
      entry.tree.contents = run AdaptiveRadixTree.step (AdaptiveRadixTree.new name indexType) (ops.map RowOp.encoded) →
      RangeKept (AdaptiveRadixTree.new name indexType) ops lower upper →
      RangeRead (run (RowOp.apply indexType) 0 ops) lower upper limit
        (indexRangeScan manager indexName lower.encoded upper.encoded limit) := by
  refine ⟨fun x y => key_lt_iff,fun x n width h => ?_,?_⟩
  · obtain ⟨width',hwidth,heq⟩ := map_eq_some_iff.mp h
    cases heq
    exact decodeIntKey_key hwidth x
  intro manager indexName entry name indexType ops lower upper limit hlookup htree hkept
  have hread : entry.tree.contents.Refines ((run (RowOp.apply indexType) 0 ops).map entryOf) ∧
      entry.tree.contents.Scannable lower.encoded upper.encoded := by
    rw [htree]
    obtain hwidth | ⟨hsafe,hscan⟩ := hkept
    · obtain ⟨width,hwidth⟩ := isSome_iff_exists.mp hwidth
      have hrun := hasWidth_run hwidth name indexType ops
      exact ⟨hrun.refines,hrun.scannable (width_le hwidth) _ _⟩
    · rw [map_run_apply]
      exact ⟨((AdaptiveRadixTree.Refines.new name indexType).run hsafe).1,hscan⟩
  rw [indexRangeScan,hlookup]
  exact rangeRead_of_scansExactly (hread.1.scansExactly hread.2 limit)

def columnIndex (indexName : Name) (contents : AdaptiveRadixTree) : IndexEntry AdaptiveRadixTree :=
  .new ⟨indexName,ascii ['t'],[ascii ['c']],contents.indexType,contents⟩

/-- A registry with a single index. -/
def onlyIndex (indexName : Name) (contents : AdaptiveRadixTree) : ArtIndexManager AdaptiveRadixTree :=
  ⟨(∅ : Map Name _).insert indexName (columnIndex indexName contents),∅,∅,∅,∅,∅⟩

theorem single_column_keys_string :
    let ops : List (RowOp .string) := [.insert ['b'] 1,.insert ['b','a'] 2,.insert [] 3,.remove ['b'],.insert ['a'] 4]
    let contents := run AdaptiveRadixTree.step (AdaptiveRadixTree.new "idx" .unique) (ops.map RowOp.encoded)
    let lower : ValueBound .string := some (['a'],true)
    RangeRead (run (RowOp.apply .unique) 0 ops) lower none none
      (indexRangeScan (onlyIndex (ascii ['i']) contents) (ascii ['i']) lower.encoded none none) := by
  intro ops contents lower
  exact (single_column_keys .string).2.2 (onlyIndex (ascii ['i']) contents) (ascii ['i']) (columnIndex (ascii ['i']) contents) "idx" .unique
    ops lower none none rfl rfl (by decide +kernel)

/-- The range from a text of eleven characters on has two rows, one of them that text. The scan reads none. -/
theorem shared_characters_mislead_scan :
    let long := List.replicate 11 'a'
    let ops : List (RowOp .string) := [.insert long 1,.insert (long ++ ['A']) 2]
    let contents := run AdaptiveRadixTree.step (AdaptiveRadixTree.new "idx" .unique) (ops.map RowOp.encoded)
    let rows := run (RowOp.apply .unique) 0 ops
    let lower : ValueBound .string := some (long,true)
    let read := indexRangeScan (onlyIndex (ascii ['i']) contents) (ascii ['i']) lower.encoded none none
    (long,1) ∈ rows.filter (fun row => Within lower none row.1) ∧ read = [] ∧ ¬RangeRead rows lower none none read := by
  intro long ops contents rows lower read
  have hheld : (long,1) ∈ rows.filter (fun row => Within lower none row.1) := by decide +kernel
  have hread : read = [] := by decide +kernel
  refine ⟨hheld,hread,?_⟩
  rintro ⟨found,-,hfound,hempty⟩
  rw [hread] at hempty
  have hnil : found = [] := map_eq_nil_iff.mp hempty.symm
  rw [← hfound,hnil] at hheld
  exact absurd hheld (Multiset.notMem_zero _)

end HeliosNano.Storage.KeyEncoding
