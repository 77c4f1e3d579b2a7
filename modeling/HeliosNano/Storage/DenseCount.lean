import HeliosNano.Foundation.Contiguous
import HeliosNano.Sql.Basics
import HeliosNano.Storage.KeyOrder

namespace HeliosNano.Storage.KeyEncoding
open Foundation Foundation.Multimap Art IndexRegistry Sql Option Finset

abbrev IntBound := Option (Int × Bool)

def isAbove (lower : IntBound) (value : Int) : Bool :=
  match lower with
  | none => true
  | some (bound,inclusive) => if inclusive then decide (bound ≤ value) else decide (bound < value)

def isBelow (upper : IntBound) (value : Int) : Bool :=
  match upper with
  | none => true
  | some (bound,inclusive) => if inclusive then decide (value ≤ bound) else decide (value < bound)

def withinInts (lower upper : IntBound) (value : Int) : Bool := isAbove lower value && isBelow upper value

/-- The first number of a range from `least` on. -/
def firstInt (least : Int) (lower : IntBound) : Int :=
  match lower with
  | none => least
  | some (bound,inclusive) => max least (bound + if inclusive then 0 else 1)

/-- The last number of a range up to `greatest`. -/
def lastInt (greatest : Int) (upper : IntBound) : Int :=
  match upper with
  | none => greatest
  | some (bound,inclusive) => min greatest (bound - if inclusive then 0 else 1)

theorem firstInt_le_iff {least value : Int} {lower : IntBound} :
    firstInt least lower ≤ value ↔ least ≤ value ∧ isAbove lower value = true := by
  obtain - | ⟨bound,inclusive⟩ := lower
  · simp [firstInt,isAbove]
  · cases inclusive
    · simp only [firstInt,isAbove,max_le_iff,Bool.false_eq_true,if_false,decide_eq_true_iff,Int.add_one_le_iff]
    · simp only [firstInt,isAbove,max_le_iff,if_true,decide_eq_true_iff,add_zero]

theorem le_lastInt_iff {greatest value : Int} {upper : IntBound} :
    value ≤ lastInt greatest upper ↔ value ≤ greatest ∧ isBelow upper value = true := by
  obtain - | ⟨bound,inclusive⟩ := upper
  · simp [lastInt,isBelow]
  · cases inclusive
    · simp only [lastInt,isBelow,le_min_iff,Bool.false_eq_true,if_false,decide_eq_true_iff,Int.le_sub_one_iff]
    · simp only [lastInt,isBelow,le_min_iff,if_true,decide_eq_true_iff,sub_zero]

theorem filter_withinInts_Icc (least greatest : Int) (lower upper : IntBound) :
    (Icc least greatest).filter (fun value => withinInts lower upper value = true) =
      Icc (firstInt least lower) (lastInt greatest upper) := by
  ext value
  rw [mem_filter,mem_Icc,mem_Icc,firstInt_le_iff,le_lastInt_iff,withinInts,Bool.and_eq_true]
  exact and_and_and_comm

theorem saturate_of_isI64 {a : Int} (h : IsI64 a) : saturate a = a := by
  rw [saturate,min_eq_right h.2,max_eq_right h.1]

/-- The numbers are those of `i64`. What is computed of them in `i128` does not overflow. -/
structure DenseIntStats where
  keyWidth : Nat
  len : Nat
  min : Int
  max : Int
  dense : Bool
  valid : Bool

namespace DenseIntStats

variable (keyWidth : Nat)

def new (value : Int) : DenseIntStats := ⟨keyWidth,1,value,value,true,true⟩

variable (s : DenseIntStats)

def isContiguous : Bool :=
  if s.valid then
    let span := s.max-s.min + 1
    decide (0 ≤ span ∧ span = s.len)
  else false

def insert (value : Int) : DenseIntStats :=
  if s.valid = false ∨ s.keyWidth ≠ keyWidth then { s with valid := false }
  else
    let s := { s with len := s.len+1, min := Min.min s.min value, max := Max.max s.max value }
    { s with dense := s.isContiguous }

def delete (value : Int) : DenseIntStats :=
  if s.valid = false ∨ s.len = 0 then { s with valid := false }
  else if s.len = 1 then { s with len := 0, dense := true, min := 0, max := 0 }
  else if s.dense then
    if value = s.min then { s with len := s.len-1, min := saturate (s.min+1) }
    else if value = s.max then { s with len := s.len-1, max := saturate (s.max-1) }
    else { s with len := s.len-1, dense := false }
  -- a deletion from a sparse set can leave the least or the greatest stale
  else { s with len := s.len-1, valid := false }

def countRange (lower upper : IntBound) : Option Nat :=
  if s.valid = false ∨ s.dense = false ∨ s.len = 0 ∨ s.keyWidth ≠ keyWidth then none
  else
    let lo := firstInt s.min lower
    let hi := lastInt s.max upper
    if hi < lo then some 0
    else if hi-lo + 1 < 2^64 then some (hi-lo + 1).toNat
    else none

/-- The counts are right about a set of keys of one width as long as they are valid. -/
structure Describes (width : Nat) (live : Finset Int) : Prop where
  nonempty : s.len ≠ 0
  exact : s.valid = true → s.keyWidth = width ∧ s.len = live.card ∧ Spans live s.min s.max ∧
    (s.dense = true ↔ live = Icc s.min s.max)

variable {s} {width : Nat} {live : Finset Int} {value : Int}

theorem describes_new (width : Nat) (value : Int) : (new width value).Describes width {value} := by
  refine ⟨one_ne_zero,fun _ => ⟨rfl,rfl,spans_singleton value,?_⟩⟩
  change true = true ↔ {value} = Icc value value
  rw [Icc_self]
  simp

theorem isContiguous_iff (hv : s.valid = true) (hle : s.min ≤ s.max) :
    s.isContiguous = true ↔ (s.len : Int) = s.max-s.min + 1 := by
  rw [isContiguous,if_pos hv,decide_eq_true_iff]
  omega

variable (h : s.Describes width live)
include h

theorem Describes.insert (hf : value ∉ live) : (s.insert width value).Describes width (Insert.insert value live) := by
  rw [DenseIntStats.insert]
  split
  · exact ⟨h.nonempty,nofun⟩
  next hv =>
    rw [not_or,not_not,Bool.not_eq_false] at hv
    obtain ⟨-,hl,hs,-⟩ := h.exact hv.1
    have hspans' := hs.insert value
    have hc : (live.card+1 : Int) = ((Insert.insert value live).card : Int) := by
      rw [card_insert_of_notMem hf]
      rfl
    refine ⟨Nat.succ_ne_zero _,fun _ => ⟨hv.2,?_,hspans',?_⟩⟩
    · rw [card_insert_of_notMem hf,← hl]
    · have hi := @isContiguous_iff ⟨s.keyWidth,s.len+1,Min.min s.min value,Max.max s.max value,s.dense,s.valid⟩ hv.1 hspans'.le
      refine hi.trans ?_
      rw [← hspans'.card_eq_iff,← hc,← hl]
      exact Iff.rfl

theorem Describes.delete (hlv : value ∈ live) (hr : ∀ x ∈ live, IsI64 x) :
    (s.delete value).len = 0 ∧ live.erase value = ∅ ∨ (s.delete value).Describes width (live.erase value) := by
  rw [DenseIntStats.delete]
  split
  next hno =>
    exact .inr ⟨h.nonempty,nofun⟩
  rename_i hvl
  rw [not_or,Bool.not_eq_false] at hvl
  obtain ⟨hw,hln,hs,hd⟩ := h.exact hvl.1
  have hc : (live.erase value).card = live.card-1 := card_erase_of_mem hlv
  split
  next ho =>
    refine .inl ⟨rfl,?_⟩
    rw [← card_eq_zero,hc,← hln,ho]
  rename_i hm
  -- more than one key: the least and the greatest differ
  have hls : s.min < s.max := by
    obtain hlt | heq := hs.le.lt_or_eq
    · exact hlt
    · have hle := card_le_card hs.subset
      rw [heq,Icc_self,card_singleton] at hle
      omega
  obtain ⟨hmn,-⟩ := hr _ hs.least.1
  obtain ⟨-,hmx⟩ := hr _ hs.greatest.1
  have hl : s.len-1 ≠ 0 := by omega
  right
  split
  next hy =>
    have ha := hd.mp hy
    split
    next hv =>
      have he : live.erase value = Icc (s.min+1) s.max := by
        rw [ha,hv]
        exact Icc_erase_least
      have hsc : saturate (s.min+1) = s.min+1 := saturate_of_isI64 ⟨by omega,by omega⟩
      refine ⟨hl,fun _ => ⟨hw,by rw [hc,← hln],?_⟩⟩
      dsimp only
      rw [hsc,he]
      exact ⟨spans_Icc (by omega),by simp [hy]⟩
    split
    next hv =>
      have he : live.erase value = Icc s.min (s.max-1) := by
        rw [ha,hv]
        exact Icc_erase_greatest
      have hp : saturate (s.max-1) = s.max-1 := saturate_of_isI64 ⟨by omega,by omega⟩
      refine ⟨hl,fun _ => ⟨hw,by rw [hc,← hln],?_⟩⟩
      dsimp only
      rw [hp,he]
      exact ⟨spans_Icc (by omega),by simp [hy]⟩
    next hlo hhi =>
      refine ⟨hl,fun _ => ⟨hw,by rw [hc,← hln],hs.erase hlo hhi,?_⟩⟩
      simp only [Bool.false_eq_true,false_iff]
      intro heq
      refine notMem_erase value live ?_
      rw [heq,← ha]
      exact hlv
  · exact ⟨hl,nofun⟩

theorem Describes.countRange {keyWidth n : Nat} {lower upper : IntBound} (hn : s.countRange keyWidth lower upper = some n) :
    keyWidth = width ∧ n = (live.filter fun value => withinInts lower upper value = true).card := by
  rw [DenseIntStats.countRange.eq_def] at hn
  split at hn
  · cases hn
  rename_i hg
  simp only [not_or,Bool.not_eq_false,not_not] at hg
  obtain ⟨hv,hy,-,rfl⟩ := hg
  obtain ⟨hw,-,hs,hd⟩ := h.exact hv
  refine ⟨hw,?_⟩
  rw [hd.mp hy,filter_withinInts_Icc,Int.card_Icc]
  dsimp only at hn
  split at hn
  · cases hn
    omega
  split at hn
  · cases hn
    omega
  · cases hn

end DenseIntStats
open OrderedType

/-- A tree with its `dense_int_stats`. -/
structure CountedTree where
  tree : AdaptiveRadixTree
  denseIntStats : Option DenseIntStats

namespace CountedTree

def new (name : String) : CountedTree := ⟨.new name .primaryKey,none⟩

variable (c : CountedTree)
variable (keyWidth : Nat)

def recordDenseIntInsert (value : Int) : CountedTree :=
  match c.denseIntStats with
  | some stats => { c with denseIntStats := some (stats.insert keyWidth value) }
  | none => { c with denseIntStats := some (.new keyWidth value) }

def recordDenseIntDelete (value : Int) : CountedTree :=
  match c.denseIntStats with
  | some stats =>
    let stats := stats.delete value
    { c with denseIntStats := if stats.len = 0 then none else some stats }
  | none => c

def denseIntCount (lower upper : IntBound) : Option Nat :=
  c.denseIntStats.bind fun stats => stats.countRange keyWidth lower upper

def scanCount (lower upper : IntBound) : Nat :=
  ((c.tree.iter.collect.filterMap fun item => decodeIntKey item.1 keyWidth).filter fun value => withinInts lower upper value).length

variable {c} {width : Nat} {numbers : Finset Int} {value : Int}

/-- The counts are right about a set of numbers; a tree without counts has none. -/
def Counts (c : CountedTree) (width : Nat) (numbers : Finset Int) : Prop :=
  match c.denseIntStats with
  | some stats => stats.Describes width numbers
  | none => numbers = ∅

@[simp] theorem tree_recordDenseIntInsert (value : Int) : (c.recordDenseIntInsert keyWidth value).tree = c.tree := by
  rw [recordDenseIntInsert]
  split
  · rfl
  · rfl

@[simp] theorem tree_recordDenseIntDelete (value : Int) : (c.recordDenseIntDelete value).tree = c.tree := by
  rw [recordDenseIntDelete]
  split
  · rfl
  · rfl

variable (h : c.Counts width numbers)
include h

theorem Counts.insert (hf : value ∉ numbers) : (c.recordDenseIntInsert width value).Counts width (insert value numbers) := by
  obtain ⟨tree,- | stats⟩ := c
  · obtain rfl : numbers = ∅ := h
    exact DenseIntStats.describes_new width value
  · exact DenseIntStats.Describes.insert h hf

theorem Counts.delete (hl : value ∈ numbers) (hr : ∀ x ∈ numbers, IsI64 x) :
    (c.recordDenseIntDelete value).Counts width (numbers.erase value) := by
  obtain ⟨tree,- | stats⟩ := c
  · obtain rfl : numbers = ∅ := h
    cases notMem_empty _ hl
  rw [recordDenseIntDelete,Counts]
  dsimp only
  obtain ⟨hln,he⟩ | hleft := DenseIntStats.Describes.delete h hl hr
  · rw [if_pos hln]
    exact he
  · rw [if_neg hleft.nonempty]
    exact hleft

theorem Counts.denseIntCount {keyWidth n : Nat} {lower upper : IntBound} (hn : c.denseIntCount keyWidth lower upper = some n) :
    keyWidth = width ∧ n = (numbers.filter fun value => withinInts lower upper value = true).card := by
  obtain ⟨tree,- | stats⟩ := c
  · cases hn
  · exact DenseIntStats.Describes.countRange h hn

end CountedTree
open CountedTree

def intKeyWidth : ColumnType → Option Nat
  | .int2 => some 2
  | .int4 => some 4
  | .int8 => some 8
  | _ => none

/-- `pk_index_count_int_range`. -/
def pkIndexCountIntRange (manager : ArtIndexManager CountedTree) (table : Name) (pkType : ColumnType) (lower upper : IntBound) :
    Option Nat := do
  let keyWidth ← intKeyWidth pkType
  let pkName ← manager.pkIndexes.lookup table
  let entry ← manager.indexes.lookup pkName
  if entry.columns.length ≠ 1 then none
  else some ((entry.tree.contents.denseIntCount keyWidth lower upper).getD (entry.tree.contents.scanCount keyWidth lower upper))

/-- What a statement does with the index of a primary key of one column. -/
inductive KeyCall (t : OrderedType)
  | insert (x : t.Carrier) (rowId : RowId)
  | delete (x : t.Carrier)

variable {t : OrderedType}

def KeyCall.step (c : CountedTree) : KeyCall t → CountedTree
  | .insert x rowId =>
    match c.tree.insert (t.key x) rowId with
    | (tree,.ok _) =>
      match t.intValueWidth x with
      | some (value,keyWidth) => { c with tree := tree }.recordDenseIntInsert keyWidth value
      | none => { c with tree := tree }
    | (tree,.error _) => { c with tree := tree }
  | .delete x =>
    match c.tree.remove (t.key x) with
    | (tree,.ok (some _)) =>
      match t.intValueWidth x with
      | some (value,_) => { c with tree := tree }.recordDenseIntDelete value
      | none => { c with tree := tree }
    | (tree,_) => { c with tree := tree }

def KeyCall.live (keys : Finset t.Carrier) : KeyCall t → Finset t.Carrier
  | .insert x _ => Insert.insert x keys
  | .delete x => keys.erase x

section
variable {width : Nat}

theorem intValueWidth_of_width (h : t.width = some width) (x : t.Carrier) : t.intValueWidth x = some (t.number x,width) := by
  rw [OrderedType.intValueWidth,h]
  rfl

theorem number_injective (h : t.width = some width) : Function.Injective t.number := by
  intro x y heq
  apply t.key_injective
  cases t
  case int2 | int4 | int8 => exact congrArg _ (BitVec.eq_of_toInt_eq heq)
  all_goals cases h

theorem isI64_number (h : t.width = some width) (x : t.Carrier) : IsI64 (t.number x) := by
  cases t
  case int2 | int4 | int8 =>
    have hl := BitVec.le_toInt x
    have hh := @BitVec.toInt_lt _ x
    refine ⟨?_,?_⟩
    · rw [i64Min]
      change _ ≤ x.toInt
      omega
    · rw [i64Max]
      change x.toInt ≤ _
      omega
  all_goals cases h

/-- A primary key with exactly these keys, and counts that are right about their numbers. -/
structure CountedTree.Holds (width : Nat) (c : CountedTree) (live : Finset t.Carrier) : Prop where
  entries : ∃ m, c.tree.HasWidth width m ∧ m.map Prod.fst = live.val.map t.key
  kind : c.tree.indexType = .primaryKey
  counts : c.Counts width (live.image t.number)

theorem CountedTree.holds_new (name : String) : (new name).Holds width (∅ : Finset t.Carrier) :=
  ⟨⟨0,.new width name .primaryKey,rfl⟩,rfl,rfl⟩

variable {c : CountedTree} {live : Finset t.Carrier}

theorem valuesAt_key_ne_zero {m : Multimap Bytes RowId} (hm : m.map Prod.fst = live.val.map t.key) (x : t.Carrier) :
    valuesAt m (t.key x) ≠ 0 ↔ x ∈ live := by
  have hmm : t.key x ∈ m.map Prod.fst ↔ x ∈ live := by
    rw [hm,Multiset.mem_map_of_injective t.key_injective]
    exact Iff.rfl
  rw [← hmm,ne_eq,valuesAt_eq_zero_iff,Multiset.mem_map]
  push Not
  rfl

theorem key_ne_nil (h : t.width = some width) (x : t.Carrier) : t.key x ≠ [] := by
  have hl := length_key h x
  intro hn
  rw [hn] at hl
  cases t
  case int2 | int4 | int8 => cases h; cases hl
  all_goals cases h

variable (h : c.Holds width live)
include h

variable (hw : t.width = some width)
include hw

theorem CountedTree.Holds.insert (x : t.Carrier) (rowId : RowId) :
    ((KeyCall.insert x rowId).step c).Holds width ((KeyCall.insert x rowId).live live) := by
  obtain ⟨m,hm,hky⟩ := h.entries
  have hkey : (Op.insert (t.key x) rowId).key.length = width := length_key hw x
  have hr := hm.reports (width_le hw) hkey
  have hs := hm.step (width_le hw) hkey
  have hk := c.tree.indexType_step (.insert (t.key x) rowId)
  rw [h.kind] at hr hs hk
  change AdaptiveRadixTree.HasWidth width (c.tree.insert (t.key x) rowId).1 _ at hs
  change (c.tree.insert (t.key x) rowId).1.indexType = _ at hk
  change Op.Reports _ m (.insert (t.key x) rowId) (.inserted (c.tree.insert (t.key x) rowId).2) at hr
  rw [Op.apply] at hs
  rw [Op.Reports,if_neg fun hno => key_ne_nil hw x hno.1] at hr
  rw [KeyCall.step,KeyCall.live]
  generalize c.tree.insert (t.key x) rowId = result at hr hs hk ⊢
  obtain ⟨tree,answer⟩ := result
  by_cases hx : x ∈ live
  · have hh : ArtIndexType.isUnique .primaryKey ∧ valuesAt m (t.key x) ≠ 0 := ⟨.inl rfl,(valuesAt_key_ne_zero hky x).mpr hx⟩
    rw [if_pos hh] at hr
    rw [if_pos (.inr hh)] at hs
    obtain ⟨message,rfl⟩ := hr
    rw [insert_eq_of_mem hx]
    exact ⟨⟨m,hs,hky⟩,hk,h.counts⟩
  · have hf : ¬(ArtIndexType.isUnique .primaryKey ∧ valuesAt m (t.key x) ≠ 0) := fun hno =>
      hx ((valuesAt_key_ne_zero hky x).mp hno.2)
    rw [if_neg hf] at hr
    rw [if_neg (not_or.mpr ⟨fun hno => key_ne_nil hw x hno.1,hf⟩)] at hs
    obtain rfl := hr
    dsimp only
    rw [intValueWidth_of_width hw]
    have hn : t.number x ∉ live.image t.number := by
      rwa [(number_injective hw).mem_finset_image]
    have hc : Counts ⟨tree,c.denseIntStats⟩ width (live.image t.number) := h.counts
    refine ⟨⟨(t.key x,rowId) ::ₘ m,?_,?_⟩,?_,?_⟩
    · rw [tree_recordDenseIntInsert]
      exact hs
    · rw [Multiset.map_cons,hky,insert_val_of_notMem hx,Multiset.map_cons]
    · rw [tree_recordDenseIntInsert]
      exact hk
    · rw [image_insert]
      exact hc.insert hn

theorem CountedTree.Holds.delete (x : t.Carrier) : ((KeyCall.delete x).step c).Holds width ((KeyCall.delete x).live live) := by
  obtain ⟨m,hm,hky⟩ := h.entries
  have hkey : (Op.remove (t.key x)).key.length = width := length_key hw x
  have hr := hm.reports (width_le hw) hkey
  have hs := hm.step (width_le hw) hkey
  have hk := c.tree.indexType_step (.remove (t.key x))
  rw [h.kind] at hr hs hk
  change AdaptiveRadixTree.HasWidth width (c.tree.remove (t.key x)).1 _ at hs
  change (c.tree.remove (t.key x)).1.indexType = _ at hk
  change Op.Reports _ m (.remove (t.key x)) (.removed (c.tree.remove (t.key x)).2) at hr
  rw [Op.apply] at hs
  obtain ⟨removed,ha,hsm,-⟩ := hr
  rw [KeyCall.step,KeyCall.live]
  have hl : (m.filter fun entry => entry.1 ≠ t.key x).map Prod.fst = (live.erase x).val.map t.key := by
    have hkp := Multiset.filter_map (· ≠ t.key x) Prod.fst m
    rw [hky,Multiset.filter_map] at hkp
    rw [erase_val,Multiset.Nodup.erase_eq_filter x live.nodup]
    refine hkp.symm.trans (congrArg (Multiset.map t.key) (Multiset.filter_congr fun y _ => ?_))
    exact not_congr t.key_injective.eq_iff
  generalize c.tree.remove (t.key x) = result at ha hs hk ⊢
  obtain ⟨tree,answer⟩ := result
  obtain rfl := ha
  by_cases hx : x ∈ live
  · rw [valuesAt_key_ne_zero hky,iff_true_right hx] at hsm
    obtain ⟨rowId,rfl⟩ := isSome_iff_exists.mp hsm
    dsimp only
    rw [intValueWidth_of_width hw]
    have hc : Counts ⟨tree,c.denseIntStats⟩ width (live.image t.number) := h.counts
    refine ⟨⟨m.filter fun entry => entry.1 ≠ t.key x,?_,hl⟩,?_,?_⟩
    · rw [tree_recordDenseIntDelete]
      exact hs
    · rw [tree_recordDenseIntDelete]
      exact hk
    · rw [image_erase (number_injective hw)]
      refine hc.delete (mem_image_of_mem _ hx) fun value hv => ?_
      obtain ⟨y,-,rfl⟩ := mem_image.mp hv
      exact isI64_number hw y
  · rw [valuesAt_key_ne_zero hky,iff_false_right hx,Bool.not_eq_true,isSome_eq_false_iff,isNone_iff_eq_none] at hsm
    obtain rfl := hsm
    rw [erase_eq_of_notMem hx] at hl ⊢
    exact ⟨⟨_,hs,hl⟩,hk,h.counts⟩

theorem CountedTree.Holds.step (call : KeyCall t) : (call.step c).Holds width (call.live live) := by
  cases call with
  | insert x rowId => exact h.insert hw x rowId
  | delete x => exact h.delete hw x

theorem CountedTree.Holds.run (calls : List (KeyCall t)) :
    (Foundation.run KeyCall.step c calls).Holds width (Foundation.run KeyCall.live live calls) := by
  induction calls generalizing c live with
  | nil => exact h
  | cons call calls ih => exact ih (h.step hw call)

theorem CountedTree.Holds.scanCount (lower upper : IntBound) :
    c.scanCount width lower upper = (live.filter fun x => withinInts lower upper (t.number x) = true).card := by
  obtain ⟨m,hm,hk⟩ := h.entries
  have hits : (c.tree.iter.collect : Multimap Bytes RowId) = m := hm.refines.coe_collect_iter (hm.plain (width_le hw))
  have hn : m.filterMap (fun item => decodeIntKey item.1 width) = live.val.map t.number :=
    calc m.filterMap (fun item => decodeIntKey item.1 width)
      _ = (m.map Prod.fst).filterMap fun key => decodeIntKey key width := by
        rw [Multiset.filterMap_map]
        rfl
      _ = live.val.filterMap fun x => some (t.number x) := by
        rw [hk,Multiset.filterMap_map]
        exact congrArg (fun f => Multiset.filterMap f live.val) (funext fun x => decodeIntKey_key hw x)
      _ = live.val.map t.number := by
        rw [← Multiset.filterMap_eq_map]
        rfl
  have hc : c.scanCount width lower upper =
      (((c.tree.iter.collect : Multimap Bytes RowId).filterMap fun item => decodeIntKey item.1 width).filter fun value =>
        withinInts lower upper value = true).card := by
    rw [Multiset.filterMap_coe,Multiset.filter_coe,Multiset.coe_card]
    simp only [Bool.decide_eq_true]
    rfl
  rw [hc,hits,hn,Multiset.filter_map,Multiset.card_map]
  rfl

theorem CountedTree.Holds.denseIntCount {keyWidth n : Nat} {lower upper : IntBound}
    (hn : c.denseIntCount keyWidth lower upper = some n) :
    keyWidth = width ∧ n = (live.filter fun x => withinInts lower upper (t.number x) = true).card := by
  obtain ⟨hkey,hc⟩ := h.counts.denseIntCount hn
  refine ⟨hkey,hc.trans ?_⟩
  rw [filter_image,card_image_of_injective _ (number_injective hw)]

end

def OrderedType.columnType : OrderedType → ColumnType
  | .int2 => .int2
  | .int4 => .int4
  | .int8 => .int8
  | .string => .string
  | .bytes => .bytes

theorem intKeyWidth_columnType (t : OrderedType) : intKeyWidth t.columnType = t.width := by
  cases t
  all_goals rfl

/-- After any calls on a primary key of one integer column, a count of a range that is given without a scan is the number of live keys
within the bounds, which is what the scan counts. -/
theorem dense_int_count_exact (t : OrderedType) {width : Nat} (hwidth : t.width = some width) (name : String) (calls : List (KeyCall t))
    (lower upper : IntBound) :
    let c := run KeyCall.step (CountedTree.new name) calls
    let counted := ((run KeyCall.live ∅ calls).filter fun x => withinInts lower upper (t.number x) = true).card
    c.scanCount width lower upper = counted ∧
    (∀ keyWidth n, c.denseIntCount keyWidth lower upper = some n → n = counted ∧ n = c.scanCount keyWidth lower upper) ∧
    ∀ (manager : ArtIndexManager CountedTree) (table pkName : Name) (entry : IndexEntry CountedTree),
      manager.pkIndexes.lookup table = some pkName → manager.indexes.lookup pkName = some entry → entry.columns.length = 1 →
      entry.tree.contents = c → pkIndexCountIntRange manager table t.columnType lower upper = some counted := by
  intro c counted
  have hholds : c.Holds width (run KeyCall.live ∅ calls) := (CountedTree.holds_new name).run hwidth calls
  have hscan : c.scanCount width lower upper = counted := hholds.scanCount hwidth lower upper
  have hdense : ∀ keyWidth n, c.denseIntCount keyWidth lower upper = some n → keyWidth = width ∧ n = counted := fun keyWidth n hn =>
    hholds.denseIntCount hwidth hn
  refine ⟨hscan,fun keyWidth n hn => ?_,?_⟩
  · obtain ⟨rfl,rfl⟩ := hdense keyWidth n hn
    exact ⟨rfl,hscan.symm⟩
  · intro manager table pkName entry hpk hentry hcolumns hcontents
    have hanswer : (c.denseIntCount width lower upper).getD (c.scanCount width lower upper) = counted := by
      cases hcount : c.denseIntCount width lower upper with
      | none => exact hscan
      | some n => exact (hdense width n hcount).2
    rw [pkIndexCountIntRange,intKeyWidth_columnType,hwidth]
    simp only [hpk,hentry,hcolumns,hcontents,bind_eq_bind,bind_some,ne_eq,not_true,if_false]
    exact congrArg some hanswer

/-- Deletions at both ends and inside, and an insertion that closes the gap. -/
theorem dense_int_count_exact_int4 :
    let calls : List (KeyCall .int4) :=
      [.insert 5#32 1,.insert 6#32 2,.insert 8#32 3,.insert 7#32 4,.delete 6#32,.insert 6#32 5,.delete 8#32]
    let c := run KeyCall.step (CountedTree.new "t_pkey") calls
    let counted := ((run KeyCall.live ∅ calls).filter fun x => withinInts (some (5,false)) none (number .int4 x) = true).card
    c.denseIntCount 4 (some (5,false)) none = some 2 ∧ c.scanCount 4 (some (5,false)) none = counted := by
  intro calls c counted
  exact ⟨by decide +kernel,(dense_int_count_exact .int4 rfl "t_pkey" calls (some (5,false)) none).1⟩

end HeliosNano.Storage.KeyEncoding
