import HeliosNano.Sql.Expr

namespace HeliosNano.Sql.ThreeValued
open Foundation List Ordering

/-- The types within which the derived predicates are compared with their expansions. -/
inductive Kind
  | integer
  | text
  | boolean
  | numeric
deriving DecidableEq

/-- NULL or a value of the kind; the payload of a `NUMERIC` is a number or a special value. -/
def IsOf (c : Conversions) : Kind → Value → Prop
  | _, .null => True
  | .integer, .int2 _ | .integer, .int4 _ | .integer, .int8 _ => True
  | .text, .string _ => True
  | .boolean, .boolean _ => True
  | .numeric, .numeric payload => (specialOf payload).isSome ∨ (c.parseDecimal payload).isSome
  | _, _ => False

def ofTri : Tri → Value
  | none => .null
  | some b => .boolean b

section
variable (c : Conversions)

def compare3 (test : Ordering → Bool) (v w : Value) : Tri :=
  if v = .null ∨ w = .null then none
  else match valueOrdering c v w with
    | .ok ordering => some (test ordering)
    | .error _ => none

def between3 (v low high : Value) : Tri :=
  Tri.and (compare3 c isGE v low) (compare3 c isLE v high)

def in3 (v : Value) (members : List Value) : Tri := Tri.any (members.map (compare3 c isEq v))

def negate3 (negated : Bool) (t : Tri) : Tri := if negated then Tri.not t else t

/-- The first pair decides, unless it is equal. -/
def lex3 (test : Ordering → Bool) (last : Tri) : List (Value × Value) → Tri
  | [] => last
  | (l,r)::rest =>
    Tri.or (compare3 c test l r) (Tri.and (compare3 c isEq l r) (lex3 test last rest))

inductive RowOperator
  | eq
  | notEq
  | lt
  | ltEq
  | gt
  | gtEq

def RowOperator.binary : RowOperator → BinaryOperator
  | eq => .eq
  | notEq => .notEq
  | lt => .lt
  | ltEq => .ltEq
  | gt => .gt
  | gtEq => .gtEq

def row3 (op : RowOperator) (pairs : List (Value × Value)) : Tri :=
  match op with
  | .eq => Tri.all (pairs.map fun pair => compare3 c isEq pair.1 pair.2)
  | .notEq => Tri.any (pairs.map fun pair => compare3 c isNe pair.1 pair.2)
  | .lt => lex3 c isLT (some false) pairs
  | .ltEq => lex3 c isLT (some true) pairs
  | .gt => lex3 c isGT (some false) pairs
  | .gtEq => lex3 c isGT (some true) pairs

variable {c}

/-- Two spellings of one number are different payloads; a special value is ranked. -/
def Spelled : Value → Value → Prop
  | .numeric a, .numeric b => (specialOf a).isSome ∨ (specialOf b).isSome ∨ a = b
  | _, _ => True

instance (v w : Value) : Decidable (Spelled v w) := by
  cases v <;> cases w <;> first | exact instDecidableTrue | exact inferInstanceAs (Decidable (_ ∨ _))

theorem beq_iff_cmp {α : Type} [LinearOrder α] (a b : α) : (a == b) = true ↔ cmp a b = .eq := by
  rw [cmp_eq_eq_iff,beq_iff_eq]

theorem text_beq_iff_cmp (a b : Text) : (a == b) = true ↔ cmp a b = .eq := by
  have hc : cmp a b = @cmp Text Preorder.toLT LinearOrder.toDecidableLT a b := by
    unfold cmp
    congr
  rw [hc,cmp_eq_eq_iff,beq_iff_eq]

theorem numeric_ordering {a b : Text} (ha : IsOf c .numeric (.numeric a)) (hb : IsOf c .numeric (.numeric b)) :
    ∃ ordering, valueOrdering c (.numeric a) (.numeric b) = .ok ordering ∧
      (valuesEqual c (.numeric a) (.numeric b) = true ↔ ordering = .eq ∧ Spelled (.numeric a) (.numeric b)) := by
  by_cases hsp : (specialOf a).isSome ∨ (specialOf b).isSome
  · obtain ⟨ordering,hc⟩ : ∃ ordering, specialOperatorCmp c (.numeric a) (.numeric b) = some ordering := by
      rw [specialOperatorCmp,if_pos (by simpa [isSpecialNumeric] using hsp)]
      exact ⟨_,rfl⟩
    have hs : Spelled (.numeric a) (.numeric b) := (or_assoc.mp (.inl hsp))
    refine ⟨ordering,by rw [valueOrdering,hc],?_⟩
    simp only [valuesEqual,hc,beq_iff_eq,hs,and_true]
  · obtain ⟨hna,hnb⟩ := not_or.mp hsp
    obtain ⟨x,hx⟩ := Option.isSome_iff_exists.mp (Or.resolve_left ha hna)
    obtain ⟨y,hy⟩ := Option.isSome_iff_exists.mp (Or.resolve_left hb hnb)
    have hc : specialOperatorCmp c (.numeric a) (.numeric b) = none := by
      rw [specialOperatorCmp,if_neg (by simpa [isSpecialNumeric] using hsp)]
    have hok : valueOrdering c (.numeric a) (.numeric b) = .ok (cmp x y) := by
      rw [valueOrdering,hc]
      dsimp only
      rw [hx,hy]
    have he : valuesEqual c (.numeric a) (.numeric b) = true ↔ a = b := by
      simp only [valuesEqual,hc,beq_iff_eq]
    refine ⟨cmp x y,hok,he.trans ?_⟩
    constructor
    · rintro rfl
      rw [hy] at hx
      rw [Option.some.inj hx,cmp_self_eq_eq]
      exact ⟨rfl,.inr (.inr rfl)⟩
    · rintro ⟨-,hs⟩
      exact (hs.resolve_left hna).resolve_left hnb

variable {v w : Value} {k : Kind}

theorem valueOrdering_ok (hv : IsOf c k v) (hw : IsOf c k w) (hvn : v ≠ .null) (hwn : w ≠ .null) :
    ∃ ordering, valueOrdering c v w = .ok ordering ∧ (valuesEqual c v w = true ↔ ordering = .eq ∧ Spelled v w) := by
  cases k with
  | integer =>
    have hint : ∀ {v : Value}, IsOf c .integer v → v ≠ .null → ∃ n, v = .int2 n ∨ v = .int4 n ∨ v = .int8 n := by
      intro v hv hvn
      cases v <;> simp_all [IsOf]
    obtain ⟨a,hv⟩ := hint hv hvn
    obtain ⟨b,hw⟩ := hint hw hwn
    rcases hv with rfl | rfl | rfl <;> rcases hw with rfl | rfl | rfl <;>
      exact ⟨cmp a b,rfl,(beq_iff_cmp a b).trans (and_iff_left trivial).symm⟩
  | text =>
    cases v <;> cases w <;> first | exact absurd rfl hvn | exact absurd rfl hwn | exact absurd hv id | exact absurd hw id | skip
    rename_i a b
    exact ⟨cmp a b,rfl,(text_beq_iff_cmp a b).trans (and_iff_left trivial).symm⟩
  | boolean =>
    cases v <;> cases w <;> first | exact absurd rfl hvn | exact absurd rfl hwn | exact absurd hv id | exact absurd hw id | skip
    rename_i a b
    exact ⟨cmp a b,rfl,(beq_iff_cmp a b).trans (and_iff_left trivial).symm⟩
  | numeric =>
    cases v <;> cases w <;> first | exact absurd rfl hvn | exact absurd rfl hwn | exact absurd hv id | exact absurd hw id | skip
    exact numeric_ordering hv hw

theorem compare3_of_null {test : Ordering → Bool} (h : v = .null ∨ w = .null) : compare3 c test v w = none :=
  if_pos h

theorem compare3_ok (hv : IsOf c k v) (hw : IsOf c k w) (hvn : v ≠ .null) (hwn : w ≠ .null) :
    ∃ ordering, (∀ test, compare3 c test v w = some (test ordering)) ∧
      (valuesEqual c v w = true ↔ ordering = .eq ∧ Spelled v w) := by
  obtain ⟨ordering,hok,he⟩ := valueOrdering_ok hv hw hvn hwn
  refine ⟨ordering,fun test => ?_,he⟩
  rw [compare3,if_neg (not_or.mpr ⟨hvn,hwn⟩),hok]

theorem compareValues_eq (hv : IsOf c k v) (hw : IsOf c k w) (test : Ordering → Bool) :
    compareValues c v w test = .ok (ofTri (compare3 c test v w)) := by
  by_cases hn : v = .null ∨ w = .null
  · rw [compareValues,if_pos hn,compare3_of_null hn]
    rfl
  obtain ⟨hvn,hwn⟩ := not_or.mp hn
  obtain ⟨ordering,hok,-⟩ := valueOrdering_ok hv hw hvn hwn
  rw [compareValues,if_neg hn,compare3,if_neg hn,hok]
  rfl

theorem valuesEqual_of_null (h : v = .null ∨ w = .null) : valuesEqual c v w = false := by
  have hs : specialOperatorCmp c v w = none := by
    by_cases hsp : (isSpecialNumeric v || isSpecialNumeric w) = true
    · rw [specialOperatorCmp,if_pos hsp]
      rcases h with rfl | rfl
      · rfl
      · cases numericRank c v <;> rfl
    · exact if_neg hsp
  unfold valuesEqual
  rw [hs]
  rcases h with rfl | rfl
  · cases w <;> rfl
  · cases v <;> rfl

/-- `x = v` is TRUE. -/
def Equal (c : Conversions) (v w : Value) : Prop := compare3 c isEq v w = some true
deriving Decidable

theorem valuesEqual_iff (hv : IsOf c k v) (hw : IsOf c k w) : valuesEqual c v w = true ↔ Equal c v w ∧ Spelled v w := by
  by_cases hn : v = .null ∨ w = .null
  · simp [valuesEqual_of_null hn,Equal,compare3_of_null hn]
  obtain ⟨hvn,hwn⟩ := not_or.mp hn
  obtain ⟨ordering,hok,he⟩ := compare3_ok hv hw hvn hwn
  rw [he,Equal,hok]
  cases ordering <;> simp [isEq]

end

section
variable {ev : Evaluator} {k : Kind}

/-- A bound that is NULL leaves the other one undecided, or NULL is tested. -/
def BoundsDecide (c : Conversions) (v low high : Value) : Prop :=
  v = .null ∨ (low = .null → compare3 c isLE v high ≠ some false) ∧
    (high = .null → compare3 c isGE v low ≠ some false)
deriving Decidable

variable {b a : Tri} {negated : Bool} {v : Value} {members : List Value}

theorem ofTri_injective (h : ofTri a = ofTri b) : a = b := by
  rcases a with _ | _ | _ <;> rcases b with _ | _ | _ <;> first | rfl | cases h

theorem negate3_eq_none {t : Tri} : negate3 negated t = none ↔ t = none := by
  cases negated <;> rcases t with _ | _ | _ <;> simp [negate3,Tri.not]

variable (hv : IsOf ev.conversions k v)
include hv

theorem evaluateBetween_iff {low high : Value} (hl : IsOf ev.conversions k low)
    (hh : IsOf ev.conversions k high) (negated : Bool) : ev.evaluateBetween (.ok v) (.ok low) (.ok high) negated =
        .ok (ofTri (negate3 negated (between3 ev.conversions v low high))) ↔ BoundsDecide ev.conversions v low high := by
  by_cases hn : v = .null ∨ low = .null ∨ high = .null
  · -- The code answers NULL, so the conjunction has to be unknown.
    have hc : ev.evaluateBetween (.ok v) (.ok low) (.ok high) negated = .ok (ofTri none) := if_pos hn
    have hu : ev.evaluateBetween (.ok v) (.ok low) (.ok high) negated =
        .ok (ofTri (negate3 negated (between3 ev.conversions v low high))) ↔
        between3 ev.conversions v low high = none := by
      rw [hc,Except.ok.injEq,← negate3_eq_none]
      exact ⟨fun h => (ofTri_injective h).symm,fun h => by rw [h]⟩
    rw [hu,between3,BoundsDecide]
    by_cases hvn : v = .null
    · rw [compare3_of_null (.inl hvn),compare3_of_null (.inl hvn)]
      exact ⟨fun _ => .inl hvn,fun _ => rfl⟩
    by_cases hln : low = .null
    · rw [compare3_of_null (.inr hln)]
      by_cases hhn : high = .null
      · simp [compare3_of_null (.inr hhn),Tri.and]
      · obtain ⟨ordering,hok,-⟩ := compare3_ok hv hh hvn hhn
        simp only [hok,hvn,hln,hhn,false_or,true_implies,false_implies,and_true]
        cases isLE ordering <;> simp [Tri.and]
    · have hhn : high = .null := (hn.resolve_left hvn).resolve_left hln
      obtain ⟨ordering,hok,-⟩ := compare3_ok hv hl hvn hln
      rw [compare3_of_null (.inr hhn)]
      simp only [hok,hvn,hln,hhn,false_or,true_implies,false_implies,true_and]
      cases isGE ordering <;> simp [Tri.and]
  · obtain ⟨hvn,hln,hhn⟩ : v ≠ .null ∧ low ≠ .null ∧ high ≠ .null := by
      simpa only [not_or] using hn
    obtain ⟨first,hf,-⟩ := compare3_ok hv hl hvn hln
    obtain ⟨second,hs,-⟩ := compare3_ok hv hh hvn hhn
    have hc : ev.evaluateBetween (.ok v) (.ok low) (.ok high) negated =
        .ok (ofTri (negate3 negated (between3 ev.conversions v low high))) := by
      change (if v = .null ∨ low = .null ∨ high = .null then _ else _) = _
      rw [if_neg hn,compareValues_eq hv hl,compareValues_eq hv hh,between3,hf,hs]
      cases negated <;> cases first.isGE <;> cases second.isLE <;> rfl
    exact ⟨fun _ => .inr ⟨fun h => absurd h hln,fun h => absurd h hhn⟩,fun _ => hc⟩

omit hv in
theorem negate3_injective (h : negate3 negated a = negate3 negated b) : a = b := by
  cases negated <;> rcases a with _ | _ | _ <;> rcases b with _ | _ | _ <;> first | rfl | cases h

omit hv in
theorem ok_ofTri_iff : (Except.ok (ofTri (negate3 negated a)) : Result) = .ok (ofTri (negate3 negated b)) ↔ a = b := by
  refine ⟨fun h => negate3_injective (ofTri_injective (Except.ok.inj h)),fun h => by rw [h]⟩

theorem in3_eq (hvn : v ≠ .null) (hm : ∀ w ∈ members, IsOf ev.conversions k w) : in3 ev.conversions v members =
      if ∃ w ∈ members, Equal ev.conversions v w then some true else if .null ∈ members then none else some false := by
  have hu : none ∈ members.map (compare3 ev.conversions isEq v) ↔ .null ∈ members := by
    rw [mem_map]
    constructor
    · rintro ⟨w,hw,hn⟩
      by_contra hno
      obtain ⟨ordering,hok,-⟩ := compare3_ok hv (hm w hw) hvn (fun h => hno (h ▸ hw))
      rw [hok] at hn
      cases hn
    · intro h
      exact ⟨.null,h,compare3_of_null (.inr rfl)⟩
  rw [in3,Tri.any_eq]
  have htr : some true ∈ members.map (compare3 ev.conversions isEq v) ↔
      ∃ w ∈ members, Equal ev.conversions v w := mem_map
  simp only [hu,htr]

def listed3 (c : Conversions) (v : Value) (members : List Value) : Tri :=
  if v = .null then none
  else if members.any (valuesEqual c v) then some true
  else if .null ∈ members then none
  else some false

omit hv in
theorem scanList_values (v : Value) (members : List Value) (hasNull : Bool) :
    ∃ sawNull, ev.scanList v hasNull (members.map fun w => .value (.ok w)) =
        .ok (members.any (valuesEqual ev.conversions v),sawNull) ∧
      (members.any (valuesEqual ev.conversions v) = false → sawNull = (hasNull || decide (.null ∈ members))) := by
  induction members generalizing hasNull with
  | nil => exact ⟨hasNull,rfl,fun _ => by simp⟩
  | cons w rest ih =>
    by_cases hw : w = .null
    · obtain ⟨sawNull,hs,hsw⟩ := ih true
      have hf : valuesEqual ev.conversions v w = false := valuesEqual_of_null (.inr hw)
      refine ⟨sawNull,?_,fun hn => ?_⟩
      · rw [any_cons,hf,Bool.false_or]
        exact (if_pos hw).trans hs
      · rw [any_cons,hf,Bool.false_or] at hn
        simp [hsw hn,hw]
    · have hst : ev.scanList v hasNull ((w::rest).map fun w => .value (.ok w)) =
          if valuesEqual ev.conversions v w then .ok (true,hasNull)
          else ev.scanList v hasNull (rest.map fun w => .value (.ok w)) := if_neg hw
      rw [hst]
      by_cases he : valuesEqual ev.conversions v w = true
      · refine ⟨hasNull,by simp [he],fun hn => ?_⟩
        simp [he] at hn
      obtain ⟨sawNull,hs,hsw⟩ := ih hasNull
      refine ⟨sawNull,by simp [he,hs],fun hn => ?_⟩
      simp only [any_cons,he,Bool.false_or] at hn
      simp [hsw hn,Ne.symm hw]

omit hv in
theorem evaluateInList_values (v : Value) (members : List Value) (negated : Bool) :
    ev.evaluateInList (.ok v) (members.map fun w => .value (.ok w)) negated =
      .ok (ofTri (negate3 negated (listed3 ev.conversions v members))) := by
  unfold listed3
  by_cases hvn : v = .null
  · rw [if_pos hvn]
    refine (if_pos hvn).trans ?_
    cases negated <;> rfl
  · rw [if_neg hvn]
    refine (if_neg hvn).trans ?_
    obtain ⟨sawNull,hs,hsw⟩ := @scanList_values ev v members false
    rw [hs]
    cases hf : members.any (valuesEqual ev.conversions v) with
    | true => cases negated <;> rfl
    | false =>
      rw [hsw hf]
      by_cases hn : Value.null ∈ members <;> cases negated <;> simp [hn,ofTri,negate3,Tri.not,bind,Except.bind]

variable (hm : ∀ w ∈ members, IsOf ev.conversions k w)
include hm

theorem any_valuesEqual_iff :
    members.any (valuesEqual ev.conversions v) = true ↔ ∃ w ∈ members, Equal ev.conversions v w ∧ Spelled v w := by
  rw [any_eq_true]
  constructor
  · rintro ⟨w,hw,he⟩
    exact ⟨w,hw,(valuesEqual_iff hv (hm w hw)).mp he⟩
  · rintro ⟨w,hw,he⟩
    exact ⟨w,hw,(valuesEqual_iff hv (hm w hw)).mpr he⟩

/-- An empty list is not tested against NULL, and a member that is equal has one in the same
spelling. -/
def MembersDecide (c : Conversions) (v : Value) (members : List Value) : Prop :=
  (v = .null → members ≠ []) ∧
    ((∃ w ∈ members, Equal c v w) → ∃ w ∈ members, Equal c v w ∧ Spelled v w)

theorem listed3_iff :
    listed3 ev.conversions v members = in3 ev.conversions v members ↔ MembersDecide ev.conversions v members := by
  by_cases hvn : v = .null
  · have hno : ∀ w, ¬Equal ev.conversions v w := by
      intro w h
      rw [Equal,compare3_of_null (.inl hvn)] at h
      cases h
    have hin : in3 ev.conversions v members = if members = [] then some false else none := by
      rw [in3,Tri.any_eq]
      cases members with
      | nil => rfl
      | cons w rest =>
        have hmp : ∀ t ∈ (w::rest).map (compare3 ev.conversions isEq v), t = none := by
          intro t ht
          obtain ⟨u,-,rfl⟩ := mem_map.mp ht
          exact compare3_of_null (.inl hvn)
        have hu : none ∈ (w::rest).map (compare3 ev.conversions isEq v) :=
          mem_map.mpr ⟨w,mem_cons_self,compare3_of_null (.inl hvn)⟩
        have htr : some true ∉ (w::rest).map (compare3 ev.conversions isEq v) := by
          intro h
          cases hmp _ h
        rw [if_neg htr,if_pos hu,if_neg (cons_ne_nil _ _)]
    rw [listed3,if_pos hvn,hin]
    by_cases hem : members = [] <;> simp [MembersDecide,hvn,hem]
    exact fun w hw h => absurd h (hvn ▸ hno w)
  · rw [in3_eq hv hvn hm,listed3,if_neg hvn,MembersDecide]
    simp only [any_valuesEqual_iff hv hm]
    by_cases hs : ∃ w ∈ members, Equal ev.conversions v w ∧ Spelled v w
    · obtain ⟨w,hw,he,-⟩ := id hs
      rw [if_pos hs,if_pos ⟨w,hw,he⟩]
      exact ⟨fun _ => ⟨fun h => absurd h hvn,fun _ => hs⟩,fun _ => rfl⟩
    · rw [if_neg hs]
      by_cases he : ∃ w ∈ members, Equal ev.conversions v w
      · rw [if_pos he]
        by_cases hn : Value.null ∈ members <;> simp [hn,he,hs]
      · rw [if_neg he]
        exact ⟨fun _ => ⟨fun h => absurd h hvn,fun h => absurd h he⟩,fun _ => rfl⟩

/-- A materialized set that holds NULL is tested against a member or NULL only. -/
def SetDecides (c : Conversions) (v : Value) (members : List Value) : Prop :=
  v ≠ .null → .null ∈ members → ∃ w ∈ members, Equal c v w ∧ Spelled v w

theorem evaluateInSet_iff (negated : Bool) :
    ev.evaluateInSet (.ok v) members negated = .ok (ofTri (negate3 negated (listed3 ev.conversions v members))) ↔
      SetDecides ev.conversions v members := by
  have hs : ev.evaluateInSet (.ok v) members negated = .ok (ofTri (negate3 negated
      (if v = .null then none else some (members.any (valuesEqual ev.conversions v))))) := by
    by_cases hvn : v = .null
    · rw [if_pos hvn]
      refine (if_pos hvn).trans ?_
      cases negated <;> rfl
    · rw [if_neg hvn]
      refine (if_neg hvn).trans ?_
      cases negated <;> rfl
  rw [hs,ok_ofTri_iff,listed3,SetDecides,← any_valuesEqual_iff hv hm]
  by_cases hvn : v = .null
  · simp [hvn]
  rw [if_neg hvn,if_neg hvn]
  cases hf : members.any (valuesEqual ev.conversions v) with
  | true => simp
  | false => by_cases hn : Value.null ∈ members <;> simp [hvn,hn]

omit hm

def FirstSpelled (c : Conversions) (v : Value) (values : List Value) : Prop :=
  ∀ w, values.find? (fun w => Equal c v w) = some w → Spelled v w

def firstEqual (c : Conversions) (v : Value) (values : List Value) : Option Nat :=
  values.findIdx? fun w => Equal c v w

omit hv in
theorem simpleCase_values (v : Value) (values : List Value) (results : List Result) (hl : results.length = values.length) :
    ev.simpleCase v ((values.map Except.ok).zip results) =
      (values.findIdx? (valuesEqual ev.conversions v)).bind fun i => results[i]? := by
  induction values generalizing results with
  | nil => rfl
  | cons w rest ih =>
    obtain ⟨result,others,rfl⟩ : ∃ result others, results = result::others := by
      cases results with
      | nil => cases hl
      | cons result others => exact ⟨result,others,rfl⟩
    have hs : ev.simpleCase v (((w::rest).map Except.ok).zip (result::others)) =
        if valuesEqual ev.conversions v w then some result else ev.simpleCase v ((rest.map Except.ok).zip others) := rfl
    rw [hs,ih others (Nat.succ.inj hl),findIdx?_cons]
    by_cases he : valuesEqual ev.conversions v w = true
    · simp [he]
    · cases hrest : rest.findIdx? (valuesEqual ev.conversions v) <;> simp [he]

theorem findIdx_valuesEqual_iff {values : List Value} (hvl : ∀ w ∈ values, IsOf ev.conversions k w) :
    values.findIdx? (valuesEqual ev.conversions v) = firstEqual ev.conversions v values ↔
      FirstSpelled ev.conversions v values := by
  unfold firstEqual FirstSpelled
  induction values with
  | nil => simp
  | cons w rest ih =>
    specialize ih fun u hu => hvl u (mem_cons_of_mem w hu)
    have hw := valuesEqual_iff hv (hvl w mem_cons_self)
    rw [findIdx?_cons,findIdx?_cons,find?_cons]
    by_cases he : Equal ev.conversions v w
    · by_cases hs : Spelled v w
      · simp [he,hs,hw.mpr ⟨he,hs⟩]
      · have hno : valuesEqual ev.conversions v w = false := by
          simpa [he,hs] using hw
        cases hrest : rest.findIdx? (valuesEqual ev.conversions v) <;> simp [he,hs,hno]
    · have hno : valuesEqual ev.conversions v w = false := by
        simpa [he] using hw
      simp only [hno,he,decide_false,Bool.false_eq_true,if_false]
      rw [← ih]
      exact ⟨fun h => Option.map_injective (fun _ _ => Nat.succ.inj) h,fun h => by rw [h]⟩

omit hv

/-- The pairs of two rows that evaluate without error. -/
def okPairs (pairs : List (Value × Value)) : List (Result × Result) := pairs.map fun pair => (.ok pair.1,.ok pair.2)

variable {op : BinaryOperator} {pairs : List (Value × Value)}

theorem compareTuples_cons {l r : Value} {rest : List (Value × Value)} {sawNull : Bool}
    (hl : IsOf ev.conversions k l) (hr : IsOf ev.conversions k r) (hln : l ≠ .null) (hrn : r ≠ .null) :
    ev.compareTuples op sawNull (okPairs ((l,r)::rest)) =
      if Equal ev.conversions l r then ev.compareTuples op sawNull (okPairs rest) else ev.decideTuple op l r := by
  refine (if_neg (not_or.mpr ⟨hln,hrn⟩)).trans ?_
  rw [compareValues_eq hl hr]
  obtain ⟨ordering,hok,-⟩ := compare3_ok hl hr hln hrn
  have he : Equal ev.conversions l r ↔ ordering = .eq := by
    rw [Equal,hok]
    cases ordering <;> simp
  simp only [he,hok]
  cases ordering <;> rfl

/-- A row comparison as one of its pairs at a time; a pair with NULL either ends it or is kept
in mind. -/
theorem compareTuples_spec {op : BinaryOperator} (spec : Bool → List (Value × Value) → Tri)
    (hnl : ∀ sawNull, ev.compareTuples op sawNull [] = .ok (ofTri (spec sawNull [])))
    (hn : ∀ sawNull l r rest, l = .null ∨ r = .null →
      ev.compareTuples op sawNull (okPairs ((l,r)::rest)) = .ok (ofTri (spec sawNull ((l,r)::rest))) ∨
        ev.compareTuples op sawNull (okPairs ((l,r)::rest)) = ev.compareTuples op true (okPairs rest) ∧
          spec sawNull ((l,r)::rest) = spec true rest)
    (hel : ∀ sawNull l r rest, (∀ test, compare3 ev.conversions test l r = some (test .eq)) →
      spec sawNull ((l,r)::rest) = spec sawNull rest)
    (hd : ∀ sawNull l r rest, IsOf ev.conversions k l → IsOf ev.conversions k r →
      (∃ ordering, ordering ≠ .eq ∧ ∀ test, compare3 ev.conversions test l r = some (test ordering)) →
      ev.decideTuple op l r = .ok (ofTri (spec sawNull ((l,r)::rest)))) (sawNull : Bool) (pairs : List (Value × Value))
    (hp : ∀ pair ∈ pairs, IsOf ev.conversions k pair.1 ∧ IsOf ev.conversions k pair.2) :
    ev.compareTuples op sawNull (okPairs pairs) = .ok (ofTri (spec sawNull pairs)) := by
  induction pairs generalizing sawNull with
  | nil => exact hnl sawNull
  | cons pair rest ih =>
    obtain ⟨l,r⟩ := pair
    obtain ⟨hl,hr⟩ := hp (l,r) mem_cons_self
    replace ih := fun saw => ih saw fun pair hpr => hp pair (mem_cons_of_mem _ hpr)
    by_cases hno : l = .null ∨ r = .null
    · rcases hn sawNull l r rest hno with he | ⟨hst,hs⟩
      · exact he
      · rw [hst,hs,ih true]
    · obtain ⟨hln,hrn⟩ := not_or.mp hno
      obtain ⟨ordering,hok,-⟩ := compare3_ok hl hr hln hrn
      rw [compareTuples_cons hl hr hln hrn]
      by_cases heq : ordering = .eq
      · subst heq
        have htr : Equal ev.conversions l r := hok isEq
        rw [if_pos htr,ih sawNull,hel sawNull l r rest hok]
      · have hf : ¬Equal ev.conversions l r := by
          rw [Equal,hok]
          cases ordering <;> simp_all
        rw [if_neg hf,hd sawNull l r rest hl hr ⟨ordering,heq,hok⟩]

theorem compareTuples_lex {test : Ordering → Bool} {last : Bool} (hts : test .eq = false)
    (hnl : ∀ sawNull, ev.compareTuples op sawNull [] = .ok (ofTri (if sawNull then none else some last)))
    (hn : ∀ sawNull l r rest, l = .null ∨ r = .null → ev.compareTuples op sawNull (okPairs ((l,r)::rest)) = .ok .null)
    (hd : ∀ l r, ev.decideTuple op l r = compareValues ev.conversions l r test)
    (hp : ∀ pair ∈ pairs, IsOf ev.conversions k pair.1 ∧ IsOf ev.conversions k pair.2) :
    ev.compareTuples op false (okPairs pairs) = .ok (ofTri (lex3 ev.conversions test (some last) pairs)) := by
  refine compareTuples_spec (k := k) (fun sawNull => lex3 ev.conversions test (if sawNull then none else some last))
    hnl ?_ ?_ ?_ false pairs hp
  · intro sawNull l r rest h
    refine .inl ?_
    rw [hn sawNull l r rest h,lex3,compare3_of_null h,compare3_of_null h,Tri.or_none_and_none]
    rfl
  · intro sawNull l r rest hok
    rw [lex3,hok,hok,hts,Tri.false_or]
    exact Tri.true_and _
  · rintro sawNull l r rest hl hr ⟨ordering,hne,hok⟩
    rw [hd,compareValues_eq hl hr,lex3,hok,hok]
    cases ordering with
    | eq => exact absurd rfl hne
    | lt | gt =>
      generalize lex3 ev.conversions test _ rest = t
      generalize test _ = b
      cases b <;> rcases t with _ | _ | _ <;> rfl

theorem compareTuples_row (op : RowOperator)
    (hp : ∀ pair ∈ pairs, IsOf ev.conversions k pair.1 ∧ IsOf ev.conversions k pair.2) :
    ev.compareTuples op.binary false (okPairs pairs) = .ok (ofTri (row3 ev.conversions op pairs)) := by
  cases op with
  | eq =>
    have h := @compareTuples_spec ev k .eq
      (fun sawNull pairs => Tri.and (if sawNull then none else some true) (row3 ev.conversions .eq pairs))
      (fun sawNull => by cases sawNull <;> rfl) ?_ ?_ ?_ false pairs hp
    · exact h.trans (by rw [if_neg Bool.false_ne_true,Tri.true_and])
    · intro sawNull l r rest hn
      refine .inr ⟨if_pos hn,?_⟩
      change Tri.and _ (Tri.and (compare3 ev.conversions isEq l r) (row3 ev.conversions .eq rest)) = _
      rw [compare3_of_null hn]
      cases sawNull <;> rcases row3 ev.conversions .eq rest with _ | _ | _ <;> rfl
    · intro sawNull l r rest hok
      change Tri.and _ (Tri.and (compare3 ev.conversions isEq l r) (row3 ev.conversions .eq rest)) = _
      rw [hok]
      exact congrArg _ (Tri.true_and _)
    · rintro sawNull l r rest - - ⟨ordering,hne,hok⟩
      change _ = Except.ok (ofTri (Tri.and _ (Tri.and (compare3 ev.conversions isEq l r) (row3 ev.conversions .eq rest))))
      rw [hok]
      cases ordering with
      | eq => exact absurd rfl hne
      | lt | gt => cases sawNull <;> rcases row3 ev.conversions .eq rest with _ | _ | _ <;> rfl
  | notEq =>
    have h := @compareTuples_spec ev k .notEq
      (fun sawNull pairs => Tri.or (if sawNull then none else some false) (row3 ev.conversions .notEq pairs))
      (fun sawNull => by cases sawNull <;> rfl) ?_ ?_ ?_ false pairs hp
    · exact h.trans (by rw [if_neg Bool.false_ne_true,Tri.false_or])
    · intro sawNull l r rest hn
      refine .inr ⟨if_pos hn,?_⟩
      change Tri.or _ (Tri.or (compare3 ev.conversions isNe l r) (row3 ev.conversions .notEq rest)) = _
      rw [compare3_of_null hn]
      cases sawNull <;> rcases row3 ev.conversions .notEq rest with _ | _ | _ <;> rfl
    · intro sawNull l r rest hok
      change Tri.or _ (Tri.or (compare3 ev.conversions isNe l r) (row3 ev.conversions .notEq rest)) = _
      rw [hok]
      exact congrArg _ (Tri.false_or _)
    · rintro sawNull l r rest - - ⟨ordering,hne,hok⟩
      change _ = Except.ok (ofTri (Tri.or _ (Tri.or (compare3 ev.conversions isNe l r) (row3 ev.conversions .notEq rest))))
      rw [hok]
      cases ordering with
      | eq => exact absurd rfl hne
      | lt | gt => cases sawNull <;> rcases row3 ev.conversions .notEq rest with _ | _ | _ <;> rfl
  | lt | ltEq | gt | gtEq =>
    refine compareTuples_lex rfl ?_ ?_ ?_ hp
    · intro sawNull
      cases sawNull <;> rfl
    · intro sawNull l r rest hn
      exact if_pos hn
    · intro l r
      rfl

end
end HeliosNano.Sql.ThreeValued
