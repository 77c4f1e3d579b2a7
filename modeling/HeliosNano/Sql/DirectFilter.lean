import HeliosNano.Sql.Columns
import HeliosNano.Sql.Conjuncts

namespace HeliosNano.Sql.DirectFilter
open List Evaluator
open Storage (bind_eq_ok)

/-- The times of day and the floats among the codes; floats are compared outside. -/
structure Codes where
  timeOf : Nat → Option Int
  isFloat : Nat → Bool
  compareFloats : Value → Value → Option Ordering

variable (o : Codes)

namespace Codes

def time : Value → Option Int
  | .other code => o.timeOf code
  | _ => none

def float : Value → Bool
  | .other code => o.isFloat code
  | _ => false

def floats (left right : Value) : Option Ordering := if o.float left || o.float right then o.compareFloats left right else none

def BothTimes (pair : Value × Value) : Prop := (o.time pair.1).isSome ∧ (o.time pair.2).isSome

def NoFloats (pairs : List (Value × Value)) : Prop := ∀ pair ∈ pairs, o.float pair.1 = false ∧ o.float pair.2 = false

def SomeTimes (pairs : List (Value × Value)) : Prop := ∃ pair ∈ pairs, o.BothTimes pair

end Codes

/-- `compare_values` has no case for two times. -/
def evaluator (ev : Evaluator) : Evaluator :=
  { ev with
    conversions :=
      { ev.conversions with
        compareOther := fun left right =>
          if (o.time left).isSome ∧ (o.time right).isSome then
            .error (.queryExecution ("Cannot compare " ++ ev.conversions.debug left ++ " and " ++ ev.conversions.debug right))
          else ev.conversions.compareOther left right } }

def compareDirectValues (c : Conversions) (left right : Value) : Option Ordering :=
  match left, right with
  | .null, _ | _, .null => none
  | .int2 a, .int2 b | .int4 a, .int4 b | .int8 a, .int8 b => some (cmp a b)
  | .int2 a, .int4 b | .int4 a, .int2 b | .int2 a, .int8 b => some (cmp a b)
  | .int8 a, .int2 b | .int4 a, .int8 b | .int8 a, .int4 b => some (cmp a b)
  | .string a, .string b => some (cmp a b)
  | .boolean a, .boolean b => some (cmp a b)
  | .uuid a, .uuid b => some (cmp a b)
  | .uuid a, .string b => (c.parseUuid b).map fun b => cmp a b
  | .string a, .uuid b => (c.parseUuid a).map fun a => cmp a b
  | .timestamp a, .timestamp b => some (cmp a b)
  | .date a, .date b => some (cmp a b)
  | .other a, .other b =>
    match o.timeOf a, o.timeOf b with
    | some a, some b => some (cmp a b)
    | _, _ => o.floats left right
  | .other _, _ | _, .other _ => o.floats left right
  | _, _ => none

inductive DirectCompareOp
  | eq
  | notEq
  | lt
  | ltEq
  | gt
  | gtEq

namespace DirectCompareOp

def tryFromBinaryOp : BinaryOperator → Option DirectCompareOp
  | .eq => some eq
  | .notEq => some notEq
  | .lt => some lt
  | .ltEq => some ltEq
  | .gt => some gt
  | .gtEq => some gtEq
  | _ => none

def reversed : DirectCompareOp → DirectCompareOp
  | eq => eq
  | notEq => notEq
  | lt => gt
  | ltEq => gtEq
  | gt => lt
  | gtEq => ltEq

def test : DirectCompareOp → Ordering → Bool
  | eq => Ordering.isEq
  | notEq => Ordering.isNe
  | lt => Ordering.isLT
  | ltEq => Ordering.isLE
  | gt => Ordering.isGT
  | gtEq => Ordering.isGE

def matchesValues (c : Conversions) (op : DirectCompareOp) (left right : Value) : Option Bool :=
  (compareDirectValues o c left right).map op.test

end DirectCompareOp

inductive DirectFilterPredicate
  | compare (columnIdx : Nat) (op : DirectCompareOp) (literal : Value)
  | isNull (columnIdx : Nat) (isNull : Bool)
  | and (predicates : List DirectFilterPredicate)

section
variable (schema : Schema) (parameters : List Value)

def directLiteralValue : LogicalExpr → Option Value
  | .literal value => some value
  | .parameter index => if index = 0 then none else parameters[index-1]?
  | _ => none

def columnLiteralComparison (columnExpr literalExpr : LogicalExpr) : Option (Nat × Value) :=
  match columnExpr with
  | .column table name => do
    let columnIdx ← schema.getQualifiedColumnIndex table name
    let literal ← directLiteralValue parameters literalExpr
    if literal = .null then none else some (columnIdx,literal)
  | _ => none

def comparison (left : LogicalExpr) (op : BinaryOperator) (right : LogicalExpr) : Option DirectFilterPredicate := do
  let op ← DirectCompareOp.tryFromBinaryOp op
  match columnLiteralComparison schema parameters left right with
  | some (columnIdx,literal) => some (.compare columnIdx op literal)
  | none =>
    let (columnIdx,literal) ← columnLiteralComparison schema parameters right left
    some (.compare columnIdx op.reversed literal)

/-- `try_from_expr` of anything but an AND. -/
def conjunct : LogicalExpr → Option DirectFilterPredicate
  | .binaryExpr left op right => comparison schema parameters left op right
  | .isNull (.column table name) isNull => (schema.getQualifiedColumnIndex table name).map (.isNull · isNull)
  | _ => none

def collectAndPredicates : LogicalExpr → Option (List DirectFilterPredicate)
  | .binaryExpr left .and right => do
    let before ← collectAndPredicates left
    let after ← collectAndPredicates right
    some (before ++ after)
  | expr => (conjunct schema parameters expr).map ([·])

def tryFromExpr : LogicalExpr → Option DirectFilterPredicate
  | .binaryExpr left .and right => (collectAndPredicates schema parameters (.binaryExpr left .and right)).map .and
  | expr => conjunct schema parameters expr

end

namespace DirectFilterPredicate
variable (c : Conversions) (tuple : Tuple)

mutual

def matchesTuple : DirectFilterPredicate → Option Bool
  | .compare columnIdx op literal => tuple[columnIdx]?.bind fun value => op.matchesValues o c value literal
  | .isNull columnIdx null => tuple[columnIdx]?.map fun value => decide (value = .null) == null
  | .and predicates => matchesAll predicates

def matchesAll : List DirectFilterPredicate → Option Bool
  | [] => some true
  | predicate::rest => (matchesTuple predicate).bind fun passes => if passes then matchesAll rest else some false

end

mutual

def compared : DirectFilterPredicate → List (Value × Value)
  | .compare columnIdx _ literal => tuple[columnIdx]?.toList.map (·,literal)
  | .isNull _ _ => []
  | .and predicates => comparedAll predicates

def comparedAll : List DirectFilterPredicate → List (Value × Value)
  | [] => []
  | predicate::rest => compared predicate ++ comparedAll rest

end
end DirectFilterPredicate

/-- Whether `next` of the filter operator keeps a tuple. The predicate is bound to the schema once. -/
def FilterOperator.passes (ev : Evaluator) (predicate : LogicalExpr) (tuple : Tuple) : Except SqlError Bool :=
  match (tryFromExpr ev.schema ev.parameters predicate).bind (·.matchesTuple o ev.conversions tuple) with
  | some passes => .ok passes
  | none => evaluatePredicate (evaluator o ev) (bindColumns ev.schema.getQualifiedColumnIndex predicate) tuple

open DirectFilterPredicate (matchesAll comparedAll)

section
variable {o} {ev : Evaluator} {left right value literal : Value} {ord : Ordering} {op : DirectCompareOp} {b : Bool}
variable (h : compareDirectValues o ev.conversions left right = some ord)
include h

theorem ne_null_of_direct : left ≠ .null ∧ right ≠ .null := by
  constructor
  · rintro rfl
    cases h
  · rintro rfl
    cases left <;> cases h

theorem ordering_of_direct (hfl : o.float left = false ∧ o.float right = false) (htm : ¬o.BothTimes (left,right)) :
    valueOrdering (evaluator o ev).conversions left right = .ok ord ∧
      valueOrdering (evaluator o ev).conversions right left = .ok ord.swap := by
  have hf : o.floats left right = none := by
    rw [Codes.floats,hfl.1,hfl.2]
    rfl
  unfold compareDirectValues at h
  split at h
  case h_15 a b =>
    obtain ⟨b',hb,rfl⟩ := Option.map_eq_some_iff.mp h
    have hu : (evaluator o ev).conversions.parseUuid b = some b' := hb
    constructor
    · rw [valueOrdering,show specialOperatorCmp (evaluator o ev).conversions (.uuid a) (.string b) = none from rfl]
      dsimp only
      rw [hu]
    · rw [valueOrdering,show specialOperatorCmp (evaluator o ev).conversions (.string b) (.uuid a) = none from rfl,cmp_swap]
      dsimp only
      rw [hu]
  case h_16 a b =>
    obtain ⟨a',ha,rfl⟩ := Option.map_eq_some_iff.mp h
    have hu : (evaluator o ev).conversions.parseUuid a = some a' := ha
    constructor
    · rw [valueOrdering,show specialOperatorCmp (evaluator o ev).conversions (.string a) (.uuid b) = none from rfl]
      dsimp only
      rw [hu]
    · rw [valueOrdering,show specialOperatorCmp (evaluator o ev).conversions (.uuid b) (.string a) = none from rfl,cmp_swap]
      dsimp only
      rw [hu]
  case h_19 a b =>
    split at h
    next x y ha hb => exact absurd ⟨Option.isSome_of_eq_some ha,Option.isSome_of_eq_some hb⟩ htm
    · rw [hf] at h
      cases h
  case h_1 | h_2 | h_20 | h_21 | h_22 => first | cases h | (rw [hf] at h; cases h)
  all_goals
    cases h
    refine ⟨rfl,?_⟩
    rw [cmp_swap]
    rfl

omit h

theorem error_of_times (h : o.BothTimes (left,right)) : ∃ e, valueOrdering (evaluator o ev).conversions left right = .error e := by
  obtain ⟨hl,hr⟩ := h
  cases left with
  | other a =>
    cases right with
    | other b => exact ⟨_,if_pos ⟨hl,hr⟩⟩
    | _ => exact absurd hr Bool.false_ne_true
  | _ => exact absurd hl Bool.false_ne_true

theorem compareValues_true_iff {test : Ordering → Bool} (hne : left ≠ .null ∧ right ≠ .null)
    (ho : ¬o.BothTimes (left,right) → valueOrdering (evaluator o ev).conversions left right = .ok ord) :
    compareValues (evaluator o ev).conversions left right test = .ok (.boolean true) ↔
      test ord = true ∧ ¬o.BothTimes (left,right) := by
  have hc : compareValues (evaluator o ev).conversions left right test =
      (valueOrdering (evaluator o ev).conversions left right).map (.boolean ∘ test) := by
    rw [compareValues,if_neg (not_or.mpr hne)]
    cases valueOrdering (evaluator o ev).conversions left right <;> rfl
  rw [hc]
  by_cases h : o.BothTimes (left,right)
  · obtain ⟨e,he⟩ := @error_of_times o ev left right h
    rw [he]
    exact iff_of_false nofun fun hno => hno.2 h
  · rw [ho h]
    simp [Except.map,h]

end

section
variable {o} {ev : Evaluator} {tuple : Tuple} {left right : LogicalExpr} {op : BinaryOperator} {d : DirectCompareOp} {columnIdx : Nat}
  {value literal : Value} {p : DirectFilterPredicate} {b : Bool} {expr : LogicalExpr}

structure Operands (o : Codes) (ev : Evaluator) (tuple : Tuple) (column constant : LogicalExpr) (columnIdx : Nat) (literal : Value) :
    Prop where
  isColumn : ∃ table name, column = .column table name
  columns : allColumns (fun _ _ => true) constant = true
  constant : (evaluator o ev).evaluate tuple constant = .ok literal
  column : ∀ value, tuple[columnIdx]? = some value → (evaluator o ev).evaluate tuple column = .ok value

theorem operands (h : columnLiteralComparison ev.schema ev.parameters left right = some (columnIdx,literal)) :
    Operands o ev tuple left right columnIdx literal := by
  unfold columnLiteralComparison at h
  split at h
  · next table name =>
    simp only [Option.bind_eq_bind,Option.bind_eq_some_iff] at h
    obtain ⟨index,hi,constant,hc,h⟩ := h
    split at h
    · cases h
    cases h
    obtain ⟨hcl,hv⟩ : allColumns (fun _ _ => true) right = true ∧ (evaluator o ev).evaluate tuple right = .ok literal := by
      unfold directLiteralValue at hc
      split at hc
      · cases hc
        rw [allColumns,evaluate]
        exact ⟨rfl,rfl⟩
      · split at hc
        · cases hc
        next hz =>
          have hp : (evaluator o ev).parameters[_]? = some literal := hc
          rw [allColumns,evaluate,evaluateParameter,if_neg hz,hp]
          exact ⟨rfl,rfl⟩
      · cases hc
    refine ⟨⟨table,name,rfl⟩,hcl,hv,fun value hv => ?_⟩
    have hr : (evaluator o ev).schema.getQualifiedColumnIndex table name = some columnIdx := hi
    rw [evaluate,evaluateColumn.eq_def,hr]
    dsimp only
    rw [hv]
  · cases h

theorem comparison_cases (h : comparison ev.schema ev.parameters left op right = some p) :
    ∃ d, DirectCompareOp.tryFromBinaryOp op = some d ∧ ∃ columnIdx literal,
      p = .compare columnIdx d literal ∧ Operands o ev tuple left right columnIdx literal ∨
        p = .compare columnIdx d.reversed literal ∧ Operands o ev tuple right left columnIdx literal := by
  simp only [comparison,Option.bind_eq_bind,Option.bind_eq_some_iff] at h
  obtain ⟨d,hd,h⟩ := h
  refine ⟨d,hd,?_⟩
  split at h
  · next columnIdx literal hc =>
    cases h
    exact ⟨columnIdx,literal,.inl ⟨rfl,operands hc⟩⟩
  · obtain ⟨⟨columnIdx,literal⟩,hc,h⟩ := Option.bind_eq_some_iff.mp h
    cases h
    exact ⟨columnIdx,literal,.inr ⟨rfl,operands hc⟩⟩

theorem evaluateBinaryOp_test (h : DirectCompareOp.tryFromBinaryOp op = some d) (l r : Value) :
    (op ≠ .and ∧ op ≠ .or) ∧ ev.evaluateBinaryOp l op r = compareValues ev.conversions l r d.test := by
  unfold DirectCompareOp.tryFromBinaryOp at h
  split at h <;> cases h <;> exact ⟨⟨nofun,nofun⟩,rfl⟩

theorem reversed_test (d : DirectCompareOp) (ord : Ordering) : d.reversed.test ord = d.test ord.swap := by
  cases d <;> cases ord <;> rfl

theorem compare_true_iff (hd : d.matchesValues o ev.conversions value literal = some b)
    (hf : o.float value = false ∧ o.float literal = false) :
    compareValues (evaluator o ev).conversions value literal d.test = .ok (.boolean true) ↔
      b = true ∧ ¬o.BothTimes (value,literal) := by
  obtain ⟨ord,ho,rfl⟩ := Option.map_eq_some_iff.mp hd
  exact compareValues_true_iff (ne_null_of_direct ho) fun htm => (ordering_of_direct ho hf htm).1

theorem compare_reversed_true_iff (hd : d.reversed.matchesValues o ev.conversions value literal = some b)
    (hf : o.float value = false ∧ o.float literal = false) :
    compareValues (evaluator o ev).conversions literal value d.test = .ok (.boolean true) ↔
      b = true ∧ ¬o.BothTimes (value,literal) := by
  obtain ⟨ord,ho,rfl⟩ := Option.map_eq_some_iff.mp hd
  have hs : o.BothTimes (value,literal) ↔ o.BothTimes (literal,value) := and_comm
  rw [reversed_test,hs]
  exact compareValues_true_iff (ne_null_of_direct ho).symm fun htm =>
    (ordering_of_direct ho hf (mt hs.mp htm)).2

theorem exists_pair (h : (DirectFilterPredicate.compare columnIdx d literal).matchesTuple o ev.conversions tuple = some b) :
    ∃ value, tuple[columnIdx]? = some value ∧ d.matchesValues o ev.conversions value literal = some b ∧
      (DirectFilterPredicate.compare columnIdx d literal).compared tuple = [(value,literal)] := by
  rw [DirectFilterPredicate.matchesTuple] at h
  obtain ⟨value,hv,hd⟩ := Option.bind_eq_some_iff.mp h
  refine ⟨value,hv,hd,?_⟩
  rw [DirectFilterPredicate.compared,hv]
  rfl

theorem conjunct_true_iff (h : conjunct ev.schema ev.parameters expr = some p)
    (hm : p.matchesTuple o ev.conversions tuple = some b) (hf : o.NoFloats (p.compared tuple)) :
    (evaluator o ev).evaluate tuple expr = .ok (.boolean true) ↔ b = true ∧ ¬o.SomeTimes (p.compared tuple) := by
  unfold conjunct at h
  split at h
  · obtain ⟨d,hd,columnIdx,literal,ho⟩ := @comparison_cases o ev tuple _ _ _ _ h
    have hop := @evaluateBinaryOp_test (evaluator o ev) _ d hd
    obtain ⟨hand,hor⟩ := (hop .null .null).1
    obtain ⟨rfl,⟨table,name,rfl⟩,-,hc,hvl⟩ | ⟨rfl,⟨table,name,rfl⟩,-,hc,hvl⟩ := ho
    · obtain ⟨value,hv,hdr,hp⟩ := exists_pair hm
      rw [hp,Codes.NoFloats,forall_mem_singleton] at hf
      rw [hp,evaluate_binaryExpr hand hor (by rintro ⟨ls,rs,⟨⟩,-⟩),hvl value hv,hc]
      simp only [Codes.SomeTimes,mem_singleton,exists_eq_left,← compare_true_iff hdr hf,
        ← (hop value literal).2]
      rfl
    · obtain ⟨value,hv,hdr,hp⟩ := exists_pair hm
      rw [hp,Codes.NoFloats,forall_mem_singleton] at hf
      rw [hp,evaluate_binaryExpr hand hor (by rintro ⟨ls,rs,-,⟨⟩⟩),hvl value hv,hc]
      simp only [Codes.SomeTimes,mem_singleton,exists_eq_left,← compare_reversed_true_iff hdr hf,
        ← (hop literal value).2]
      rfl
  · next table name null =>
    obtain ⟨columnIdx,hi,rfl⟩ := Option.map_eq_some_iff.mp h
    rw [DirectFilterPredicate.matchesTuple] at hm
    obtain ⟨value,hv,rfl⟩ := Option.map_eq_some_iff.mp hm
    have hr : (evaluator o ev).schema.getQualifiedColumnIndex table name = some columnIdx := hi
    rw [evaluate,evaluate,evaluateColumn.eq_def,hr]
    dsimp only
    rw [hv,DirectFilterPredicate.compared,Codes.SomeTimes]
    simp [bind,Except.bind]
  · cases h

end
section
variable {o} {ev : Evaluator} {tuple : Tuple} {expr : LogicalExpr} {p : DirectFilterPredicate}
  {ps : List DirectFilterPredicate} {c : Conversions}

variable (h : collectAndPredicates ev.schema ev.parameters expr = some ps)
include h

theorem collect_conjuncts : (∀ e ∈ extractConjuncts expr, ∃ p ∈ ps, conjunct ev.schema ev.parameters e = some p) ∧
      ∀ p ∈ ps, ∃ e ∈ extractConjuncts expr, conjunct ev.schema ev.parameters e = some p := by
  induction expr using collectAndPredicates.induct generalizing ps with
  | case1 left right ihl ihr =>
    simp only [collectAndPredicates,Option.bind_eq_bind,Option.bind_eq_some_iff] at h
    obtain ⟨before,hb,after,ha,h⟩ := h
    cases h
    obtain ⟨hlp,hpl⟩ := ihl hb
    obtain ⟨hrp,hpr⟩ := ihr ha
    rw [extractConjuncts]
    grind
  | case2 expr hand =>
    rw [collectAndPredicates] at h
    · obtain ⟨p,hp,rfl⟩ := Option.map_eq_some_iff.mp h
      rw [extractConjuncts]
      · simp [hp]
      · exact hand
    · exact hand

omit h in
theorem matchesAll_true_iff : matchesAll o c tuple ps = some true ↔ ∀ p ∈ ps, p.matchesTuple o c tuple = some true := by
  induction ps with
  | nil => simp [matchesAll]
  | cons p ps ih =>
    rw [matchesAll,forall_mem_cons,← ih]
    rcases p.matchesTuple o c tuple with _ | _ | _ <;> simp

omit h in
theorem exists_of_matchesAll (h : matchesAll o c tuple ps = some false) : ∃ p ∈ ps, p.matchesTuple o c tuple = some false := by
  induction ps with
  | nil => cases h
  | cons p ps ih =>
    rw [matchesAll] at h
    cases hp : p.matchesTuple o c tuple with
    | none =>
      rw [hp] at h
      cases h
    | some passes =>
      cases passes with
      | false => exact ⟨p,mem_cons_self,hp⟩
      | true =>
        rw [hp] at h
        obtain ⟨q,hq,hf⟩ := ih h
        exact ⟨q,mem_cons_of_mem _ hq,hf⟩

omit h in
theorem mem_comparedAll {pair : Value × Value} : pair ∈ comparedAll tuple ps ↔ ∃ p ∈ ps, pair ∈ p.compared tuple := by
  induction ps with
  | nil => simp [comparedAll]
  | cons p ps ih => simp [comparedAll,ih]

omit h in
theorem true_iff_conjuncts (ev : Evaluator) (tuple : Tuple) (expr : LogicalExpr) :
    ev.evaluate tuple expr = .ok (.boolean true) ↔ ∀ e ∈ extractConjuncts expr, ev.evaluate tuple e = .ok (.boolean true) := by
  have htr : ∀ e, truthOf ev tuple e = .ok (some true) ↔ ev.evaluate tuple e = .ok (.boolean true) := by
    intro e
    rw [truthOf]
    rcases ev.evaluate tuple e with _ | v
    · simp [bind,Except.bind]
    · cases v <;> simp [bind,Except.bind]
  rw [← htr,truthOf_conjuncts,seqAll_eq_true,forall_mem_map]
  exact forall₂_congr fun e _ => htr e

theorem predicate_true_iff {b : Bool} (hm : matchesAll o ev.conversions tuple ps = some b)
    (hfl : o.NoFloats (comparedAll tuple ps)) : (evaluator o ev).evaluate tuple expr = .ok (.boolean true) ↔
      b = true ∧ ¬o.SomeTimes (comparedAll tuple ps) := by
  obtain ⟨hfr,hb⟩ := collect_conjuncts h
  have hpt : ∀ p ∈ ps, o.NoFloats (p.compared tuple) :=
    fun p hp pair hpr => hfl pair (mem_comparedAll.mpr ⟨p,hp,hpr⟩)
  rw [true_iff_conjuncts]
  cases b with
  | false =>
    refine iff_of_false (fun htr => ?_) (fun hno => Bool.false_ne_true hno.1)
    obtain ⟨p,hp,hf⟩ := exists_of_matchesAll hm
    obtain ⟨e,he,hcj⟩ := hb p hp
    exact Bool.false_ne_true ((conjunct_true_iff hcj hf (hpt p hp)).mp (htr e he)).1
  | true =>
    have ha := matchesAll_true_iff.mp hm
    constructor
    · rintro htr
      refine ⟨rfl,?_⟩
      rintro ⟨pair,hpr,htm⟩
      obtain ⟨p,hp,hpr⟩ := mem_comparedAll.mp hpr
      obtain ⟨e,he,hcj⟩ := hb p hp
      exact ((conjunct_true_iff hcj (ha p hp) (hpt p hp)).mp (htr e he)).2 ⟨pair,hpr,htm⟩
    · rintro ⟨-,hno⟩ e he
      obtain ⟨p,hp,hcj⟩ := hfr e he
      refine (conjunct_true_iff hcj (ha p hp) (hpt p hp)).mpr ⟨rfl,?_⟩
      rintro ⟨pair,hpr,htm⟩
      exact hno ⟨pair,mem_comparedAll.mpr ⟨p,hp,hpr⟩,htm⟩

theorem columns_and_truth : allColumns (fun _ _ => true) expr = true ∧
      ∀ value, (evaluator o ev).evaluate tuple expr = .ok value → value = .null ∨ ∃ b, value = .boolean b := by
  induction expr using collectAndPredicates.induct generalizing ps with
  | case1 left right ihl ihr =>
    simp only [collectAndPredicates,Option.bind_eq_bind,Option.bind_eq_some_iff] at h
    obtain ⟨before,hb,after,ha,-⟩ := h
    rw [allColumns,evaluate,Bool.and_eq_true]
    exact ⟨⟨(ihl hb).1,(ihr ha).1⟩,fun _ => andShortCircuit_ok⟩
  | case2 expr hand =>
    rw [collectAndPredicates] at h
    · obtain ⟨p,hp,-⟩ := Option.map_eq_some_iff.mp h
      unfold conjunct at hp
      split at hp
      · next left op right =>
        obtain ⟨d,hd,columnIdx,literal,ho⟩ := @comparison_cases o ev tuple _ _ _ _ hp
        have hop := @evaluateBinaryOp_test (evaluator o ev) op d hd
        obtain ⟨hand,hor⟩ := (hop .null .null).1
        obtain ⟨htp,hc⟩ : (¬∃ ls rs, left = .tuple ls ∧ right = .tuple rs) ∧
            allColumns (fun _ _ => true) (.binaryExpr left op right) = true := by
          rw [allColumns]
          obtain ⟨-,⟨table,name,rfl⟩,hc,-⟩ | ⟨-,⟨table,name,rfl⟩,hc,-⟩ := ho
          · exact ⟨by rintro ⟨ls,rs,⟨⟩,-⟩,by rw [allColumns,hc,Bool.and_self]⟩
          · exact ⟨by rintro ⟨ls,rs,-,⟨⟩⟩,by rw [hc,allColumns,Bool.and_self]⟩
        refine ⟨hc,fun value hv => ?_⟩
        rw [evaluate_binaryExpr hand hor htp] at hv
        obtain ⟨l,-,hv⟩ := bind_eq_ok.mp hv
        obtain ⟨r,-,hv⟩ := bind_eq_ok.mp hv
        rw [(hop l r).2,compareValues] at hv
        split at hv
        · cases hv
          exact .inl rfl
        · obtain ⟨ord,-,hv⟩ := bind_eq_ok.mp hv
          cases hv
          exact .inr ⟨_,rfl⟩
      · refine ⟨by rw [allColumns,allColumns],fun value hv => ?_⟩
        rw [evaluate] at hv
        obtain ⟨v,-,hv⟩ := bind_eq_ok.mp hv
        cases hv
        exact .inr ⟨_,rfl⟩
      · cases hp
    · exact hand

end

variable {o}

def clockCodes : Codes where
  timeOf code := some code
  isFloat _ := false
  compareFloats _ _ := none

def clockEvaluator : Evaluator := { Evaluator.bare [⟨"t",.time,none,none⟩] with parameters := [.other 36000] }

def atTen : LogicalExpr := .binaryExpr (.column none "t") .eq (.parameter 1)

def aboveFive : LogicalExpr := .binaryExpr (.literal (.int4 5)) .lt (.column none "t")

end HeliosNano.Sql.DirectFilter
