import HeliosNano.Sql.ThreeValued

namespace HeliosNano.Sql.ThreeValued
open Foundation List Evaluator

/-- The derived predicates. A simple CASE is given by its operand and the values it compares. -/
inductive Derived
  | between (expr low high : LogicalExpr) (negated : Bool)
  | inList (expr : LogicalExpr) (list : List LogicalExpr) (negated : Bool)
  | inSet (expr : LogicalExpr) (values : List Value) (negated : Bool)
  | simpleCase (operand : LogicalExpr) (whens : List LogicalExpr)
  | rowCompare (left : List LogicalExpr) (op : RowOperator) (right : List LogicalExpr)

section
variable (ev : Evaluator) (tuple : Tuple)

def valueOf (expr : LogicalExpr) : Value :=
  match ev.evaluate tuple expr with
  | .ok value => value
  | .error _ => .null

/-- An item of an IN list that stands for itself, not for the elements of an array. -/
def Single : LogicalExpr → Prop
  | .scalarFunction fn _ => fn ≠ anyArrayMarkerFunction
  | _ => True

/-- The expression evaluates without error to NULL or a value of the kind. -/
def Evaluates (k : Kind) (expr : LogicalExpr) : Prop :=
  ∃ v, ev.evaluate tuple expr = .ok v ∧ IsOf ev.conversions k v

namespace Derived

def Typed (k : Kind) : Derived → Prop
  | between expr low high _ => Evaluates ev tuple k expr ∧ Evaluates ev tuple k low ∧ Evaluates ev tuple k high
  | inList expr list _ => Evaluates ev tuple k expr ∧ ∀ item ∈ list, Single item ∧ Evaluates ev tuple k item
  | inSet expr values _ => Evaluates ev tuple k expr ∧ ∀ value ∈ values, IsOf ev.conversions k value
  | simpleCase operand whens => Evaluates ev tuple k operand ∧ ∀ item ∈ whens, Evaluates ev tuple k item
  | rowCompare left _ right =>
    left.length = right.length ∧ (∀ item ∈ left, Evaluates ev tuple k item) ∧ ∀ item ∈ right, Evaluates ev tuple k item

/-- The result of the branch at a position, else the ELSE result, else NULL. -/
def branch (position : Option Nat) (results : List LogicalExpr) (elseResult : Option LogicalExpr) : Result :=
  match position.bind fun i => results[i]? with
  | some result => ev.evaluate tuple result
  | none =>
    match elseResult with
    | some result => ev.evaluate tuple result
    | none => .ok .null

def Expands : Derived → Prop
  | between expr low high negated =>
    ev.evaluate tuple (.between expr low high negated) =
      .ok (ofTri (negate3 negated
        (between3 ev.conversions (valueOf ev tuple expr) (valueOf ev tuple low) (valueOf ev tuple high))))
  | inList expr list negated =>
    ev.evaluate tuple (.inList expr list negated) =
      .ok (ofTri (negate3 negated (in3 ev.conversions (valueOf ev tuple expr) (list.map (valueOf ev tuple)))))
  | inSet expr values negated =>
    ev.evaluate tuple (.inSet expr values negated) = ev.evaluate tuple (.inList expr (values.map .literal) negated)
  | simpleCase operand whens =>
    ∀ results elseResult, results.length = whens.length →
      ev.evaluate tuple (.case (some operand) (whens.zip results) elseResult) =
        branch ev tuple (firstEqual ev.conversions (valueOf ev tuple operand) (whens.map (valueOf ev tuple))) results elseResult
  | rowCompare left op right =>
    ev.evaluate tuple (.binaryExpr (.tuple left) op.binary (.tuple right)) =
      .ok (ofTri (row3 ev.conversions op ((left.map (valueOf ev tuple)).zip (right.map (valueOf ev tuple)))))

/-- No NULL and no other spelling of a number comes where the evaluator treats it differently. -/
def Decided : Derived → Prop
  | between expr low high _ =>
    BoundsDecide ev.conversions (valueOf ev tuple expr) (valueOf ev tuple low) (valueOf ev tuple high)
  | inList expr list _ => MembersDecide ev.conversions (valueOf ev tuple expr) (list.map (valueOf ev tuple))
  | inSet expr values _ => SetDecides ev.conversions (valueOf ev tuple expr) values
  | simpleCase operand whens => FirstSpelled ev.conversions (valueOf ev tuple operand) (whens.map (valueOf ev tuple))
  | rowCompare _ _ _ => True

end Derived
end

variable {ev : Evaluator} {tuple : Tuple} {k : Kind}
variable {expr : LogicalExpr}

theorem Evaluates.eq_ok (h : Evaluates ev tuple k expr) : ev.evaluate tuple expr = .ok (valueOf ev tuple expr) := by
  obtain ⟨v,hv,-⟩ := h
  rw [valueOf,hv]

theorem Evaluates.isOf (h : Evaluates ev tuple k expr) : IsOf ev.conversions k (valueOf ev tuple expr) := by
  obtain ⟨v,hv,hof⟩ := h
  rw [valueOf,hv]
  exact hof

variable {list : List LogicalExpr}

theorem isOf_valueOf_map (h : ∀ item ∈ list, Evaluates ev tuple k item) :
    ∀ w ∈ list.map (valueOf ev tuple), IsOf ev.conversions k w := by
  intro w hw
  obtain ⟨item,hi,rfl⟩ := mem_map.mp hw
  exact (h item hi).isOf

theorem evaluateAll_eq (list : List LogicalExpr) : ev.evaluateAll tuple list = list.map (ev.evaluate tuple) := by
  induction list with
  | nil => rfl
  | cons item rest ih => rw [evaluateAll,ih,map_cons]

theorem evaluatePairs_eq (list : List (LogicalExpr × LogicalExpr)) :
    ev.evaluatePairs tuple list = list.map fun pair => (ev.evaluate tuple pair.1,ev.evaluate tuple pair.2) := by
  induction list with
  | nil => rfl
  | cons pair rest ih => rw [evaluatePairs,ih,map_cons,evaluatePair]

theorem evaluateItems_eq (h : ∀ item ∈ list, Single item) :
    ev.evaluateItems tuple list = list.map fun item => .value (ev.evaluate tuple item) := by
  induction list with
  | nil => rfl
  | cons item rest ih =>
    specialize ih fun other ho => h other (mem_cons_of_mem _ ho)
    have hi := h item mem_cons_self
    cases item with
    | scalarFunction fn args =>
      rw [evaluateItems,ih,if_neg hi,map_cons,evaluate]
    | _ =>
      rw [evaluateItems,ih,map_cons]
      simp

theorem map_evaluate_eq (h : ∀ item ∈ list, Evaluates ev tuple k item) :
    list.map (ev.evaluate tuple) = (list.map (valueOf ev tuple)).map Except.ok := by
  rw [map_map]
  exact map_congr_left fun item hi => (h item hi).eq_ok

namespace Derived

variable {negated : Bool} {expr : LogicalExpr}

theorem between_expands_iff {low high : LogicalExpr} (h : (between expr low high negated).Typed ev tuple k) :
    (between expr low high negated).Expands ev tuple ↔ (between expr low high negated).Decided ev tuple := by
  obtain ⟨hexpr,hl,hh⟩ := h
  rw [Expands,evaluate,hexpr.eq_ok,hl.eq_ok,hh.eq_ok]
  exact evaluateBetween_iff hexpr.isOf hl.isOf hh.isOf negated

variable {list : List LogicalExpr} {operand : LogicalExpr} {whens : List LogicalExpr}

theorem evaluate_inList (hexpr : Evaluates ev tuple k expr) (hl : ∀ item ∈ list, Single item ∧ Evaluates ev tuple k item) :
    ev.evaluate tuple (.inList expr list negated) =
      .ok (ofTri (negate3 negated (listed3 ev.conversions (valueOf ev tuple expr) (list.map (valueOf ev tuple))))) := by
  have hits : ev.evaluateItems tuple list = (list.map (valueOf ev tuple)).map fun w => .value (.ok w) := by
    rw [evaluateItems_eq fun item hi => (hl item hi).1,map_map]
    exact map_congr_left fun item hi => congrArg ListItem.value (hl item hi).2.eq_ok
  rw [evaluate,hexpr.eq_ok,hits]
  exact evaluateInList_values _ _ negated

theorem inList_expands_iff (h : (inList expr list negated).Typed ev tuple k) :
    (inList expr list negated).Expands ev tuple ↔ (inList expr list negated).Decided ev tuple := by
  obtain ⟨hexpr,hl⟩ := h
  rw [Expands,evaluate_inList hexpr hl,ok_ofTri_iff]
  exact listed3_iff hexpr.isOf (isOf_valueOf_map fun item hi => (hl item hi).2)

theorem inSet_expands_iff {values : List Value} (h : (inSet expr values negated).Typed ev tuple k) :
    (inSet expr values negated).Expands ev tuple ↔ (inSet expr values negated).Decided ev tuple := by
  obtain ⟨hexpr,hv⟩ := h
  have hl : ∀ item ∈ values.map LogicalExpr.literal, Single item ∧ Evaluates ev tuple k item := by
    intro item hi
    obtain ⟨value,hvl,rfl⟩ := mem_map.mp hi
    exact ⟨trivial,value,by rw [evaluate],hv value hvl⟩
  have hm : (values.map LogicalExpr.literal).map (valueOf ev tuple) = values := by
    rw [map_map]
    refine (map_congr_left fun value _ => ?_).trans (map_id _)
    simp only [Function.comp_apply,valueOf,evaluate,id]
  rw [Expands,evaluate_inList hexpr hl,hm,evaluate,hexpr.eq_ok]
  exact evaluateInSet_iff hexpr.isOf hv negated

theorem evaluateCase_ok (value : Value) (whenThen : List (Result × Result)) (elseResult : Option Result) :
    ev.evaluateCase (some (.ok value)) whenThen elseResult =
      (ev.simpleCase value whenThen).elim (elseResult.getD (.ok .null)) id := by
  cases h : ev.simpleCase value whenThen with
  | none | some result => simp [evaluateCase,h,bind,Except.bind,pure,Except.pure]

theorem evaluate_simpleCase {results : List LogicalExpr} {elseResult : Option LogicalExpr}
    (ho : Evaluates ev tuple k operand) (hw : ∀ item ∈ whens, Evaluates ev tuple k item)
    (hl : results.length = whens.length) : ev.evaluate tuple (.case (some operand) (whens.zip results) elseResult) =
      branch ev tuple ((whens.map (valueOf ev tuple)).findIdx? (valuesEqual ev.conversions (valueOf ev tuple operand)))
        results elseResult := by
  have hp : ev.evaluatePairs tuple (whens.zip results) =
      ((whens.map (valueOf ev tuple)).map Except.ok).zip (results.map (ev.evaluate tuple)) := by
    rw [evaluatePairs_eq,← map_evaluate_eq hw,zip_map]
    rfl
  rw [evaluate,hp]
  simp only [evaluateOption,ho.eq_ok]
  rw [evaluateCase_ok,simpleCase_values _ _ _ (by simpa using hl)]
  unfold branch
  cases (whens.map (valueOf ev tuple)).findIdx? (valuesEqual ev.conversions (valueOf ev tuple operand)) with
  | none => cases elseResult <;> rfl
  | some i => cases hi : results[i]? <;> cases elseResult <;> simp [hi,evaluateOption]

theorem position_of_branch {i j : Option Nat} {n : Nat} (hi : ∀ p, i = some p → p < n) (hj : ∀ p, j = some p → p < n)
    (h : ∀ results elseResult, results.length = n → branch ev tuple i results elseResult = branch ev tuple j results elseResult) :
    i = j := by
  have hl : ∀ i : Option Nat, (∀ p, i = some p → p < n) →
      branch ev tuple i ((List.range n).map fun p : Nat => LogicalExpr.literal (.int8 p)) none =
        .ok (i.elim .null fun p => .int8 p) := by
    intro i hi
    cases i with
    | none => rfl
    | some p => simp [branch,hi p rfl,evaluate]
  have hsame := h ((List.range n).map fun p : Nat => LogicalExpr.literal (.int8 p)) none (by simp)
  rw [hl i hi,hl j hj] at hsame
  cases i <;> cases j <;> simp at hsame <;> simp [hsame]

theorem findIdx_lt {α : Type} {p : α → Bool} {list : List α} {i : Nat} (h : list.findIdx? p = some i) : i < list.length := by
  obtain ⟨hlt,-⟩ := findIdx?_eq_some_iff_getElem.mp h
  exact hlt

theorem simpleCase_expands_iff (h : (simpleCase operand whens).Typed ev tuple k) :
    (simpleCase operand whens).Expands ev tuple ↔ (simpleCase operand whens).Decided ev tuple := by
  obtain ⟨ho,hw⟩ := h
  rw [Decided,← findIdx_valuesEqual_iff ho.isOf (isOf_valueOf_map hw),Expands]
  constructor
  · intro ha
    refine @position_of_branch ev tuple _ _ whens.length ?_ ?_ fun results elseResult hl => ?_
    · intro p hp
      simpa using findIdx_lt hp
    · intro p hp
      simpa using findIdx_lt hp
    · rw [← evaluate_simpleCase ho hw hl,ha results elseResult hl]
  · intro hsame results elseResult hl
    rw [evaluate_simpleCase ho hw hl,hsame]

theorem rowCompare_expands {left right : List LogicalExpr} {op : RowOperator} (h : (rowCompare left op right).Typed ev tuple k) :
    (rowCompare left op right).Expands ev tuple := by
  obtain ⟨hln,hlf,hrt⟩ := h
  have he : ev.evaluate tuple (.binaryExpr (.tuple left) op.binary (.tuple right)) =
      ev.evaluateTupleCompare (ev.evaluateAll tuple left) op.binary (ev.evaluateAll tuple right) := by
    cases op <;> simp only [RowOperator.binary,evaluate]
  have hz : ((left.map (valueOf ev tuple)).map Except.ok).zip ((right.map (valueOf ev tuple)).map Except.ok) =
      okPairs ((left.map (valueOf ev tuple)).zip (right.map (valueOf ev tuple))) := zip_map
  rw [Expands,he,evaluateAll_eq,evaluateAll_eq,map_evaluate_eq hlf,map_evaluate_eq hrt,
    evaluateTupleCompare,if_neg (by simp [hln]),hz]
  refine compareTuples_row (k := k) op fun pair hp => ?_
  obtain ⟨l,r⟩ := pair
  obtain ⟨hl,hr⟩ := of_mem_zip hp
  exact ⟨isOf_valueOf_map hlf _ hl,isOf_valueOf_map hrt _ hr⟩

end Derived

/-- The evaluator gives a derived predicate over values of one kind the value of its expansion
exactly where the predicate is decided. -/
theorem derived_predicates_expand (ev : Evaluator) (tuple : Tuple) (k : Kind) (form : Derived) (h : form.Typed ev tuple k) :
    form.Expands ev tuple ↔ form.Decided ev tuple := by
  cases form with
  | between => exact Derived.between_expands_iff h
  | inList => exact Derived.inList_expands_iff h
  | inSet => exact Derived.inSet_expands_iff h
  | simpleCase => exact Derived.simpleCase_expands_iff h
  | rowCompare => exact ⟨fun _ => trivial,fun _ => Derived.rowCompare_expands h⟩

theorem evaluates_literal {value : Value} (h : IsOf ev.conversions k value) : Evaluates ev tuple k (.literal value) :=
  ⟨value,by rw [evaluate],h⟩

/-- `2 BETWEEN 1 AND NULL` is unknown, as its expansion is. -/
theorem between_null_bound_expands :
    (Derived.between (.literal (.int4 2)) (.literal (.int4 1)) (.literal .null) false).Typed (.bare []) [] .integer ∧
      (Derived.between (.literal (.int4 2)) (.literal (.int4 1)) (.literal .null) false).Expands (.bare []) [] := by
  have htyped : (Derived.between (.literal (.int4 2)) (.literal (.int4 1)) (.literal .null) false).Typed (.bare []) [] .integer :=
    ⟨evaluates_literal trivial,evaluates_literal trivial,evaluates_literal trivial⟩
  refine ⟨htyped,(derived_predicates_expand _ _ .integer _ htyped).mpr (.inr ⟨?_,?_⟩)⟩
  · intro h
    cases h
  · intro _
    decide +kernel

def divergentForms : List (Kind × Derived) :=
  [(.integer,.between (.literal (.int4 5)) (.literal (.int4 10)) (.literal .null) false),
    (.integer,.inList (.literal .null) [] false),
    (.numeric,.inList (.literal (.numeric (text "1.0"))) [.literal (.numeric (text "1.00"))] false),
    (.numeric,.simpleCase (.literal (.numeric (text "1.0"))) [.literal (.numeric (text "1.00"))]),
    (.integer,.inSet (.literal (.int4 5)) [.int4 1,.null] true)]

/-- `5 BETWEEN 10 AND NULL` is NULL where `5 >= 10 AND 5 <= NULL` is FALSE; `NULL IN ()` is NULL;
`1.0 IN (1.00)` is FALSE where `1.0 = 1.00` is TRUE, and a simple CASE passes over that branch; 5
is not in a set with NULL where the list is unknown. -/
theorem derived_predicates_diverge :
    divergentForms.Forall fun form => form.2.Typed (.bare []) [] form.1 ∧ ¬form.2.Expands (.bare []) [] := by
  rw [forall_iff_forall_mem]
  have hnumeric : ∀ s ∈ [text "1.0",text "1.00"], IsOf bareConversions .numeric (.numeric s) := by
    intro s hs
    exact .inr (by revert s; decide +kernel)
  simp only [divergentForms,forall_mem_cons]
  refine ⟨⟨?_,?_⟩,⟨?_,?_⟩,⟨?_,?_⟩,⟨?_,?_⟩,⟨?_,?_⟩,nofun⟩
  · exact ⟨evaluates_literal trivial,evaluates_literal trivial,evaluates_literal trivial⟩
  · rw [Derived.Expands]
    decide +kernel
  · exact ⟨evaluates_literal trivial,nofun⟩
  · rw [Derived.Expands]
    decide +kernel
  · refine ⟨evaluates_literal (hnumeric _ (by decide)),?_⟩
    rintro item hitem
    rw [mem_singleton.mp hitem]
    exact ⟨trivial,evaluates_literal (hnumeric _ (by decide))⟩
  · rw [Derived.Expands]
    decide +kernel
  · refine ⟨evaluates_literal (hnumeric _ (by decide)),?_⟩
    rintro item hitem
    rw [mem_singleton.mp hitem]
    exact evaluates_literal (hnumeric _ (by decide))
  · intro hexpands
    have htaken := hexpands [.literal (.boolean true)] none rfl
    revert htaken
    decide +kernel
  · refine ⟨evaluates_literal trivial,?_⟩
    simp [IsOf]
  · rw [Derived.Expands]
    decide +kernel

end HeliosNano.Sql.ThreeValued
