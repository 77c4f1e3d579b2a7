import HeliosNano.Sql.ArithmeticSafe
import HeliosNano.Sql.Columns

namespace HeliosNano.Sql
open Evaluator

def BinaryOperator.arith : BinaryOperator → Option ArithOp
  | .plus => some .add
  | .minus => some .sub
  | .multiply => some .mul
  | .divide => some .div
  | _ => none

namespace Evaluator

/-- The operators of the evaluator on what the folder computes; the other operands are up to `ev`. -/
def onConstants (ev : Evaluator) : Evaluator :=
  { ev with
    binary := fun op left right =>
      match op.arith, left, right with
      | some arith, .int4 a, .int4 b =>
        if arith = .div ∧ b = 0 then queryError "Division by zero" else .ok (narrowed (arith.exact a b))
      | _, left, right => ev.binary op left right
    unary := fun op value =>
      match op, value with
      | .minus, .int4 n => if IsI32 (-n) then .ok (.int4 (-n)) else queryError "integer overflow: INT negation"
      | .plus, _ => queryError "Unary operator not yet implemented: Plus"
      | op, value => ev.unary op value
    castValue := fun value dataType => if value = .null then .ok .null else ev.castValue value dataType }

end Evaluator

namespace ConstantFolding

def int4ArithLiteral (result : Int) : LogicalExpr := .literal (narrowed result)

def comparisonLiteral (value : Value) : LogicalExpr :=
  if value = .null then .cast (.literal .null) .boolean else .literal value

variable (c : Conversions)

/-- Two literals; a comparison that fails is left to the evaluator. -/
def foldLiterals (op : BinaryOperator) (left right : Value) : Option LogicalExpr :=
  match op, left, right with
  | .plus, .int4 l, .int4 r => some (int4ArithLiteral (l+r))
  | .minus, .int4 l, .int4 r => some (int4ArithLiteral (l-r))
  | .multiply, .int4 l, .int4 r => some (int4ArithLiteral (l*r))
  | .divide, .int4 l, .int4 r => if r ≠ 0 then some (int4ArithLiteral (l.tdiv r)) else none
  | .eq, left, right => (compareValues c left right Ordering.isEq).toOption.map comparisonLiteral
  | .notEq, left, right => (compareValues c left right Ordering.isNe).toOption.map comparisonLiteral
  | .and, .boolean l, .boolean r => some (.literal (.boolean (l && r)))
  | .or, .boolean l, .boolean r => some (.literal (.boolean (l || r)))
  | _, _, _ => none

def foldBinary (left : LogicalExpr) (op : BinaryOperator) (right : LogicalExpr) : LogicalExpr :=
  match left, right with
  | .literal l, .literal r => (foldLiterals c op l r).getD (.binaryExpr (.literal l) op (.literal r))
  | left, right => .binaryExpr left op right

def foldUnary (op : UnaryOperator) (expr : LogicalExpr) : LogicalExpr :=
  match op, expr with
  | .not, .literal (.boolean b) => .literal (.boolean !b)
  | .minus, .literal (.int4 n) => if IsI32 (-n) then .literal (.int4 (-n)) else .unaryExpr .minus (.literal (.int4 n))
  | .plus, .literal value => .literal value
  | op, expr => .unaryExpr op expr

def foldExpr : LogicalExpr → LogicalExpr
  | .binaryExpr left op right => foldBinary c (foldExpr left) op (foldExpr right)
  | .unaryExpr op expr => foldUnary op (foldExpr expr)
  | other => other

def isLiteral : LogicalExpr → Bool
  | .literal _ => true
  | _ => false

def withoutPlus : LogicalExpr → LogicalExpr
  | .binaryExpr left op right => .binaryExpr (withoutPlus left) op (withoutPlus right)
  | .unaryExpr op expr =>
    if op = .plus ∧ isLiteral (foldExpr c expr) then withoutPlus expr else .unaryExpr op (withoutPlus expr)
  | other => other

/-- The right operand is evaluated after this result of the left one. -/
def GoesOn (op : BinaryOperator) (left : Result) : Prop :=
  match op, left with
  | _, .error _ => False
  | .and, .ok value => value = .boolean true ∨ value = .null
  | .or, .ok value => value = .boolean false ∨ value = .null
  | _, .ok _ => True

/-- The evaluation comes to a plus that the folder removes. -/
def ReachesPlus (ev : Evaluator) (tuple : Tuple) : LogicalExpr → Prop
  | .binaryExpr left op right =>
    ReachesPlus ev tuple left ∨ GoesOn op (ev.evaluate tuple left) ∧ ReachesPlus ev tuple right
  | .unaryExpr op expr => op = .plus ∧ isLiteral (foldExpr c expr) ∨ ReachesPlus ev tuple expr
  | _ => False

section
variable {c} {ev : Evaluator} {tuple : Tuple} {left right left' right' : LogicalExpr} {op : BinaryOperator}

theorem evaluate_binaryExpr_congr (hl : ev.evaluate tuple left = ev.evaluate tuple left')
    (hr : GoesOn op (ev.evaluate tuple left) → ev.evaluate tuple right = ev.evaluate tuple right')
    (htl : ∀ items, left = .tuple items ↔ left' = .tuple items) (htr : ∀ items, right = .tuple items ↔ right' = .tuple items) :
    ev.evaluate tuple (.binaryExpr left op right) = ev.evaluate tuple (.binaryExpr left' op right') := by
  by_cases hand : op = .and
  · subst hand
    rw [evaluate,evaluate,← hl,andShortCircuit,andShortCircuit]
    cases hlf : ev.evaluate tuple left with
    | error e => rfl
    | ok value =>
      rw [hlf] at hr
      cases value with
      | boolean b =>
        cases b with
        | false => rfl
        | true => rw [hr (.inl rfl)]
      | null => rw [hr (.inr rfl)]
      | _ => rfl
  by_cases hor : op = .or
  · subst hor
    rw [evaluate,evaluate,← hl,orShortCircuit,orShortCircuit]
    cases hlf : ev.evaluate tuple left with
    | error e => rfl
    | ok value =>
      rw [hlf] at hr
      cases value with
      | boolean b =>
        cases b with
        | false => rw [hr (.inl rfl)]
        | true => rfl
      | null => rw [hr (.inr rfl)]
      | _ => rfl
  by_cases htp : ∃ ls rs, left = .tuple ls ∧ right = .tuple rs
  · obtain ⟨ls,rs,rfl,rfl⟩ := htp
    rw [(htl ls).mp rfl,(htr rs).mp rfl]
  have ht' : ¬∃ ls rs, left' = .tuple ls ∧ right' = .tuple rs := by
    simpa only [htl,htr] using htp
  rw [evaluate_binaryExpr hand hor htp,evaluate_binaryExpr hand hor ht',← hl]
  cases hlf : ev.evaluate tuple left with
  | error e => rfl
  | ok value =>
    rw [hlf] at hr
    have hgo : GoesOn op (.ok value) := by
      unfold GoesOn
      split <;> trivial
    rw [hr hgo]

theorem evaluate_binaryExpr_error (htp : ¬∃ ls rs, left = .tuple ls ∧ right = .tuple rs)
    (h : (∃ e, ev.evaluate tuple left = .error e) ∨
      GoesOn op (ev.evaluate tuple left) ∧ ∃ e, ev.evaluate tuple right = .error e) :
    ∃ e, ev.evaluate tuple (.binaryExpr left op right) = .error e := by
  obtain ⟨e,hl⟩ | ⟨hgo,e,hrt⟩ := h
  · refine ⟨e,?_⟩
    by_cases hand : op = .and
    · rw [hand,evaluate,hl]
      rfl
    by_cases hor : op = .or
    · rw [hor,evaluate,hl]
      rfl
    rw [evaluate_binaryExpr hand hor htp,hl]
    rfl
  · refine ⟨e,?_⟩
    cases hl : ev.evaluate tuple left with
    | error e' =>
      rw [hl] at hgo
      unfold GoesOn at hgo
      split at hgo <;> first | exact hgo.elim | contradiction
    | ok value =>
      rw [hl] at hgo
      by_cases hand : op = .and
      · subst hand
        rw [evaluate,hl,hrt]
        obtain rfl | rfl := hgo <;> rfl
      by_cases hor : op = .or
      · subst hor
        rw [evaluate,hl,hrt]
        obtain rfl | rfl := hgo <;> rfl
      rw [evaluate_binaryExpr hand hor htp,hl,hrt]
      rfl

end

section
variable {c} {ev : Evaluator} {tuple : Tuple} {left right expr : LogicalExpr} {items : List LogicalExpr}
variable {op : BinaryOperator}

theorem evaluate_literals (hand : op ≠ .and) (hor : op ≠ .or) (l r : Value) :
    ev.evaluate tuple (.binaryExpr (.literal l) op (.literal r)) = ev.evaluateBinaryOp l op r := by
  rw [evaluate_binaryExpr hand hor (by rintro ⟨ls,rs,⟨⟩,-⟩),evaluate,evaluate]
  rfl

theorem evaluate_comparisonLiteral {result : Result} (h : result.toOption.map comparisonLiteral = some expr) :
    ev.onConstants.evaluate tuple expr = result := by
  cases result with
  | error e => cases h
  | ok value =>
    cases h
    unfold comparisonLiteral
    split
    · next hn =>
      rw [evaluate,evaluate,hn]
      rfl
    · rw [evaluate]

theorem evaluate_foldLiterals {l r : Value} (h : foldLiterals ev.conversions op l r = some expr) :
    ev.onConstants.evaluate tuple expr = ev.onConstants.evaluate tuple (.binaryExpr (.literal l) op (.literal r)) := by
  have hop := fun hand hor => (@evaluate_literals ev.onConstants tuple op hand hor l r).symm
  unfold foldLiterals at h
  split at h
  case h_4 =>
    split at h
    next hz =>
      cases h
      refine Eq.trans ?_ (hop nofun nofun)
      rw [int4ArithLiteral,evaluate]
      exact (if_neg fun hno => hz hno.2).symm
    · cases h
  case h_5 | h_6 => exact (evaluate_comparisonLiteral h).trans (hop nofun nofun)
  case h_7 l r | h_8 l r =>
    cases h
    rw [evaluate,evaluate,evaluate,evaluate]
    cases l <;> rfl
  case h_9 => cases h
  all_goals
    cases h
    refine Eq.trans ?_ (hop nofun nofun)
    rw [int4ArithLiteral,evaluate]
    rfl

theorem evaluate_foldBinary (op : BinaryOperator) : ev.onConstants.evaluate tuple (foldBinary ev.conversions left op right) =
    ev.onConstants.evaluate tuple (.binaryExpr left op right) := by
  unfold foldBinary
  split
  · next l r =>
    cases h : foldLiterals ev.conversions op l r with
    | none => rfl
    | some folded => exact evaluate_foldLiterals h
  · rfl

theorem evaluate_foldUnary (op : UnaryOperator) (expr : LogicalExpr) : ev.onConstants.evaluate tuple (foldUnary op expr) =
    ev.onConstants.evaluate tuple (if op = .plus ∧ isLiteral expr then expr else .unaryExpr op expr) := by
  unfold foldUnary
  split
  · rw [if_neg (by rintro ⟨⟨⟩,-⟩),evaluate,evaluate,evaluate]
    rfl
  · split
    · next hf =>
      have hm : ev.onConstants.evaluateUnaryOp .minus (.int4 _) = _ := if_pos hf
      rw [if_neg (by rintro ⟨⟨⟩,-⟩),evaluate,evaluate,evaluate]
      exact hm.symm
    · rw [if_neg (by rintro ⟨⟨⟩,-⟩)]
  · rw [if_pos ⟨rfl,rfl⟩]
  · next hp =>
    rw [if_neg]
    rintro ⟨rfl,hl⟩
    cases expr <;> cases hl
    exact hp _ rfl rfl

theorem foldLiterals_ne_tuple {l r : Value} : foldLiterals c op l r ≠ some (.tuple items) := by
  unfold foldLiterals int4ArithLiteral
  split <;> grind [comparisonLiteral,Option.map_eq_some_iff]

theorem foldExpr_tuple_iff : foldExpr c expr = .tuple items ↔ expr = .tuple items := by
  cases expr with
  | binaryExpr left op right =>
    refine iff_of_false (fun h => ?_) nofun
    unfold foldExpr foldBinary at h
    split at h
    · next l r _ _ =>
      cases hf : foldLiterals c op l r with
      | none =>
        rw [hf] at h
        cases h
      | some folded =>
        rw [hf] at h
        cases h
        exact foldLiterals_ne_tuple hf
    · cases h
  | unaryExpr op expr =>
    refine iff_of_false (fun h => ?_) nofun
    unfold foldExpr foldUnary at h
    split at h
    case h_2 => split at h <;> cases h
    all_goals cases h
  | _ => rw [foldExpr] <;> nofun

theorem withoutPlus_tuple_iff : withoutPlus c expr = .tuple items ↔ expr = .tuple items := by
  induction expr using withoutPlus.induct c with
  | case1 left op right => exact iff_of_false (by rw [withoutPlus]; nofun) nofun
  | case2 op expr hp ih =>
    rw [withoutPlus,if_pos hp,ih]
    refine iff_of_false (fun h => ?_) nofun
    rw [h,foldExpr] at hp <;> grind [isLiteral]
  | case3 op expr hp ih => exact iff_of_false (by rw [withoutPlus,if_neg hp]; nofun) nofun
  | case4 other hb hu => rw [withoutPlus] <;> assumption

theorem evaluate_foldExpr (expr : LogicalExpr) : ev.onConstants.evaluate tuple (foldExpr ev.conversions expr) =
    ev.onConstants.evaluate tuple (withoutPlus ev.conversions expr) := by
  induction expr using foldExpr.induct with
  | case1 left op right ihl ihr =>
    rw [foldExpr,evaluate_foldBinary,withoutPlus]
    exact evaluate_binaryExpr_congr ihl (fun _ => ihr) (fun _ => foldExpr_tuple_iff.trans withoutPlus_tuple_iff.symm)
      fun _ => foldExpr_tuple_iff.trans withoutPlus_tuple_iff.symm
  | case2 op expr ih =>
    rw [foldExpr,evaluate_foldUnary,withoutPlus]
    split
    · exact ih
    · rw [evaluate,evaluate,ih]
  | case3 other hb hu => rw [foldExpr,withoutPlus] <;> assumption

theorem error_of_reachesPlus (h : ReachesPlus c ev.onConstants tuple expr) :
    ∃ e, ev.onConstants.evaluate tuple expr = .error e := by
  induction expr using foldExpr.induct with
  | case1 left op right ihl ihr =>
    rw [ReachesPlus] at h
    refine evaluate_binaryExpr_error ?_ (h.imp ihl fun hrt => ⟨hrt.1,ihr hrt.2⟩)
    rintro ⟨ls,rs,rfl,rfl⟩
    rw [ReachesPlus,ReachesPlus] at h
    · exact h.elim id And.right
    all_goals nofun
  | case2 op expr ih =>
    rw [ReachesPlus] at h
    rw [evaluate]
    cases hv : ev.onConstants.evaluate tuple expr with
    | error e => exact ⟨e,rfl⟩
    | ok value =>
      obtain ⟨rfl,-⟩ | h := h
      · exact ⟨_,rfl⟩
      · obtain ⟨e,he⟩ := ih h
        rw [hv] at he
        cases he
  | case3 other hb hu => rw [ReachesPlus] at h <;> [cases h; assumption; assumption]

theorem evaluate_withoutPlus (h : ¬ReachesPlus c ev.onConstants tuple expr) :
    ev.onConstants.evaluate tuple expr = ev.onConstants.evaluate tuple (withoutPlus c expr) := by
  induction expr using foldExpr.induct with
  | case1 left op right ihl ihr =>
    rw [ReachesPlus,not_or,not_and] at h
    rw [withoutPlus]
    exact evaluate_binaryExpr_congr (ihl h.1) (fun hgo => ihr (h.2 hgo)) (fun _ => withoutPlus_tuple_iff.symm)
      fun _ => withoutPlus_tuple_iff.symm
  | case2 op expr ih =>
    rw [ReachesPlus,not_or] at h
    rw [withoutPlus,if_neg h.1,evaluate,evaluate,ih h.2]
  | case3 other hb hu => rw [withoutPlus] <;> assumption

end

end ConstantFolding
end HeliosNano.Sql
