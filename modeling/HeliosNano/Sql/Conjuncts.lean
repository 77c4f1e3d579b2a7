import HeliosNano.Sql.Rows

namespace HeliosNano.Sql
open Foundation List

def extractConjuncts : LogicalExpr → List LogicalExpr
  | .binaryExpr left .and right => extractConjuncts left ++ extractConjuncts right
  | expr => [expr]

/-- The source asserts that there is a first conjunct. -/
def combineConjuncts (first : LogicalExpr) (rest : List LogicalExpr) : LogicalExpr :=
  rest.foldl (fun result conjunct => .binaryExpr result .and conjunct) first

/-- The truth value of an expression; any other value is an error. -/
def truthOf (ev : Evaluator) (tuple : Tuple) (expr : LogicalExpr) : Except SqlError Tri := do
  match ← ev.evaluate tuple expr with
  | .boolean b => .ok (some b)
  | .null => .ok none
  | value => .error (.queryExecution ("Cannot convert " ++ ev.conversions.debug value ++ " to boolean"))

section

/-- A conjunction that does not look at its right side when the left one is false. -/
def seqAnd (left right : Except SqlError Tri) : Except SqlError Tri :=
  match left with
  | .ok (some false) => .ok (some false)
  | .ok (some true) => right
  | .ok none => right.map (Tri.and none)
  | .error e => .error e

def seqAll : List (Except SqlError Tri) → Except SqlError Tri
  | [] => .ok (some true)
  | first::rest => seqAnd first (seqAll rest)

theorem seqAnd_assoc (a b c : Except SqlError Tri) : seqAnd (seqAnd a b) c = seqAnd a (seqAnd b c) := by
  rcases a with e | _ | _ | _ <;> rcases b with e | _ | _ | _ <;> rcases c with e | _ | _ | _ <;> rfl

theorem seqAll_singleton (a : Except SqlError Tri) : seqAll [a] = a := by
  rcases a with e | _ | _ | _ <;> rfl

theorem seqAll_append (xs ys : List (Except SqlError Tri)) : seqAll (xs ++ ys) = seqAnd (seqAll xs) (seqAll ys) := by
  induction xs with
  | nil => rfl
  | cons x rest ih => rw [cons_append,seqAll,seqAll,ih,seqAnd_assoc]

theorem seqAnd_eq_true {a b : Except SqlError Tri} : seqAnd a b = .ok (some true) ↔ a = .ok (some true) ∧ b = .ok (some true) := by
  rcases a with e | _ | _ | _ <;> rcases b with e | _ | _ | _ <;> simp [seqAnd,Except.map,Tri.and]

theorem seqAll_eq_true {xs : List (Except SqlError Tri)} : seqAll xs = .ok (some true) ↔ ∀ x ∈ xs, x = .ok (some true) := by
  induction xs with
  | nil => simp [seqAll]
  | cons x rest ih => rw [seqAll,seqAnd_eq_true,ih,forall_mem_cons]

theorem seqAll_filter {α : Type} (truth : α → Except SqlError Tri) (keep : α → Bool) (xs : List α)
    (h : ∀ x ∈ xs, keep x = false → truth x = .ok (some true)) : seqAll (xs.map truth) = seqAll ((xs.filter keep).map truth) := by
  induction xs with
  | nil => rfl
  | cons x rest ih =>
    specialize ih fun y hy => h y (mem_cons_of_mem _ hy)
    rw [map_cons,seqAll,ih]
    cases hk : keep x with
    | true => rw [filter_cons_of_pos hk,map_cons,seqAll]
    | false =>
      rw [filter_cons_of_neg (by simp [hk]),h x mem_cons_self hk]
      rfl

end

variable {ev : Evaluator} {tuple : Tuple}

theorem truthOf_and (left right : LogicalExpr) :
    truthOf ev tuple (.binaryExpr left .and right) = seqAnd (truthOf ev tuple left) (truthOf ev tuple right) := by
  rw [truthOf,Evaluator.evaluate,Evaluator.andShortCircuit,truthOf,truthOf]
  rcases ev.evaluate tuple left with e | v
  · rfl
  cases v with
  | boolean b =>
    cases b with
    | false => rfl
    | true => rcases ev.evaluate tuple right with e | _ | _ <;> rfl
  | null => rcases ev.evaluate tuple right with e | _ | ⟨_ | _⟩ <;> rfl
  | _ => rfl

theorem truthOf_conjuncts (expr : LogicalExpr) :
    truthOf ev tuple expr = seqAll ((extractConjuncts expr).map (truthOf ev tuple)) := by
  fun_induction extractConjuncts expr with
  | case1 left right ihl ihr => rw [truthOf_and,ihl,ihr,map_append,seqAll_append]
  | case2 expr => rw [map_singleton,seqAll_singleton]

theorem truthOf_combine (first : LogicalExpr) (rest : List LogicalExpr) :
    truthOf ev tuple (combineConjuncts first rest) = seqAll ((first::rest).map (truthOf ev tuple)) := by
  induction rest generalizing first with
  | nil => exact (seqAll_singleton _).symm
  | cons conjunct rest ih =>
    refine (ih (.binaryExpr first .and conjunct)).trans ?_
    rw [map_cons,map_cons,map_cons,seqAll,seqAll,seqAll,truthOf_and,seqAnd_assoc]

theorem andShortCircuit_ok {left right : Result} {value : Value} (h : ev.andShortCircuit left right = .ok value) :
    value = .null ∨ ∃ b, value = .boolean b := by
  rcases left with e | v
  · cases h
  rcases v with _ | ⟨_ | _⟩
  · rcases right with e | _ | ⟨_ | _⟩
    all_goals cases h
    all_goals simp
  · cases h
    simp
  · rcases right with e | _ | _
    all_goals cases h
    all_goals simp
  all_goals cases h

theorem truthOf_of_and {left right : LogicalExpr} {value : Value}
    (h : ev.evaluate tuple (.binaryExpr left .and right) = .ok value) :
    ∃ t, truthOf ev tuple (.binaryExpr left .and right) = .ok t := by
  have hv : value = .null ∨ ∃ b, value = .boolean b := by
    rw [Evaluator.evaluate] at h
    exact andShortCircuit_ok h
  rw [truthOf,h]
  rcases hv with rfl | ⟨b,rfl⟩
  · exact ⟨none,rfl⟩
  · exact ⟨some b,rfl⟩

theorem evaluatePredicate_ok_iff {predicate : LogicalExpr} {b : Bool} :
    evaluatePredicate ev predicate tuple = .ok b ↔ ∃ t, truthOf ev tuple predicate = .ok t ∧ b = (t == some true) := by
  rw [evaluatePredicate,truthOf]
  rcases ev.evaluate tuple predicate with e | v
  · simp [bind,Except.bind]
  cases v with
  | boolean c => cases c <;> simp [bind,Except.bind,eq_comm]
  | null => simp [bind,Except.bind,eq_comm]
  | _ => simp [bind,Except.bind]

theorem conditionHolds_of_truthOf {condition : LogicalExpr} {t : Tri} (h : truthOf ev tuple condition = .ok t) :
    conditionHolds ev (some condition) tuple = .ok (t == some true) := by
  rw [truthOf] at h
  rw [conditionHolds]
  cases hv : ev.evaluate tuple condition with
  | error e => rw [hv] at h; cases h
  | ok v =>
    rw [hv] at h
    cases v with
    | boolean c => cases h; cases c <;> rfl
    | null => cases h; rfl
    | _ => cases h

end HeliosNano.Sql
