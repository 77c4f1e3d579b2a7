import HeliosNano.Sql.Expr

namespace HeliosNano.Sql

mutual

/-- A property of every column that evaluation looks up. Aggregate and window calls and subqueries
are not descended into, and a bound column is no reference by name. -/
def allColumns (p : Option String → String → Bool) : LogicalExpr → Bool
  | .column table name => p table name
  | .boundColumn _ _ _ => false
  | .binaryExpr left _ right => allColumns p left && allColumns p right
  | .unaryExpr _ expr | .isNull expr _ | .cast expr _ | .inSet expr _ _ => allColumns p expr
  | .between expr low high _ => allColumns p expr && allColumns p low && allColumns p high
  | .inList expr list _ => allColumns p expr && allColumnsList p list
  | .case operand whenThen elseResult =>
    allColumnsOption p operand && allColumnsPairs p whenThen && allColumnsOption p elseResult
  | .scalarFunction _ args => allColumnsList p args
  | .arraySubscript array index => allColumns p array && allColumns p index
  | .tuple items => allColumnsList p items
  | .literal _ | .aggregateFunction _ _ _ | .scalarSubquery _ | .inSubquery _ _ _ | .exists _ _ | .defaultValue
  | .wildcard | .parameter _ | .newRow _ | .oldRow _ | .windowFunction _ _ _ _ => true

def allColumnsList (p : Option String → String → Bool) : List LogicalExpr → Bool
  | [] => true
  | expr::rest => allColumns p expr && allColumnsList p rest

def allColumnsPairs (p : Option String → String → Bool) : List (LogicalExpr × LogicalExpr) → Bool
  | [] => true
  | pair::rest => allColumnsPair p pair && allColumnsPairs p rest

def allColumnsPair (p : Option String → String → Bool) : LogicalExpr × LogicalExpr → Bool
  | (first,second) => allColumns p first && allColumns p second

def allColumnsOption (p : Option String → String → Bool) : Option LogicalExpr → Bool
  | none => true
  | some expr => allColumns p expr

end

def bindColumn (f : Option String → String → Option Nat) (table : Option String) (name : String) : LogicalExpr :=
  match f table name with
  | some index => .boundColumn index table name
  | none => .column table name

mutual

/-- `map_column_refs` for a resolution of names; scalar function names stay as they are. -/
def bindColumns (f : Option String → String → Option Nat) : LogicalExpr → LogicalExpr
  | .column table name => bindColumn f table name
  | .binaryExpr left op right => .binaryExpr (bindColumns f left) op (bindColumns f right)
  | .unaryExpr op expr => .unaryExpr op (bindColumns f expr)
  | .isNull expr isNull => .isNull (bindColumns f expr) isNull
  | .between expr low high negated => .between (bindColumns f expr) (bindColumns f low) (bindColumns f high) negated
  | .inList expr list negated => .inList (bindColumns f expr) (bindColumnsList f list) negated
  | .inSet expr values negated => .inSet (bindColumns f expr) values negated
  | .case operand whenThen elseResult =>
    .case (bindColumnsOption f operand) (bindColumnsPairs f whenThen) (bindColumnsOption f elseResult)
  | .cast expr dataType => .cast (bindColumns f expr) dataType
  | .scalarFunction fn args => .scalarFunction fn (bindColumnsList f args)
  | .arraySubscript array index => .arraySubscript (bindColumns f array) (bindColumns f index)
  | .tuple items => .tuple (bindColumnsList f items)
  | .literal value => .literal value
  | .aggregateFunction fn args distinct => .aggregateFunction fn args distinct
  | .scalarSubquery subquery => .scalarSubquery subquery
  | .inSubquery expr subquery negated => .inSubquery expr subquery negated
  | .exists subquery negated => .exists subquery negated
  | .defaultValue => .defaultValue
  | .wildcard => .wildcard
  | .parameter index => .parameter index
  | .newRow column => .newRow column
  | .oldRow column => .oldRow column
  | .windowFunction fn args partitionBy orderBy => .windowFunction fn args partitionBy orderBy
  | .boundColumn index table name => .boundColumn index table name

def bindColumnsList (f : Option String → String → Option Nat) : List LogicalExpr → List LogicalExpr
  | [] => []
  | expr::rest => bindColumns f expr :: bindColumnsList f rest

def bindColumnsPairs (f : Option String → String → Option Nat) :
    List (LogicalExpr × LogicalExpr) → List (LogicalExpr × LogicalExpr)
  | [] => []
  | pair::rest => bindColumnsPair f pair :: bindColumnsPairs f rest

def bindColumnsPair (f : Option String → String → Option Nat) : LogicalExpr × LogicalExpr → LogicalExpr × LogicalExpr
  | (first,second) => (bindColumns f first,bindColumns f second)

def bindColumnsOption (f : Option String → String → Option Nat) : Option LogicalExpr → Option LogicalExpr
  | none => none
  | some expr => some (bindColumns f expr)

end

namespace Evaluator

def withSchema (ev : Evaluator) (schema : Schema) : Evaluator := { ev with schema := schema }

section
variable {ev : Evaluator} {schema : Schema} {tuple tuple' : Tuple} {p : Option String → String → Bool}
  {f : Option String → String → Option Nat}

/-- The columns of a property have the value of the positions that they become. -/
def Resolves (ev : Evaluator) (schema : Schema) (tuple tuple' : Tuple) (p : Option String → String → Bool)
    (f : Option String → String → Option Nat) : Prop :=
  ∀ table name, p table name = true →
    ev.evaluate tuple (.column table name) = (ev.withSchema schema).evaluate tuple' (bindColumn f table name)

theorem evaluate_binaryExpr {left right : LogicalExpr} {op : BinaryOperator} (hand : op ≠ .and) (hor : op ≠ .or)
    (htp : ¬∃ ls rs, left = .tuple ls ∧ right = .tuple rs) : ev.evaluate tuple (.binaryExpr left op right) = (do
      let l ← ev.evaluate tuple left
      let r ← ev.evaluate tuple right
      ev.evaluateBinaryOp l op r) := by
  rw [evaluate]
  · exact hand
  · exact hor
  · intro ls rs hls hrs
    exact htp ⟨ls,rs,hls,hrs⟩

theorem bindColumn_ne_tuple (table : Option String) (name : String) (items : List LogicalExpr) :
    bindColumn f table name ≠ .tuple items := by
  rw [bindColumn]
  split <;> intro h <;> cases h

theorem bindColumns_tuple_iff (expr : LogicalExpr) (items : List LogicalExpr) :
    bindColumns f expr = .tuple items ↔ ∃ inner, expr = .tuple inner ∧ items = bindColumnsList f inner := by
  cases expr with
  | column table name =>
    refine ⟨fun h => absurd h (bindColumn_ne_tuple table name items),?_⟩
    rintro ⟨inner,h,-⟩
    cases h
  | tuple inner =>
    rw [bindColumns]
    constructor
    · intro h
      exact ⟨inner,rfl,(LogicalExpr.tuple.inj h).symm⟩
    · rintro ⟨other,h,rfl⟩
      rw [LogicalExpr.tuple.inj h]
  | _ =>
    rw [bindColumns]
    simp

theorem evaluateItems_cons_of_ne {expr : LogicalExpr} {rest : List LogicalExpr} (h : ∀ fn args, expr ≠ .scalarFunction fn args) :
    ev.evaluateItems tuple (expr::rest) = .value (ev.evaluate tuple expr) :: ev.evaluateItems tuple rest := by
  rw [evaluateItems]
  exact h

theorem bindColumns_ne_scalarFunction {expr : LogicalExpr} (h : ∀ fn args, expr ≠ .scalarFunction fn args) (fn : String)
    (args : List LogicalExpr) : bindColumns f expr ≠ .scalarFunction fn args := by
  cases expr with
  | column table name =>
    rw [bindColumns,bindColumn]
    split <;> intro h <;> cases h
  | scalarFunction fn' args' => exact absurd rfl (h fn' args')
  | _ => simp [bindColumns]

theorem compareTuples_withSchema (op : BinaryOperator) (sawNull : Bool) (pairs : List (Result × Result)) :
    (ev.withSchema schema).compareTuples op sawNull pairs = ev.compareTuples op sawNull pairs := by
  induction pairs generalizing sawNull with
  | nil => rfl
  | cons pair rest ih =>
    unfold compareTuples
    simp only [ih]
    rfl

theorem scanValues_withSchema (value : Value) (hasNull : Bool) (values : List Value) :
    (ev.withSchema schema).scanValues value hasNull values = ev.scanValues value hasNull values := by
  induction values generalizing hasNull with
  | nil => rfl
  | cons item rest ih => cases item <;> simp only [scanValues,ih] <;> rfl

theorem scanList_withSchema (value : Value) (hasNull : Bool) (list : List ListItem) :
    (ev.withSchema schema).scanList value hasNull list = ev.scanList value hasNull list := by
  induction list generalizing hasNull with
  | nil => rfl
  | cons item rest ih =>
    cases item with
    | value result =>
      simp only [scanList,ih]
      rfl
    | anyArray args =>
      simp only [scanList,ih,scanValues_withSchema]
      rfl

theorem simpleCase_withSchema (operand : Value) (whenThen : List (Result × Result)) :
    (ev.withSchema schema).simpleCase operand whenThen = ev.simpleCase operand whenThen := by
  induction whenThen with
  | nil => rfl
  | cons pair rest ih =>
    simp only [simpleCase,ih]
    rfl

theorem evaluateTupleCompare_withSchema (left : List Result) (op : BinaryOperator) (right : List Result) :
    (ev.withSchema schema).evaluateTupleCompare left op right = ev.evaluateTupleCompare left op right := by
  rw [evaluateTupleCompare,evaluateTupleCompare,compareTuples_withSchema]

theorem evaluateInList_withSchema (value : Result) (list : List ListItem) (negated : Bool) :
    (ev.withSchema schema).evaluateInList value list negated = ev.evaluateInList value list negated := by
  simp only [evaluateInList,scanList_withSchema]

theorem evaluateCase_withSchema (operand : Option Result) (whenThen : List (Result × Result)) (elseResult : Option Result) :
    (ev.withSchema schema).evaluateCase operand whenThen elseResult = ev.evaluateCase operand whenThen elseResult := by
  simp only [evaluateCase,simpleCase_withSchema]

mutual

theorem evaluate_bindColumns (hre : Resolves ev schema tuple tuple' p f) : ∀ expr, allColumns p expr = true →
    ev.evaluate tuple expr = (ev.withSchema schema).evaluate tuple' (bindColumns f expr)
  | .column table name, h => by
    rw [bindColumns]
    exact hre table name h
  | .boundColumn _ _ _, h => by cases h
  | .binaryExpr left op right, h => by
    rw [allColumns,Bool.and_eq_true] at h
    have hl := evaluate_bindColumns hre left h.1
    have hr := evaluate_bindColumns hre right h.2
    rw [bindColumns]
    by_cases hand : op = .and
    · rw [hand,evaluate,evaluate,hl,hr]
      rfl
    by_cases hor : op = .or
    · rw [hor,evaluate,evaluate,hl,hr]
      rfl
    by_cases htp : ∃ ls rs, left = .tuple ls ∧ right = .tuple rs
    · obtain ⟨ls,rs,rfl,rfl⟩ := htp
      rw [allColumns,allColumns] at h
      rw [bindColumns,bindColumns,evaluate,evaluate,evaluateAll_bindColumns hre ls h.1,evaluateAll_bindColumns hre rs h.2,
        evaluateTupleCompare_withSchema]
      all_goals assumption
    · have ht' : ¬∃ ls rs, bindColumns f left = .tuple ls ∧ bindColumns f right = .tuple rs := by
        rintro ⟨ls,rs,hls,hrs⟩
        obtain ⟨ls',hls',-⟩ := (bindColumns_tuple_iff left ls).mp hls
        obtain ⟨rs',hrs',-⟩ := (bindColumns_tuple_iff right rs).mp hrs
        exact htp ⟨ls',rs',hls',hrs'⟩
      rw [evaluate_binaryExpr hand hor htp,evaluate_binaryExpr hand hor ht',hl,hr]
      rfl
  | .unaryExpr op expr, h => by
    rw [bindColumns,evaluate,evaluate,evaluate_bindColumns hre expr h]
    rfl
  | .isNull expr isNull, h => by
    rw [bindColumns,evaluate,evaluate,evaluate_bindColumns hre expr h]
  | .cast expr dataType, h => by
    rw [bindColumns,evaluate,evaluate,evaluate_bindColumns hre expr h]
    rfl
  | .inSet expr values negated, h => by
    rw [bindColumns,evaluate,evaluate,evaluate_bindColumns hre expr h]
    rfl
  | .between expr low high negated, h => by
    rw [allColumns,Bool.and_eq_true,Bool.and_eq_true] at h
    rw [bindColumns,evaluate,evaluate,evaluate_bindColumns hre expr h.1.1,evaluate_bindColumns hre low h.1.2,
      evaluate_bindColumns hre high h.2]
    rfl
  | .inList expr list negated, h => by
    rw [allColumns,Bool.and_eq_true] at h
    rw [bindColumns,evaluate,evaluate,evaluate_bindColumns hre expr h.1,evaluateItems_bindColumns hre list h.2,
      evaluateInList_withSchema]
  | .case operand whenThen elseResult, h => by
    rw [allColumns,Bool.and_eq_true,Bool.and_eq_true] at h
    rw [bindColumns,evaluate,evaluate,evaluateOption_bindColumns hre operand h.1.1,evaluatePairs_bindColumns hre whenThen h.1.2,
      evaluateOption_bindColumns hre elseResult h.2,evaluateCase_withSchema]
  | .scalarFunction fn args, h => by
    rw [bindColumns,evaluate,evaluate,evaluateAll_bindColumns hre args h]
    rfl
  | .arraySubscript array index, h => by
    rw [allColumns,Bool.and_eq_true] at h
    rw [bindColumns,evaluate,evaluate,evaluate_bindColumns hre array h.1,evaluate_bindColumns hre index h.2]
    rfl
  | .tuple items, _ => by rw [bindColumns,evaluate,evaluate]
  | .literal value, _ => by rw [bindColumns,evaluate,evaluate]
  | .aggregateFunction fn args distinct, _ => by
    rw [bindColumns,evaluate,evaluate]
    rfl
  | .scalarSubquery subquery, _ => by rw [bindColumns,evaluate,evaluate]
  | .inSubquery expr subquery negated, _ => by rw [bindColumns,evaluate,evaluate]
  | .exists subquery negated, _ => by rw [bindColumns,evaluate,evaluate]
  | .defaultValue, _ => by rw [bindColumns,evaluate,evaluate]
  | .wildcard, _ => by rw [bindColumns,evaluate,evaluate]
  | .parameter index, _ => by
    rw [bindColumns,evaluate,evaluate]
    rfl
  | .newRow column, _ => by rw [bindColumns,evaluate,evaluate]
  | .oldRow column, _ => by rw [bindColumns,evaluate,evaluate]
  | .windowFunction fn args partitionBy orderBy, _ => by rw [bindColumns,evaluate,evaluate]

theorem evaluateAll_bindColumns (hr : Resolves ev schema tuple tuple' p f) : ∀ list, allColumnsList p list = true →
    ev.evaluateAll tuple list = (ev.withSchema schema).evaluateAll tuple' (bindColumnsList f list)
  | [], _ => by rw [bindColumnsList,evaluateAll,evaluateAll]
  | expr::rest, h => by
    rw [allColumnsList,Bool.and_eq_true] at h
    rw [bindColumnsList,evaluateAll,evaluateAll,evaluate_bindColumns hr expr h.1,evaluateAll_bindColumns hr rest h.2]

theorem evaluateItems_bindColumns (hr : Resolves ev schema tuple tuple' p f) : ∀ list, allColumnsList p list = true →
    ev.evaluateItems tuple list = (ev.withSchema schema).evaluateItems tuple' (bindColumnsList f list)
  | [], _ => by rw [bindColumnsList,evaluateItems,evaluateItems]
  | expr::rest, h => by
    rw [allColumnsList,Bool.and_eq_true] at h
    have hexpr := evaluate_bindColumns hr expr h.1
    have hrest := evaluateItems_bindColumns hr rest h.2
    rw [bindColumnsList]
    by_cases hfn : ∃ fn args, expr = .scalarFunction fn args
    · obtain ⟨fn,args,rfl⟩ := hfn
      rw [bindColumns,evaluateItems,evaluateItems,hrest,evaluateAll_bindColumns hr args h.1]
      rfl
    · have hne : ∀ fn args, expr ≠ .scalarFunction fn args := fun fn args heq => hfn ⟨fn,args,heq⟩
      rw [evaluateItems_cons_of_ne hne,evaluateItems_cons_of_ne (bindColumns_ne_scalarFunction hne),hexpr,hrest]

theorem evaluatePairs_bindColumns (hr : Resolves ev schema tuple tuple' p f) : ∀ list, allColumnsPairs p list = true →
    ev.evaluatePairs tuple list = (ev.withSchema schema).evaluatePairs tuple' (bindColumnsPairs f list)
  | [], _ => by rw [bindColumnsPairs,evaluatePairs,evaluatePairs]
  | pair::rest, h => by
    rw [allColumnsPairs,Bool.and_eq_true] at h
    rw [bindColumnsPairs,evaluatePairs,evaluatePairs,evaluatePair_bindColumns hr pair h.1,evaluatePairs_bindColumns hr rest h.2]

theorem evaluatePair_bindColumns (hr : Resolves ev schema tuple tuple' p f) : ∀ pair, allColumnsPair p pair = true →
    ev.evaluatePair tuple pair = (ev.withSchema schema).evaluatePair tuple' (bindColumnsPair f pair)
  | (first,second), h => by
    rw [allColumnsPair,Bool.and_eq_true] at h
    rw [bindColumnsPair,evaluatePair,evaluatePair,evaluate_bindColumns hr first h.1,evaluate_bindColumns hr second h.2]

theorem evaluateOption_bindColumns (hr : Resolves ev schema tuple tuple' p f) : ∀ expr, allColumnsOption p expr = true →
    ev.evaluateOption tuple expr = (ev.withSchema schema).evaluateOption tuple' (bindColumnsOption f expr)
  | none, _ => by rw [bindColumnsOption,evaluateOption,evaluateOption]
  | some expr, h => by
    rw [bindColumnsOption,evaluateOption,evaluateOption,evaluate_bindColumns hr expr h]

end

mutual

theorem bindColumns_none : ∀ expr, bindColumns (fun _ _ => none) expr = expr
  | .column table name => by rw [bindColumns,bindColumn]
  | .binaryExpr left op right => by rw [bindColumns,bindColumns_none left,bindColumns_none right]
  | .unaryExpr op expr => by rw [bindColumns,bindColumns_none expr]
  | .isNull expr isNull => by rw [bindColumns,bindColumns_none expr]
  | .cast expr dataType => by rw [bindColumns,bindColumns_none expr]
  | .inSet expr values negated => by rw [bindColumns,bindColumns_none expr]
  | .between expr low high negated => by
    rw [bindColumns,bindColumns_none expr,bindColumns_none low,bindColumns_none high]
  | .inList expr list negated => by rw [bindColumns,bindColumns_none expr,bindColumnsList_none list]
  | .case operand whenThen elseResult => by
    rw [bindColumns,bindColumnsOption_none operand,bindColumnsPairs_none whenThen,bindColumnsOption_none elseResult]
  | .scalarFunction fn args => by rw [bindColumns,bindColumnsList_none args]
  | .arraySubscript array index => by rw [bindColumns,bindColumns_none array,bindColumns_none index]
  | .tuple items => by rw [bindColumns,bindColumnsList_none items]
  | .literal _ | .aggregateFunction _ _ _ | .scalarSubquery _ | .inSubquery _ _ _ | .exists _ _ | .defaultValue
  | .wildcard | .parameter _ | .newRow _ | .oldRow _ | .windowFunction _ _ _ _ | .boundColumn _ _ _ => by rw [bindColumns]

theorem bindColumnsList_none : ∀ list, bindColumnsList (fun _ _ => none) list = list
  | [] => by rw [bindColumnsList]
  | expr::rest => by rw [bindColumnsList,bindColumns_none expr,bindColumnsList_none rest]

theorem bindColumnsPairs_none : ∀ list, bindColumnsPairs (fun _ _ => none) list = list
  | [] => by rw [bindColumnsPairs]
  | pair::rest => by rw [bindColumnsPairs,bindColumnsPair_none pair,bindColumnsPairs_none rest]

theorem bindColumnsPair_none : ∀ pair, bindColumnsPair (fun _ _ => none) pair = pair
  | (first,second) => by rw [bindColumnsPair,bindColumns_none first,bindColumns_none second]

theorem bindColumnsOption_none : ∀ expr, bindColumnsOption (fun _ _ => none) expr = expr
  | none => by rw [bindColumnsOption]
  | some expr => by rw [bindColumnsOption,bindColumns_none expr]

end

theorem evaluate_withSchema {expr : LogicalExpr} (hc : allColumns p expr = true) (hsame : ∀ table name, p table name = true →
      ev.evaluateColumn tuple table name = (ev.withSchema schema).evaluateColumn tuple' table name) :
    ev.evaluate tuple expr = (ev.withSchema schema).evaluate tuple' expr := by
  have hr : Resolves ev schema tuple tuple' p fun _ _ => none := by
    intro table name h
    rw [bindColumn,evaluate,evaluate]
    exact hsame table name h
  have h := evaluate_bindColumns hr expr hc
  rwa [bindColumns_none] at h

end
end Evaluator
end HeliosNano.Sql
