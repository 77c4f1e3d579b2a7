import HeliosNano.Foundation.Kleene
import HeliosNano.Sql.Value

/-! Logical expressions and `Evaluator::evaluate`. Trigger row contexts are left out; the
operators and functions that only compute on values are taken from outside. -/
namespace HeliosNano.Sql
open Foundation Ordering

inductive DataType
  | boolean
  | int2
  | int4
  | int8
  | float4
  | float8
  | numeric
  | varchar (length : Option Nat)
  | text
  | char (length : Nat)
  | bytea
  | date
  | time
  | timestamp
  | timestamptz
  | interval
  | uuid
  | json
  | jsonb
  | array (element : DataType)
  | vector (dimension : Nat)
  | tsVector
  | tsQuery
deriving DecidableEq

inductive BinaryOperator
  | plus
  | minus
  | multiply
  | divide
  | modulo
  | eq
  | notEq
  | isDistinctFrom
  | isNotDistinctFrom
  | lt
  | ltEq
  | gt
  | gtEq
  | and
  | or
  | like
  | notLike
  | iLike
  | notILike
  | regexMatch
  | regexIMatch
  | notRegexMatch
  | notRegexIMatch
  | similarTo
  | notSimilarTo
  | vectorL2Distance
  | vectorCosineDistance
  | vectorInnerProduct
  | jsonGet
  | jsonGetText
  | jsonContains
  | jsonContainedBy
  | jsonExists
  | jsonExistsAny
  | jsonExistsAll
  | arrayConcat
  | stringConcat
  | tsMatch
  | jsonPathGet
  | jsonPathGetText
deriving DecidableEq, Repr

inductive UnaryOperator
  | not
  | minus
  | plus
deriving DecidableEq, Repr

/-- A subquery and the parts of a window call that no modelled function reads are codes. -/
inductive LogicalExpr
  | column (table : Option String) (name : String)
  | literal (value : Value)
  | binaryExpr (left : LogicalExpr) (op : BinaryOperator) (right : LogicalExpr)
  | unaryExpr (op : UnaryOperator) (expr : LogicalExpr)
  | aggregateFunction (fn : Nat) (args : List LogicalExpr) (distinct : Bool)
  | scalarFunction (fn : String) (args : List LogicalExpr)
  | case (operand : Option LogicalExpr) (whenThen : List (LogicalExpr × LogicalExpr)) (elseResult : Option LogicalExpr)
  | cast (expr : LogicalExpr) (dataType : DataType)
  | isNull (expr : LogicalExpr) (isNull : Bool)
  | between (expr low high : LogicalExpr) (negated : Bool)
  | inList (expr : LogicalExpr) (list : List LogicalExpr) (negated : Bool)
  | inSet (expr : LogicalExpr) (values : List Value) (negated : Bool)
  | scalarSubquery (subquery : Nat)
  | inSubquery (expr : LogicalExpr) (subquery : Nat) (negated : Bool)
  | exists (subquery : Nat) (negated : Bool)
  | defaultValue
  | wildcard
  | parameter (index : Nat)
  | newRow (column : String)
  | oldRow (column : String)
  | arraySubscript (array index : LogicalExpr)
  | tuple (items : List LogicalExpr)
  | windowFunction (fn : Nat) (args partitionBy : List LogicalExpr) (orderBy : List (LogicalExpr × Bool))
  | boundColumn (index : Nat) (table : Option String) (name : String)

structure Column where
  name : String
  dataType : DataType
  sourceTable : Option String
  sourceTableName : Option String
deriving DecidableEq

abbrev Schema := List Column

def Schema.getColumnIndex (s : Schema) (name : String) : Option Nat := s.findIdx? fun column => column.name = name

/-- A column of the qualifier as an alias wins over one of the table of that name. -/
def Schema.getQualifiedColumnIndex (s : Schema) (table : Option String) (name : String) : Option Nat :=
  match table with
  | none => s.getColumnIndex name
  | some tableName =>
    match s.findIdx? fun column => column.name = name ∧ column.sourceTable = some tableName with
    | some index => some index
    | none => s.findIdx? fun column => column.name = name ∧ column.sourceTableName = some tableName

def Schema.merge (s other : Schema) : Schema := s ++ other

abbrev Tuple := List Value

abbrev Result := Except SqlError Value

/-- An evaluator: its schema and parameters, and the operators that only compute on values. -/
structure Evaluator where
  schema : Schema
  parameters : List Value
  conversions : Conversions
  binary : BinaryOperator → Value → Value → Result
  unary : UnaryOperator → Value → Result
  function : String → List Value → Result
  castValue : Value → DataType → Result
  subscript : Value → Value → Result
  arrayElements : Value → Option (List Value)
  debugExpr : LogicalExpr → String

def queryError (message : String) : Result := .error (.queryExecution message)

def anyArrayMarkerFunction : String := "__hdb_any_array"

namespace Evaluator
variable (ev : Evaluator)

def notBoolean (value : Value) : Result :=
  queryError ("Cannot convert " ++ ev.conversions.debug value ++ " to boolean")

/-- The right side is evaluated only when the left one does not decide. -/
def andShortCircuit (left right : Result) : Result := do
  match ← left with
  | .boolean false => .ok (.boolean false)
  | .boolean true =>
    match ← right with
    | .boolean b => .ok (.boolean b)
    | .null => .ok .null
    | value => ev.notBoolean value
  | .null =>
    match ← right with
    | .boolean false => .ok (.boolean false)
    | .boolean true | .null => .ok .null
    | value => ev.notBoolean value
  | value => ev.notBoolean value

def orShortCircuit (left right : Result) : Result := do
  match ← left with
  | .boolean true => .ok (.boolean true)
  | .boolean false =>
    match ← right with
    | .boolean b => .ok (.boolean b)
    | .null => .ok .null
    | value => ev.notBoolean value
  | .null =>
    match ← right with
    | .boolean true => .ok (.boolean true)
    | .boolean false | .null => .ok .null
    | value => ev.notBoolean value
  | value => ev.notBoolean value

def evaluateIsDistinctFrom (left right : Value) (distinct : Bool) : Result :=
  let isDistinct := match left, right with
    | .null, .null => false
    | .null, _ | _, .null => true
    | _, _ => !valuesEqual ev.conversions left right
  .ok (.boolean (if distinct then isDistinct else !isDistinct))

def evaluateBinaryOp (left : Value) (op : BinaryOperator) (right : Value) : Result :=
  match op with
  | .eq => compareValues ev.conversions left right isEq
  | .notEq => compareValues ev.conversions left right isNe
  | .isDistinctFrom => ev.evaluateIsDistinctFrom left right true
  | .isNotDistinctFrom => ev.evaluateIsDistinctFrom left right false
  | .lt => compareValues ev.conversions left right isLT
  | .ltEq => compareValues ev.conversions left right isLE
  | .gt => compareValues ev.conversions left right isGT
  | .gtEq => compareValues ev.conversions left right isGE
  | op => ev.binary op left right

def evaluateUnaryOp (op : UnaryOperator) (value : Value) : Result :=
  match op with
  | .not =>
    match value with
    | .null => .ok .null
    | .boolean b => .ok (.boolean !b)
    | value => ev.notBoolean value
  | op => ev.unary op value

def opName (op : BinaryOperator) : String := reprStr op

/-- A row comparison after its first pair that is not equal. -/
def decideTuple (op : BinaryOperator) (left right : Value) : Result :=
  match op with
  | .eq => .ok (.boolean false)
  | .notEq => .ok (.boolean true)
  | .lt | .ltEq => compareValues ev.conversions left right isLT
  | .gt | .gtEq => compareValues ev.conversions left right isGT
  | op => queryError ("Operator " ++ opName op ++ " not supported on row constructors")

/-- The pairs of a row comparison. A NULL pair ends an ordering; an equality goes on. -/
def compareTuples (op : BinaryOperator) (sawNull : Bool) : List (Result × Result) → Result
  | [] =>
    if sawNull then .ok .null
    else match op with
      | .eq | .ltEq | .gtEq => .ok (.boolean true)
      | .notEq | .lt | .gt => .ok (.boolean false)
      | op => queryError ("Operator " ++ opName op ++ " not supported on row constructors")
  | (left,right)::rest => do
    let l ← left
    let r ← right
    if l = .null ∨ r = .null then
      match op with
      | .lt | .ltEq | .gt | .gtEq => .ok .null
      | _ => compareTuples op true rest
    else
      let equal ← compareValues ev.conversions l r isEq
      if equal = .boolean true then compareTuples op sawNull rest else ev.decideTuple op l r

def evaluateTupleCompare (left : List Result) (op : BinaryOperator) (right : List Result) : Result :=
  if left.length ≠ right.length then
    queryError ("Row constructor size mismatch: " ++ toString left.length ++ " vs " ++ toString right.length)
  else ev.compareTuples op false (left.zip right)

/-- An item of an IN list: a value, or the argument of the array marker. -/
inductive ListItem
  | value (result : Result)
  | anyArray (args : List Result)

/-- Membership among values: whether one is equal, and whether NULL came before it. -/
def scanValues (value : Value) (hasNull : Bool) : List Value → Bool × Bool
  | [] => (false,hasNull)
  | .null::rest => scanValues value true rest
  | item::rest => if valuesEqual ev.conversions value item then (true,hasNull) else scanValues value hasNull rest

def scanList (value : Value) (hasNull : Bool) : List ListItem → Except SqlError (Bool × Bool)
  | [] => .ok (false,hasNull)
  | .value result :: rest => do
    let item ← result
    if item = .null then scanList value true rest
    else if valuesEqual ev.conversions value item then .ok (true,hasNull)
    else scanList value hasNull rest
  | .anyArray args :: rest =>
    match args with
    | [arg] => do
      let arrayValue ← arg
      match ev.arrayElements arrayValue with
      | some values =>
        let (found,hasNull) := ev.scanValues value hasNull values
        if found then .ok (true,hasNull) else scanList value hasNull rest
      | none =>
        if arrayValue = .null then scanList value true rest
        else .error (.queryExecution ("ANY expects an array expression, got " ++ ev.conversions.debug arrayValue))
    | _ => .error (.queryExecution "ANY array marker expects one argument")

def evaluateInList (value : Result) (list : List ListItem) (negated : Bool) : Result := do
  let value ← value
  if value = .null then .ok .null
  else
    let (found,hasNull) ← ev.scanList value false list
    if found then .ok (.boolean !negated) else if hasNull then .ok .null else .ok (.boolean negated)

def evaluateInSet (value : Result) (values : List Value) (negated : Bool) : Result := do
  let value ← value
  if value = .null then .ok .null
  else
    let found := values.any (valuesEqual ev.conversions value)
    .ok (.boolean (if negated then !found else found))

def evaluateBetween (value low high : Result) (negated : Bool) : Result := do
  let value ← value
  let low ← low
  let high ← high
  if value = .null ∨ low = .null ∨ high = .null then .ok .null
  else
    let gteLow ← compareValues ev.conversions value low isGE
    let lteHigh ← compareValues ev.conversions value high isLE
    let inRange := decide (gteLow = .boolean true ∧ lteHigh = .boolean true)
    .ok (.boolean (if negated then !inRange else inRange))

/-- The branch of a simple CASE; `none` when no value is equal. -/
def simpleCase (operand : Value) : List (Result × Result) → Option Result
  | [] => none
  | (whenValue,result)::rest =>
    match whenValue with
    | .error e => some (.error e)
    | .ok value => if valuesEqual ev.conversions operand value then some result else simpleCase operand rest

def searchedCase : List (Result × Result) → Option Result
  | [] => none
  | (condition,result)::rest =>
    match condition with
    | .error e => some (.error e)
    | .ok value => if value = .boolean true then some result else searchedCase rest

def evaluateCase (operand : Option Result) (whenThen : List (Result × Result)) (elseResult : Option Result) : Result := do
  let branch ← match operand with
    | some operand => do
      let value ← operand
      pure (ev.simpleCase value whenThen)
    | none => pure (searchedCase whenThen)
  match branch with
  | some result => result
  | none => elseResult.getD (.ok .null)

def evaluateColumn (tuple : Tuple) (table : Option String) (name : String) : Result :=
  match ev.schema.getQualifiedColumnIndex table name with
  | none =>
    queryError ("Column '" ++ (match table with
      | some t => t ++ "." ++ name
      | none => name) ++ "' not found in schema")
  | some index =>
    match tuple[index]? with
    | some value => .ok value
    | none => queryError ("Column index " ++ toString index ++ " out of bounds in tuple")

def evaluateParameter (index : Nat) : Result :=
  if index = 0 then queryError "Parameter indices must be 1-based (e.g., $1, $2)"
  else match ev.parameters[index-1]? with
    | some value => .ok value
    | none =>
      queryError ("Parameter $" ++ toString index ++ " not provided. Expected " ++ toString index ++
        " parameters, got " ++ toString ev.parameters.length)

/-- All arguments are evaluated first. -/
def callFunction (fn : String) (args : List Result) : Result := do
  let values ← args.mapM id
  ev.function fn values

mutual

def evaluate (tuple : Tuple) : LogicalExpr → Result
  | .literal value => .ok value
  | .parameter index => ev.evaluateParameter index
  | .column table name => ev.evaluateColumn tuple table name
  | .boundColumn index _ _ =>
    match tuple[index]? with
    | some value => .ok value
    | none => queryError ("Column index " ++ toString index ++ " out of bounds in tuple")
  | .binaryExpr left op right =>
    match op with
    | .and => ev.andShortCircuit (evaluate tuple left) (evaluate tuple right)
    | .or => ev.orShortCircuit (evaluate tuple left) (evaluate tuple right)
    | op =>
      match left, right with
      | .tuple ls, .tuple rs => ev.evaluateTupleCompare (evaluateAll tuple ls) op (evaluateAll tuple rs)
      | left, right => do
        let l ← evaluate tuple left
        let r ← evaluate tuple right
        ev.evaluateBinaryOp l op r
  | .tuple _ => queryError "Row constructor used outside a comparison — expected (a, b) <op> (c, d)"
  | .unaryExpr op expr => do
    let value ← evaluate tuple expr
    ev.evaluateUnaryOp op value
  | .isNull expr isNull => do
    let value ← evaluate tuple expr
    .ok (.boolean (decide (value = .null) == isNull))
  | .scalarFunction fn args => ev.callFunction fn (evaluateAll tuple args)
  | .cast expr dataType => do
    let value ← evaluate tuple expr
    ev.castValue value dataType
  | .wildcard => queryError "Wildcard expressions should be expanded before evaluation"
  | .newRow _ => queryError "NEW is only valid in trigger context"
  | .oldRow _ => queryError "OLD is only valid in trigger context"
  | .arraySubscript array index => do
    let arrayValue ← evaluate tuple array
    let indexValue ← evaluate tuple index
    ev.subscript arrayValue indexValue
  | .inList expr list negated => ev.evaluateInList (evaluate tuple expr) (evaluateItems tuple list) negated
  | .inSet expr values negated => ev.evaluateInSet (evaluate tuple expr) values negated
  | .inSubquery _ _ _ =>
    queryError "IN subquery evaluation requires executor context. Use executor for subquery evaluation."
  | .defaultValue => queryError "DEFAULT keyword is only valid inside INSERT … VALUES (…)"
  | .scalarSubquery _ =>
    queryError ("Scalar subquery reached the evaluator without materialisation. Correlated subqueries are only " ++
      "supported in UPDATE SET at the moment; rewrite other uses as UPDATE … FROM joins or plain SELECT expressions.")
  | .exists _ _ =>
    queryError "EXISTS subquery evaluation requires executor context. Use executor for subquery evaluation."
  | .between expr low high negated =>
    ev.evaluateBetween (evaluate tuple expr) (evaluate tuple low) (evaluate tuple high) negated
  | .case operand whenThen elseResult =>
    ev.evaluateCase (evaluateOption tuple operand) (evaluatePairs tuple whenThen) (evaluateOption tuple elseResult)
  | .windowFunction _ _ _ _ => queryError "Window functions must be evaluated by WindowOperator, not row-by-row"
  | .aggregateFunction fn args distinct =>
    queryError ("Expression not yet implemented: " ++ ev.debugExpr (.aggregateFunction fn args distinct))

/-- The results of expressions; a caller that stops early never looks at the later ones. -/
def evaluateAll (tuple : Tuple) : List LogicalExpr → List Result
  | [] => []
  | expr::rest => evaluate tuple expr :: evaluateAll tuple rest

def evaluateItems (tuple : Tuple) : List LogicalExpr → List ListItem
  | [] => []
  | .scalarFunction fn args :: rest =>
    let results := evaluateAll tuple args
    (if fn = anyArrayMarkerFunction then .anyArray results else .value (ev.callFunction fn results)) ::
      evaluateItems tuple rest
  | expr::rest => .value (evaluate tuple expr) :: evaluateItems tuple rest

def evaluatePairs (tuple : Tuple) : List (LogicalExpr × LogicalExpr) → List (Result × Result)
  | [] => []
  | pair::rest => evaluatePair tuple pair :: evaluatePairs tuple rest

def evaluatePair (tuple : Tuple) : LogicalExpr × LogicalExpr → Result × Result
  | (first,second) => (evaluate tuple first,evaluate tuple second)

def evaluateOption (tuple : Tuple) : Option LogicalExpr → Option Result
  | none => none
  | some expr => some (evaluate tuple expr)

end

end Evaluator

/-! An evaluator for texts of digits with a decimal point, where every operator that is not
modelled fails. -/

def digitsText (s : Text) : Option ℚ :=
  let whole := s.takeWhile (· ≠ '.')
  let fraction := (s.dropWhile (· ≠ '.')).drop 1
  let digits := whole ++ fraction
  if digits = [] ∨ digits.any (fun c => !c.isDigit) then none
  else some (mkRat (digits.foldl (fun acc c => acc*10+(c.toNat-48 : Nat)) 0) (10^fraction.length))

def bareConversions : Conversions where
  parseDecimal := digitsText
  parseUuid _ := none
  parseTimestamp _ := none
  parseDate _ := none
  timestampText nanos := intText nanos
  dateText days := intText days
  debug _ := "value"
  floatRank _ := none
  compareOther _ _ := .error (.queryExecution "Cannot compare")
  equalOther _ _ := false

def Evaluator.bare (schema : Schema) : Evaluator where
  schema := schema
  parameters := []
  conversions := bareConversions
  binary op _ _ := queryError (Evaluator.opName op)
  unary _ _ := queryError "Unsupported unary operator"
  function fn _ := queryError ("Unknown function: " ++ fn)
  castValue _ _ := queryError "Cannot cast"
  subscript _ _ := queryError "Cannot subscript"
  arrayElements _ := none
  debugExpr _ := "expression"

end HeliosNano.Sql
