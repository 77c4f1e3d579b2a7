import HeliosNano.Sql.Expr
import HeliosNano.Sql.NumericSpecial

/-! The arithmetic of the evaluator. The crate is built with overflow checks: an unchecked
operator that leaves its type panics, and so do those of the decimal and calendar crates. -/
namespace HeliosNano.Sql

/-- How a call can end without a value. -/
inductive Failure
  | error (e : SqlError)
  | panic
deriving DecidableEq

abbrev Outcome (α : Type) := Except Failure α

def raise {α : Type} (message : String) : Outcome α := .error (.error (.queryExecution message))

def Outcome.ofResult {α : Type} (r : Except SqlError α) : Outcome α := r.mapError .error

def IsI16 (n : Int) : Prop := -32768 ≤ n ∧ n ≤ 32767

def IsI32 (n : Int) : Prop := -2147483648 ≤ n ∧ n ≤ 2147483647

instance (n : Int) : Decidable (IsI16 n) := inferInstanceAs (Decidable (_ ∧ _))
instance (n : Int) : Decidable (IsI32 n) := inferInstanceAs (Decidable (_ ∧ _))

def Value.WellTyped : Value → Prop
  | .int2 n => IsI16 n
  | .int4 n => IsI32 n
  | .int8 n => IsI64 n
  | _ => True

def ArithOp.exact : ArithOp → Int → Int → Int
  | .add, a, b => a+b
  | .sub, a, b => a-b
  | .mul, a, b => a*b
  | .div, a, b => a.tdiv b

def ArithOp.unchecked (op : ArithOp) (InType : Int → Prop) [DecidablePred InType] (a b : Int) : Outcome Int :=
  if op = .div ∧ b = 0 then .error .panic
  else if InType (op.exact a b) then .ok (op.exact a b)
  else .error .panic

def ArithOp.checked (op : ArithOp) (InType : Int → Prop) [DecidablePred InType] (a b : Int) : Option Int :=
  if op = .div ∧ b = 0 then none
  else if InType (op.exact a b) then some (op.exact a b)
  else none

def ArithOp.noun : ArithOp → String
  | .add => "addition"
  | .sub => "subtraction"
  | .mul => "multiplication"
  | .div => "division"

def ArithOp.verb : ArithOp → String
  | .add => "add"
  | .sub => "subtract"
  | .mul => "multiply"
  | .div => "divide"

/-- The arms for two integers: within `i32`, within `i64`, or checked. -/
inductive IntArm
  | narrow16
  | narrow32
  | checked64
deriving DecidableEq

def intArm : Value → Value → Option (IntArm × Int × Int)
  | .int2 a, .int2 b => some (.narrow16,a,b)
  | .int4 a, .int4 b | .int2 a, .int4 b | .int4 a, .int2 b => some (.narrow32,a,b)
  | .int8 a, .int8 b | .int4 a, .int8 b | .int8 a, .int4 b => some (.checked64,a,b)
  | .int2 a, .int8 b | .int8 a, .int2 b => some (.checked64,a,b)
  | _, _ => none

/-- A narrow result keeps the type of its operands where it fits. -/
def ArithOp.onIntegers (op : ArithOp) (arm : IntArm) (a b : Int) : Outcome Value :=
  match arm with
  | .narrow16 => do
    let result ← op.unchecked IsI32 a b
    return if IsI16 result then .int2 result else .int4 result
  | .narrow32 => do
    let result ← op.unchecked IsI64 a b
    return if IsI32 result then .int4 result else .int8 result
  | .checked64 =>
    match op.checked IsI64 a b with
    | some result => .ok (.int8 result)
    | none => raise ("integer overflow: BIGINT " ++ op.noun)

/-- What arithmetic takes from outside: decimals, the ranges of the calendar, which codes are
intervals (of microseconds), and floats, whose operators never panic. -/
structure Arithmetic where
  crate : DecimalCrate
  debug : Value → String
  timestampInRange : Int → Bool
  dateInRange : Int → Bool
  interval : Nat → Option Int
  ofInterval : Int → Nat
  floatArith : ArithOp → Value → Value → Option Result
  floatIsZero : Nat → Bool
  floatNegate : Nat → Option Nat

namespace Arithmetic
variable (ar : Arithmetic)

def parseNumeric (payload : Text) : Outcome ar.crate.Decimal :=
  match ar.crate.parse payload with
  | .ok d => .ok d
  | .error e => raise ("Invalid numeric value '" ++ String.ofList payload ++ "': " ++ e)

/-- The arms with a `NUMERIC`. -/
def decimalArm : Value → Value → Option (Outcome ar.crate.Decimal × Outcome ar.crate.Decimal)
  | .numeric a, .numeric b => some (ar.parseNumeric a,ar.parseNumeric b)
  | .numeric a, .int4 b | .numeric a, .int8 b => some (ar.parseNumeric a,.ok (ar.crate.ofInt b))
  | .int4 a, .numeric b | .int8 a, .numeric b => some (.ok (ar.crate.ofInt a),ar.parseNumeric b)
  | _, _ => none

def onDecimals (op : ArithOp) (a b : ar.crate.Decimal) : Outcome Value :=
  match ar.crate.checked op a b with
  | some d => .ok (.numeric (ar.crate.display d))
  | none => .error .panic

def shiftTimestamp (nanos micros : Int) : Outcome Value :=
  if ar.timestampInRange (nanos+micros*1000) then .ok (.timestamp (nanos+micros*1000)) else .error .panic

def shiftDate (date days : Int) : Outcome Value :=
  if ar.dateInRange (date+days) then .ok (.date (date+days)) else .error .panic

def microsPerDay : Int := 86400000000

def intervalOfMicros (result : Int) : Outcome Value :=
  if IsI64 result then .ok (.other (ar.ofInterval result)) else raise "interval out of range"

def temporalAdd : Value → Value → Option (Outcome Value)
  | .timestamp ts, .other i | .other i, .timestamp ts => (ar.interval i).map fun micros => ar.shiftTimestamp ts micros
  | .date d, .other i | .other i, .date d => (ar.interval i).map fun micros => ar.shiftDate d (micros.tdiv microsPerDay)
  | .other i, .other j =>
    match ar.interval i, ar.interval j with
    | some a, some b => some (ar.intervalOfMicros (a+b))
    | _, _ => none
  | _, _ => none

/-- A difference of timestamps that no interval can hold counts as zero. -/
def temporalSubtract : Value → Value → Option (Outcome Value)
  | .timestamp ts, .other i => (ar.interval i).map fun micros => ar.shiftTimestamp ts (-micros)
  | .date d, .other i => (ar.interval i).map fun micros => ar.shiftDate d (-(micros.tdiv microsPerDay))
  | .timestamp a, .timestamp b =>
    let micros := (a-b).tdiv 1000
    some (.ok (.other (ar.ofInterval (if IsI64 micros then micros else 0))))
  | .date a, .date b => some do
    let micros ← ArithOp.mul.unchecked IsI64 (a-b) microsPerDay
    return .other (ar.ofInterval micros)
  | .other i, .other j =>
    match ar.interval i, ar.interval j with
    | some a, some b => some (ar.intervalOfMicros (a-b))
    | _, _ => none
  | _, _ => none

/-- The shape of the four operators; they differ in the arms for times. -/
def arithmetic (op : ArithOp) (temporal : Value → Value → Option (Outcome Value)) (left right : Value) : Outcome Value :=
  if left = .null ∨ right = .null then .ok .null
  else
    match specialArith ar.crate op left right with
    | .error e => .error (.error e)
    | .ok (some v) => .ok v
    | .ok none =>
      match intArm left right with
      | some (arm,a,b) => op.onIntegers arm a b
      | none =>
        match ar.decimalArm left right with
        | some (a,b) => do
          let x ← a
          let y ← b
          ar.onDecimals op x y
        | none =>
          match temporal left right with
          | some outcome => outcome
          | none =>
            match ar.floatArith op left right with
            | some r => Outcome.ofResult r
            | none => raise ("Cannot " ++ op.verb ++ " " ++ ar.debug left ++ " and " ++ ar.debug right)

def arithmeticAdd : Value → Value → Outcome Value := ar.arithmetic .add ar.temporalAdd
def arithmeticSubtract : Value → Value → Outcome Value := ar.arithmetic .sub ar.temporalSubtract
def arithmeticMultiply : Value → Value → Outcome Value := ar.arithmetic .mul fun _ _ => none
def arithmeticDivide : Value → Value → Outcome Value := ar.arithmetic .div fun _ _ => none

def isZero : Value → Bool
  | .int2 n | .int4 n | .int8 n => n = 0
  | .numeric payload =>
    match ar.crate.parse payload with
    | .ok d => ar.crate.value d = 0
    | .error _ => false
  | .other code => ar.floatIsZero code
  | _ => false

def remainder (InType : Int → Prop) [DecidablePred InType] (wrap : Int → Value) (typeName : String) (a b : Int) :
    Outcome Value :=
  if b = 0 then raise "Division by zero"
  -- `checked_rem` fails where the quotient would leave the type
  else if InType (a.tdiv b) then .ok (wrap (a.tmod b))
  else raise ("integer overflow: " ++ typeName ++ " modulo")

def arithmeticModulo (left right : Value) : Outcome Value :=
  if left = .null ∨ right = .null then .ok .null
  else match left, right with
    | .int2 a, .int2 b => remainder IsI16 .int2 "SMALLINT" a b
    | .int4 a, .int4 b => remainder IsI32 .int4 "INT" a b
    | .int8 a, .int8 b | .int4 a, .int8 b | .int8 a, .int4 b => remainder IsI64 .int8 "BIGINT" a b
    | left, right => raise ("Modulo requires integer operands, got " ++ ar.debug left ++ " % " ++ ar.debug right)

inductive Operator
  | plus
  | minus
  | multiply
  | divide
  | modulo
deriving DecidableEq

/-- The arithmetic arms of `evaluate_binary_op`. -/
def evaluateBinaryOp (left : Value) (op : Operator) (right : Value) : Outcome Value :=
  match op with
  | .plus => ar.arithmeticAdd left right
  | .minus => ar.arithmeticSubtract left right
  | .multiply => ar.arithmeticMultiply left right
  | .divide =>
    if left = .null ∨ right = .null then .ok .null
    else if ar.isZero right then raise "Division by zero"
    else ar.arithmeticDivide left right
  | .modulo => ar.arithmeticModulo left right

/-- `checked_neg`. -/
def negate (InType : Int → Prop) [DecidablePred InType] (wrap : Int → Value) (typeName : String) (n : Int) :
    Outcome Value :=
  if InType (-n) then .ok (wrap (-n)) else raise ("integer overflow: " ++ typeName ++ " negation")

def toBoolean (value : Value) : Outcome Bool :=
  match value with
  | .boolean b => .ok b
  | .null => .ok false
  | value => raise ("Cannot convert " ++ ar.debug value ++ " to boolean")

def evaluateUnaryOp (op : UnaryOperator) (value : Value) : Outcome Value :=
  match op with
  | .not =>
    if value = .null then .ok .null
    else do
      let b ← ar.toBoolean value
      return .boolean !b
  | .minus =>
    match value with
    | .int2 n => negate IsI16 .int2 "SMALLINT" n
    | .int4 n => negate IsI32 .int4 "INT" n
    | .int8 n => negate IsI64 .int8 "BIGINT" n
    | .numeric payload =>
      .ok (.numeric (if payload = Special.nan.toText then payload
        else match payload with
          | '-' :: rest => rest
          | payload => '-' :: payload))
    | .other code =>
      match ar.floatNegate code with
      | some negated => .ok (.other negated)
      | none => raise ("Cannot apply unary minus to " ++ ar.debug value)
    | value => raise ("Cannot apply unary minus to " ++ ar.debug value)
  | .plus => raise "Unary operator not yet implemented: Plus"

end Arithmetic
end HeliosNano.Sql
