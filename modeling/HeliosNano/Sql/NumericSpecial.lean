import HeliosNano.Sql.Value

namespace HeliosNano.Sql
open Special

/-- The operators of `numeric_special::ArithOp`. -/
inductive ArithOp
  | add
  | sub
  | mul
  | div
deriving DecidableEq

/-- The decimals of `rust_decimal`. An operator panics where its checked form has no result. -/
structure DecimalCrate where
  Decimal : Type
  parse : Text → Except String Decimal
  ofInt : Int → Decimal
  value : Decimal → ℚ
  checked : ArithOp → Decimal → Decimal → Option Decimal
  display : Decimal → Text

def Special.toText : Special → Text
  | .nan => text "NaN"
  | .posInf => text "Infinity"
  | .negInf => text "-Infinity"

def Special.toValue (s : Special) : Value := .numeric s.toText

def Special.fromNeg (neg : Bool) : Special := if neg then .negInf else .posInf

def Special.isNeg (s : Special) : Bool := s = .negInf

inductive Operand
  | special (s : Special)
  | finite (neg zero : Bool)

section
variable (crate : DecimalCrate)

def arithOperand : Value → Option Operand
  | .numeric payload =>
    match specialOf payload with
    | some s => some (.special s)
    | none =>
      match crate.parse payload with
      | .ok d => some (.finite (crate.value d < 0) (crate.value d = 0))
      | .error _ => none
  | .int2 n | .int4 n | .int8 n => some (.finite (n < 0) (n = 0))
  | _ => none

/-- Only an infinity divided by zero is an error. -/
def computeSpecial (op : ArithOp) (l r : Operand) : Except SqlError Value :=
  match l, r with
  | .special .nan, _ | _, .special .nan => .ok nan.toValue
  | l, r =>
    match op with
    | .add =>
      match l, r with
      | .special a, .special b => .ok (if a = b then a else .nan).toValue
      | .special a, .finite _ _ | .finite _ _, .special a => .ok a.toValue
      | .finite _ _, .finite _ _ => .ok nan.toValue
    | .sub =>
      match l, r with
      | .special a, .special b => .ok (if a = b then .nan else a).toValue
      | .special a, .finite _ _ => .ok a.toValue
      | .finite _ _, .special b => .ok (fromNeg !b.isNeg).toValue
      | .finite _ _, .finite _ _ => .ok nan.toValue
    | .mul =>
      match l, r with
      | .special a, .special b => .ok (fromNeg (a.isNeg ^^ b.isNeg)).toValue
      | .special a, .finite neg zero | .finite neg zero, .special a =>
        .ok (if zero then .nan else fromNeg (a.isNeg ^^ neg)).toValue
      | .finite _ _, .finite _ _ => .ok nan.toValue
    | .div =>
      match l, r with
      | .special _, .special _ => .ok nan.toValue
      | .special a, .finite neg zero =>
        if zero then .error (.queryExecution "division by zero") else .ok (Special.fromNeg (a.isNeg ^^ neg)).toValue
      | .finite _ _, .special _ => .ok (.numeric (text "0"))
      | .finite _ _, .finite _ _ => .ok nan.toValue

/-- Nothing unless an operand is special and both are numbers other than floats. -/
def specialArith (op : ArithOp) (left right : Value) : Except SqlError (Option Value) :=
  if isSpecialNumeric left || isSpecialNumeric right then
    match arithOperand crate left, arithOperand crate right with
    | some l, some r => (computeSpecial op l r).map some
    | _, _ => .ok none
  else .ok none

end

end HeliosNano.Sql
