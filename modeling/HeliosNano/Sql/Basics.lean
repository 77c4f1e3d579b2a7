import Mathlib.Order.Fin.Basic

namespace HeliosNano.Sql

/-- Smallest `i64`. -/
def i64Min : Int := -9223372036854775808

/-- Largest `i64`. -/
def i64Max : Int := 9223372036854775807

/-- The integer is the value of an `i64`. -/
def IsI64 (a : Int) : Prop := i64Min ≤ a ∧ a ≤ i64Max
deriving Decidable

/-- `checked_add`. -/
def checkedAdd (a b : Int) : Option Int := if IsI64 (a+b) then some (a+b) else none

/-- The nearest `i64`, as the saturating operations compute it. -/
def saturate (a : Int) : Int := max i64Min (min i64Max a)

/-- The error kinds that the modelled SQL code raises. -/
inductive SqlError
  | queryExecution (message : String)
  | storage (message : String)
deriving DecidableEq, Repr

end HeliosNano.Sql
