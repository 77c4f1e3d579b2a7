import HeliosNano.Foundation.Octets
import Mathlib.Data.List.Lex
import Mathlib.Order.Fin.Basic

namespace HeliosNano.Storage

abbrev Byte := Fin 256
abbrev Bytes := List Byte
abbrev Key := Bytes
abbrev TxnId := Nat
abbrev RowId := Nat
abbrev Timestamp := Nat

/-- Largest `u32`; adding one to it is an overflow panic. -/
def u32Max : Nat := 4294967295

/-- Largest `u64`. -/
def u64Max : Nat := 18446744073709551615

/-- The error kinds that the modelled storage code raises. -/
inductive Error
  | storage (message : String)
  | transaction (message : String)
  | internal (message : String)
  | writeConflict (table row : String) (holderTxn waiterTxn : TxnId) (waitedMs : Nat)
deriving DecidableEq, Repr

def Error.display : Error → String
  | storage message => "Storage error: " ++ message
  | transaction message => "Transaction error: " ++ message
  | internal message => "Internal error: " ++ message
  | writeConflict table row holderTxn waiterTxn waitedMs =>
    "serialization failure: write-write conflict on " ++ table ++ " row " ++ row ++ " (held by transaction " ++
      toString holderTxn ++ ", waiter " ++ toString waiterTxn ++ " timed out after " ++ toString waitedMs ++
      "ms); retry the transaction"

/-- `Error::deadlock` is a transaction error with a fixed lead. -/
def Error.deadlock (message : String) : Error := .transaction ("Deadlock: " ++ message)

section
variable {α β ε ε' : Type}

theorem bind_eq_ok {x : Except ε α} {f : α → Except ε β} {b : β} : (x >>= f) = .ok b ↔ ∃ a, x = .ok a ∧ f a = .ok b := by
  cases x <;> simp [bind,Except.bind]

theorem mapError_eq_ok {x : Except ε α} {f : ε → ε'} {a : α} : x.mapError f = .ok a ↔ x = .ok a := by
  cases x <;> simp [Except.mapError]

end
end HeliosNano.Storage
