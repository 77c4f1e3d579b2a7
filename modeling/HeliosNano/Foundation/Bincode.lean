import HeliosNano.Foundation.Decimal
import HeliosNano.Foundation.Utf8
import Mathlib.Data.UInt

/-! A binary format that does not describe itself: integers of a fixed width with the least byte first, one byte for a
flag, strings after their length. A reader takes its value from the front of the input and leaves the rest. -/
namespace HeliosNano.Foundation.Bincode
open List

abbrev Reader (α : Type) := StateT (List (Fin 256)) Option α

def leBytes (width n : Nat) : List (Fin 256) := (beBytes width n).reverse

def leValue (bytes : List (Fin 256)) : Nat := beValue bytes.reverse

def take (n : Nat) : Reader (List (Fin 256)) := fun bytes =>
  if n ≤ bytes.length then some (bytes.take n,bytes.drop n) else none

def u64 : Reader UInt64 := do
  let bytes ← take 8
  return UInt64.ofNat (leValue bytes)

def i64 : Reader Int64 := do
  let n ← u64
  return n.toInt64

/-- What a byte says as a flag; only two bytes say anything. -/
def flagOf : List (Fin 256) → Option Bool
  | [0] => some false
  | [1] => some true
  | _ => none

def bool : Reader Bool := do
  let bytes ← take 1
  StateT.lift (flagOf bytes)

def string : Reader (List (Fin 256)) := do
  let length ← u64
  let text ← take length.toNat
  if (fromUtf8 text).isSome then return text else failure

/-- Bytes after the value are allowed. -/
def decode {α : Type} (r : Reader α) (bytes : List (Fin 256)) : Option α := (r bytes).map Prod.fst

def encodeU64 (n : UInt64) : List (Fin 256) := leBytes 8 n.toNat

def encodeI64 (n : Int64) : List (Fin 256) := encodeU64 n.toUInt64

def encodeBool (b : Bool) : List (Fin 256) := [if b then 1 else 0]

def encodeString (text : List (Fin 256)) : List (Fin 256) := encodeU64 (UInt64.ofNat text.length) ++ text

variable {α β : Type}

/-- On input that starts with the encoding the reader gives the value and leaves what follows. -/
def Reads (r : Reader α) (a : α) (encoded : List (Fin 256)) : Prop := ∀ rest, r (encoded ++ rest) = some (a,rest)

variable {a : α} {encoded : List (Fin 256)} {x : Reader α} {bytes : List (Fin 256)}

theorem Reads.decode_eq {r : Reader α} (h : Reads r a encoded) : decode r encoded = some a := by
  have hr := h []
  rw [append_nil] at hr
  rw [decode,hr]
  rfl

theorem Reads.run_bind (h : Reads x a encoded) (f : α → Reader β)
    (rest : List (Fin 256)) : (x >>= f) (encoded ++ rest) = f a rest := by
  change (x (encoded ++ rest)).bind (fun p => f p.1 p.2) = f a rest
  rw [h rest,Option.bind_some]

theorem Reads.bind {f : α → Reader β} {b : β} {first second : List (Fin 256)}
    (hx : Reads x a first) (hf : Reads (f a) b second) : Reads (x >>= f) b (first ++ second) := by
  intro rest
  rw [append_assoc,hx.run_bind f]
  exact hf rest

theorem Reads.bind_pure (h : Reads x a encoded) (g : α → β) : Reads (x >>= fun a => pure (g a)) (g a) encoded := by
  intro rest
  rw [h.run_bind]
  rfl

theorem reads_take {n : Nat} (h : bytes.length = n) : Reads (take n) bytes bytes := by
  subst h
  intro rest
  rw [take,if_pos (by simp),take_left,drop_left]

theorem length_leBytes (width n : Nat) : (leBytes width n).length = width := by
  rw [leBytes,length_reverse,length_beBytes]

theorem leValue_leBytes {width n : Nat} (h : n < 256^width) : leValue (leBytes width n) = n := by
  rw [leValue,leBytes,reverse_reverse,beValue_beBytes h]

theorem reads_u64_of_length (h : bytes.length = 8) : Reads u64 (UInt64.ofNat (leValue bytes)) bytes :=
  (reads_take h).bind_pure fun bytes => UInt64.ofNat (leValue bytes)

theorem reads_u64 (n : UInt64) : Reads u64 n (encodeU64 n) := by
  have hlt : n.toNat < 256^8 := n.toNat_lt
  have hr := reads_u64_of_length (length_leBytes 8 n.toNat)
  rw [leValue_leBytes hlt,UInt64.ofNat_toNat] at hr
  exact hr

theorem reads_i64_of_length (h : bytes.length = 8) : Reads i64 (UInt64.ofNat (leValue bytes)).toInt64 bytes :=
  (reads_u64_of_length h).bind_pure UInt64.toInt64

theorem reads_i64 (n : Int64) : Reads i64 n (encodeI64 n) := by
  have hr := (reads_u64 n.toUInt64).bind_pure UInt64.toInt64
  rwa [Int64.toInt64_toUInt64] at hr

theorem reads_bool (b : Bool) : Reads bool b (encodeBool b) := by
  intro rest
  rw [bool,(reads_take (show (encodeBool b).length = 1 from rfl)).run_bind]
  cases b <;> rfl

theorem bool_eq_none {b : Fin 256} (h : 2 ≤ b.val) (rest : List (Fin 256)) : bool (b::rest) = none := by
  have hf : flagOf [b] = none := by
    unfold flagOf
    split
    next heq =>
      cases heq
      exact absurd h (by decide)
    next heq =>
      cases heq
      exact absurd h (by decide)
    · rfl
  have hrd : Reads (take 1) [b] [b] := reads_take rfl
  have hr := hrd.run_bind (fun bytes => (StateT.lift (flagOf bytes) : Reader Bool)) rest
  rw [hf] at hr
  exact hr

theorem reads_string {text : List (Fin 256)} (h : IsUtf8 text) (hl : text.length < 2^64) :
    Reads string text (encodeString text) := by
  have hs : (UInt64.ofNat text.length).toNat = text.length := by
    rw [UInt64.toNat_ofNat']
    exact Nat.mod_eq_of_lt hl
  intro rest
  rw [string,encodeString,append_assoc,(reads_u64 _).run_bind,(reads_take hs.symm).run_bind,
    if_pos ((isSome_fromUtf8 text).mpr h)]
  rfl

end HeliosNano.Foundation.Bincode
