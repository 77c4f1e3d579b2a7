import HeliosNano.Foundation.Octets
import HeliosNano.Foundation.OrderedStore
import Mathlib.Algebra.Order.Group.Nat
import Mathlib.Data.List.Induction

namespace HeliosNano.Foundation
open List Option

def lastDigit (n : Nat) : Fin 256 := Fin.ofNat 256 (48+n%10)

def isDigit (b : Fin 256) : Bool := decide (48 ≤ b.val) && decide (b.val ≤ 57)

/-- The last places of a numeral, with leading zeros. -/
def padded : Nat → Nat → List (Fin 256)
  | 0, _ => []
  | width+1, n => padded width (n/10) ++ [lastDigit n]

/-- A numeral without leading zeros. -/
def decimal (n : Nat) : List (Fin 256) :=
  if n < 10 then [lastDigit n] else decimal (n/10) ++ [lastDigit n]
termination_by n
decreasing_by omega

variable (bytes : List (Fin 256))

def digitsValue : Nat :=
  bytes.foldl (fun value b => value*10+(b.val-48)) 0

/-- An unsigned numeral up to a maximum: digits, with an optional plus sign. -/
def parseUnsigned (max : Nat) (bytes : List (Fin 256)) : Option Nat :=
  let digits := match bytes with
    | b::rest => if b.val = 43 then rest else bytes
    | [] => []
  if digits ≠ [] ∧ digits.all isDigit = true ∧ digitsValue digits ≤ max then some (digitsValue digits) else none

/-- The last bytes of a number, most significant first. -/
def beBytes : Nat → Nat → List (Fin 256)
  | 0, _ => []
  | width+1, n => beBytes width (n/256) ++ [Fin.ofNat 256 n]

def beValue : Nat := bytes.foldl (fun value b => value*256+b.val) 0

theorem lastDigit_val (n : Nat) : (lastDigit n).val = 48+n%10 := by
  simp only [lastDigit,Fin.val_ofNat]
  omega

theorem isDigit_lastDigit (n : Nat) : isDigit (lastDigit n) = true := by
  simp only [isDigit,lastDigit_val,Bool.and_eq_true,decide_eq_true_eq]
  omega

theorem length_padded (width n : Nat) : (padded width n).length = width := by
  induction width generalizing n with
  | zero => rfl
  | succ width ih => simp [padded,ih]

variable {width n a b max : Nat}

theorem isDigit_of_mem_padded {b : Fin 256} (h : b ∈ padded width n) : isDigit b = true := by
  induction width generalizing n with
  | zero => simp [padded] at h
  | succ width ih =>
    rcases mem_append.mp h with h | h
    · exact ih h
    · obtain rfl := mem_singleton.mp h
      exact isDigit_lastDigit n

theorem isDigit_of_mem_decimal {b : Fin 256} (h : b ∈ decimal n) : isDigit b = true := by
  induction n using Nat.strong_induction_on with
  | _ n ih =>
    rw [decimal] at h
    split at h
    · obtain rfl := mem_singleton.mp h
      exact isDigit_lastDigit n
    rcases mem_append.mp h with h | h
    · exact ih (n/10) (by omega) h
    · obtain rfl := mem_singleton.mp h
      exact isDigit_lastDigit n

theorem decimal_ne_nil (n : Nat) : decimal n ≠ [] := by
  rw [decimal]
  split <;> simp

theorem digitsValue_append (n : Nat) : digitsValue (bytes ++ [lastDigit n]) = digitsValue bytes * 10+n%10 := by
  simp [digitsValue,lastDigit_val]

theorem digitsValue_decimal (n : Nat) : digitsValue (decimal n) = n := by
  induction n using Nat.strong_induction_on with
  | _ n ih =>
    rw [decimal]
    split
    · simp only [digitsValue,foldl_cons,foldl_nil,lastDigit_val]
      omega
    · rw [digitsValue_append,ih (n/10) (by omega)]
      omega

theorem decimal_injective (h : decimal a = decimal b) : a = b := by
  rw [← digitsValue_decimal a,h,digitsValue_decimal]

theorem digitsValue_padded (h : n < 10^width) : digitsValue (padded width n) = n := by
  induction width generalizing n with
  | zero =>
    have : n = 0 := by simpa using h
    simp [padded,digitsValue,this]
  | succ width ih =>
    have hlt : n/10 < 10^width := by
      rw [pow_succ] at h
      omega
    rw [padded,digitsValue_append,ih hlt]
    omega

theorem padded_injective (ha : a < 10^width) (hb : b < 10^width) (h : padded width a = padded width b) : a = b := by
  rw [← digitsValue_padded ha,h,digitsValue_padded hb]

theorem padded_lt_iff (ha : a < 10^width) (hb : b < 10^width) : padded width a < padded width b ↔ a < b := by
  induction width generalizing a b with
  | zero =>
    simp only [pow_zero,Nat.lt_one_iff] at ha hb
    simp [padded,ha,hb]
  | succ width ih =>
    have hda : a/10 < 10^width := by
      rw [pow_succ] at ha
      omega
    have hdb : b/10 < 10^width := by
      rw [pow_succ] at hb
      omega
    rw [padded,padded,append_singleton_lt_iff (by rw [length_padded,length_padded]),ih hda hdb]
    have hl : lastDigit a < lastDigit b ↔ a%10 < b%10 := by
      rw [Fin.lt_def,lastDigit_val,lastDigit_val]
      omega
    rw [hl]
    constructor
    · rintro (hlt | ⟨heq,hlt⟩)
      · omega
      · have := padded_injective hda hdb heq
        omega
    · intro hlt
      by_cases hq : a/10 < b/10
      · exact .inl hq
      · have heq : a/10 = b/10 := by omega
        exact .inr ⟨by rw [heq],by omega⟩

theorem padded_le_iff (ha : a < 10^width) (hb : b < 10^width) : padded width a ≤ padded width b ↔ a ≤ b := by
  rw [← not_lt,padded_lt_iff hb ha,not_lt]

theorem parseUnsigned_digits {digits : List (Fin 256)} (hne : digits ≠ [])
    (hd : ∀ b ∈ digits, isDigit b = true) (hv : digitsValue digits = n) (h : n ≤ max) : parseUnsigned max digits = some n := by
  have ha : digits.all isDigit = true := all_eq_true.mpr hd
  cases digits with
  | nil => exact absurd rfl hne
  | cons b rest =>
    -- A digit is no plus sign.
    have hb := hd b mem_cons_self
    have hp : b.val ≠ 43 := by
      simp only [isDigit,Bool.and_eq_true,decide_eq_true_eq] at hb
      omega
    simp only [parseUnsigned,if_neg hp,hv]
    rw [if_pos ⟨hne,ha,h⟩]

theorem parseUnsigned_le {bytes : List (Fin 256)} (h : parseUnsigned max bytes = some n) : n ≤ max := by
  unfold parseUnsigned at h
  simp only [ite_none_right_eq_some,some.injEq] at h
  obtain ⟨⟨-,-,hle⟩,rfl⟩ := h
  exact hle

theorem parseUnsigned_decimal (h : n ≤ max) : parseUnsigned max (decimal n) = some n :=
  parseUnsigned_digits (decimal_ne_nil n) (fun _ => isDigit_of_mem_decimal) (digitsValue_decimal n) h

theorem length_beBytes (width n : Nat) : (beBytes width n).length = width := by
  induction width generalizing n with
  | zero => rfl
  | succ width ih => simp [beBytes,ih]

theorem beValue_beBytes (h : n < 256^width) : beValue (beBytes width n) = n := by
  induction width generalizing n with
  | zero =>
    have : n = 0 := by simpa using h
    simp [beBytes,beValue,this]
  | succ width ih =>
    have hlt : n/256 < 256^width := by
      rw [pow_succ] at h
      omega
    have hrest := ih hlt
    rw [beValue] at hrest
    rw [beBytes,beValue,foldl_append,hrest]
    simp only [foldl_cons,foldl_nil,Fin.val_ofNat]
    omega

theorem beValue_append (b : Fin 256) : beValue (bytes ++ [b]) = beValue bytes * 256+b.val := by
  rw [beValue,foldl_append]
  rfl

theorem beValue_lt : beValue bytes < 256^bytes.length := by
  induction bytes using List.reverseRecOn with
  | nil => simp [beValue]
  | append_singleton bytes b ih =>
    rw [beValue_append,length_append,length_singleton,pow_succ]
    have hb := b.isLt
    omega

theorem beBytes_beValue : beBytes bytes.length (beValue bytes) = bytes := by
  induction bytes using List.reverseRecOn with
  | nil => rfl
  | append_singleton bytes b ih =>
    have hb := b.isLt
    have hq : (beValue bytes * 256+b.val)/256 = beValue bytes := by omega
    have hl : Fin.ofNat 256 (beValue bytes * 256+b.val) = b := by
      rw [Fin.ext_iff,Fin.val_ofNat]
      omega
    rw [beValue_append,length_append,length_singleton,beBytes,hq,hl,ih]

theorem beBytes_lt_beBytes (hab : a < b) (hb : b < 256^width) : beBytes width a < beBytes width b := by
  induction width generalizing a b with
  | zero => omega
  | succ width ih =>
    rw [beBytes,beBytes,append_singleton_lt_iff (by rw [length_beBytes,length_beBytes])]
    rcases Nat.lt_or_ge (a/256) (b/256) with hlt | hge
    · refine .inl (ih hlt ?_)
      rw [pow_succ] at hb
      omega
    · have heq : a/256 = b/256 := by omega
      refine .inr ⟨by rw [heq],?_⟩
      rw [Fin.lt_def,Fin.val_ofNat,Fin.val_ofNat]
      omega
end HeliosNano.Foundation
