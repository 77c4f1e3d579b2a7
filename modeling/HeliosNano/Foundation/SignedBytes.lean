import HeliosNano.Foundation.Decimal
import Mathlib.Data.Nat.Bitwise

namespace HeliosNano.Foundation
open BitVec

theorem intMin_xor_of_msb {w : Nat} {v : BitVec (w+1)} (h : v.msb = false) : v ^^^ intMin (w+1) = v + intMin (w+1) := by
  have hand : v &&& intMin (w+1) = 0#(w+1) := by
    ext i hi
    rw [getElem_and,getElem_zero]
    by_cases htp : i = w
    · subst htp
      rw [msb_eq_getLsbD_last,Nat.add_sub_cancel,getLsbD_eq_getElem hi] at h
      rw [h,Bool.false_and]
    · have hl : (intMin (w+1))[i] = false := by
        rw [← getLsbD_eq_getElem hi,getLsbD_intMin]
        simp
        omega
      rw [hl,Bool.and_false]
  rw [add_eq_or_of_and_eq_zero _ _ hand]
  ext i hi
  have hb := congrArg (·[i]) hand
  simp only [getElem_and,getElem_zero] at hb
  rw [getElem_xor,getElem_or]
  revert hb
  cases v[i] <;> cases (intMin (w+1))[i] <;> decide

theorem toNat_xor_intMin {w : Nat} (v : BitVec (w+1)) : ((v ^^^ BitVec.intMin (w+1)).toNat : Int) = v.toInt+2^w := by
  have hm : (BitVec.intMin (w+1)).toNat = 2^w := by
    rw [BitVec.toNat_intMin,Nat.add_sub_cancel]
    exact Nat.mod_eq_of_lt (Nat.pow_lt_pow_right (by decide) (Nat.lt_succ_self w))
  cases h : v.msb with
  | false =>
    have hlt : v.toNat < 2^w := by simpa using BitVec.toNat_lt_of_msb_false h
    rw [intMin_xor_of_msb h,BitVec.toNat_add,hm,BitVec.toInt_eq_msb_cond,h,if_neg Bool.false_ne_true,
      Nat.mod_eq_of_lt (by rw [pow_succ]; omega)]
    push_cast
    rfl
  | true =>
    have hf : (v ^^^ BitVec.intMin (w+1)).msb = false := by
      rw [BitVec.msb_xor,h,BitVec.msb_intMin]
      simp
    have hb := intMin_xor_of_msb hf
    rw [BitVec.xor_assoc,BitVec.xor_self,BitVec.xor_zero] at hb
    have hlt : (v ^^^ BitVec.intMin (w+1)).toNat < 2^w := by simpa using BitVec.toNat_lt_of_msb_false hf
    have hs := congrArg BitVec.toNat hb
    rw [BitVec.toNat_add,hm,Nat.mod_eq_of_lt (by rw [pow_succ]; omega)] at hs
    rw [BitVec.toInt_eq_msb_cond,h,if_pos rfl,hs]
    push_cast
    rw [pow_succ]
    omega

section
variable {w width : Nat} {u v : BitVec (w+1)}

/-- The big-endian bytes of a word with its sign bit flipped. -/
def flippedBytes (width : Nat) (v : BitVec (w+1)) : List (Fin 256) := beBytes width (v ^^^ intMin (w+1)).toNat

variable (hw : 256^width = 2^(w+1))
include hw

theorem flippedBytes_lt_flippedBytes (h : u.toInt < v.toInt) : flippedBytes width u < flippedBytes width v := by
  have hu := toNat_xor_intMin u
  have hv := toNat_xor_intMin v
  refine beBytes_lt_beBytes (by omega) ?_
  rw [hw]
  exact isLt _

theorem flippedBytes_lt_iff : flippedBytes width u < flippedBytes width v ↔ u.toInt < v.toInt := by
  refine ⟨fun h => ?_,flippedBytes_lt_flippedBytes hw⟩
  by_contra hno
  obtain heq | hlt := eq_or_lt_of_le (not_lt.mp hno)
  · rw [eq_of_toInt_eq heq] at h
    exact absurd h (lt_irrefl _)
  · exact absurd h (lt_asymm (flippedBytes_lt_flippedBytes hw hlt))

omit hw in
theorem length_flippedBytes (v : BitVec (w+1)) : (flippedBytes width v).length = width := length_beBytes _ _

theorem unflip_flippedBytes (v : BitVec (w+1)) :
    BitVec.ofNat (w+1) (beValue (flippedBytes width v)) ^^^ BitVec.intMin (w+1) = v := by
  rw [flippedBytes,beValue_beBytes (by rw [hw]; exact BitVec.isLt _),BitVec.ofNat_toNat,BitVec.setWidth_eq,BitVec.xor_assoc,
    BitVec.xor_self,BitVec.xor_zero]

theorem flippedBytes_injective : Function.Injective (@flippedBytes w width) := by
  intro u v h
  rw [← unflip_flippedBytes hw u,h,unflip_flippedBytes hw v]

theorem flippedBytes_unflip {bytes : List (Fin 256)} (hl : bytes.length = width) :
    flippedBytes width (BitVec.ofNat (w+1) (beValue bytes) ^^^ BitVec.intMin (w+1)) = bytes := by
  have hlt : beValue bytes < 2^(w+1) := by
    rw [← hw,← hl]
    exact beValue_lt bytes
  rw [flippedBytes,BitVec.xor_assoc,BitVec.xor_self,BitVec.xor_zero,BitVec.toNat_ofNat,Nat.mod_eq_of_lt hlt,← hl,
    beBytes_beValue]

end

end HeliosNano.Foundation
