import Mathlib.Data.Nat.Bitwise

namespace HeliosNano.Foundation
open List Option

def wordBits : Nat := 64

def bitMask (i : Nat) : Nat := 1 <<< (i%wordBits)

def getBit (words : List Nat) (i : Nat) : Bool := ((words[i/wordBits]?).getD 0).testBit (i%wordBits)

/-- A mask is merged into one word; a word that is not there stays away. -/
def orWord (words : List Nat) (index mask : Nat) : List Nat := words.modify index (· ||| mask)

variable {words : List Nat} {index mask i : Nat}

theorem length_orWord : (orWord words index mask).length = words.length := length_modify ..

theorem getBit_orWord_of_getBit (h : getBit words i = true) : getBit (orWord words index mask) i = true := by
  rw [getBit] at h ⊢
  rw [orWord,getElem?_modify]
  cases hw : words[i/wordBits]? with
  | none =>
    rw [hw,getD_none,Nat.zero_testBit] at h
    cases h
  | some word =>
    rw [hw,getD_some] at h
    simp only [Option.map_eq_map,map_some,getD_some]
    split
    · rw [Nat.testBit_or,h,Bool.true_or]
    · exact h

theorem getBit_orWord_self (h : i/wordBits < words.length) : getBit (orWord words (i/wordBits) (bitMask i)) i = true := by
  rw [getBit,orWord,getElem?_modify,getElem?_eq_getElem h]
  simp only [if_pos,Option.map_eq_map,map_some,getD_some,bitMask]
  rw [Nat.testBit_or,Nat.one_shiftLeft,Nat.testBit_two_pow_self,Bool.or_true]

def orWords (words : List Nat) (masks : List (Nat × Nat)) : List Nat :=
  masks.foldl (fun words entry => orWord words entry.1 entry.2) words

theorem length_orWords (masks : List (Nat × Nat)) : (orWords words masks).length = words.length := by
  induction masks generalizing words with
  | nil => rfl
  | cons entry masks ih => exact ih.trans length_orWord

theorem getBit_orWords_of_getBit (masks : List (Nat × Nat)) (h : getBit words i = true) :
    getBit (orWords words masks) i = true := by
  induction masks generalizing words with
  | nil => exact h
  | cons entry masks ih => exact ih (getBit_orWord_of_getBit h)

theorem getBit_orWords_of_mem {masks : List (Nat × Nat)} (hl : i/wordBits < words.length)
    (hmem : (i/wordBits,bitMask i) ∈ masks) : getBit (orWords words masks) i = true := by
  induction masks generalizing words with
  | nil => exact absurd hmem not_mem_nil
  | cons entry masks ih =>
    obtain heq | hmem := mem_cons.mp hmem
    · rw [← heq]
      exact getBit_orWords_of_getBit masks (getBit_orWord_self hl)
    · exact ih (lt_of_lt_of_eq hl length_orWord.symm) hmem

end HeliosNano.Foundation
