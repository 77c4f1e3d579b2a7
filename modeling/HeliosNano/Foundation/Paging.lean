import Mathlib.Data.List.Basic

namespace HeliosNano.Foundation
open List
variable {α : Type} {key : α → Nat} {l : List α} {b n : Nat}

def above (key : α → Nat) (b : Nat) (l : List α) : List α := l.filter fun a => b < key a

theorem lt_of_mem_above {a : α} (h : a ∈ above key b l) : b < key a := by simpa using (mem_filter.mp h).2

theorem above_eq_self (h : ∀ a ∈ l, b < key a) : above key b l = l :=
  filter_eq_self.mpr fun a ha => decide_eq_true (h a ha)

theorem above_append (l l' : List α) : above key b (l ++ l') = above key b l ++ above key b l' := filter_append l l'

theorem above_above (n : Nat) : above key (b+n) (above key b l) = above key (b+n) l := by
  simp only [above,filter_filter]
  refine filter_congr fun a _ => ?_
  have : b+n < key a → b < key a := fun h => by omega
  simpa using this

variable (hs : l.Pairwise fun a b => key a < key b) (hl : ∀ a ∈ l, b < key a)
include hs hl

theorem add_lt_key {i : Nat} (hi : i < l.length) : b+i < key l[i] := by
  induction i with
  | zero => exact hl _ (getElem_mem hi)
  | succ i ih =>
    have hlt := pairwise_iff_getElem.mp hs i (i+1) (by omega) hi (Nat.lt_succ_self i)
    have hp := ih (by omega)
    omega

theorem above_drop (n : Nat) : above key (b+n) (l.drop n) = l.drop n := by
  refine above_eq_self fun a ha => ?_
  obtain ⟨i,hi,rfl⟩ := mem_iff_getElem.mp ha
  rw [length_drop] at hi
  have hlt := @add_lt_key _ _ _ _ hs hl (n+i) (by omega)
  rw [getElem_drop]
  omega

theorem above_eq_append (n : Nat) : above key (b+n) l = above key (b+n) (l.take n) ++ l.drop n := by
  rw [← above_drop hs hl n,← above_append,take_append_drop]

theorem length_le_above (n : Nat) : l.length ≤ (above key (b+n) l).length + n := by
  rw [above_eq_append hs hl,length_append,length_drop]
  omega

theorem above_eq_drop_iff (n : Nat) : above key (b+n) l = l.drop n ↔ ∀ a ∈ l.take n, key a ≤ b+n := by
  rw [above_eq_append hs hl,append_left_eq_self,above,filter_eq_nil_iff]
  simp only [decide_eq_true_eq,Nat.not_lt]

theorem above_eq_drop_of_length_le (h : (above key (b+n) l).length ≤ (l.drop n).length) : above key (b+n) l = l.drop n := by
  rw [above_eq_append hs hl,length_append] at h
  rw [above_eq_append hs hl,append_left_eq_self]
  exact eq_nil_of_length_eq_zero (by omega)

end HeliosNano.Foundation
