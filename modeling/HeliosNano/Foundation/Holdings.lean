import Mathlib.Algebra.Order.BigOperators.Group.Finset
import Mathlib.Order.Interval.Finset.Nat

namespace HeliosNano.Foundation
open Function Finset
variable {Slot : Type} [DecidableEq Slot] {count count' : Slot → Nat} {holdings : Nat → Multiset Slot} {n i : Nat} {slot : Slot}

/-- Every counter is the number of times that its slot is held by the first parties. -/
def Mirrors (count : Slot → Nat) (holdings : Nat → Multiset Slot) (n : Nat) : Prop :=
  ∀ slot, count slot = ∑ j ∈ range n, (holdings j).count slot

variable (hi : i < n)
include hi

theorem sum_range_update {f : Nat → Nat} (x : Nat) : ∑ j ∈ range n, Function.update f i x j + f i = ∑ j ∈ range n, f j + x := by
  have hm : i ∈ range n := mem_range.mpr hi
  have hrest : ∑ j ∈ (range n).erase i, Function.update f i x j = ∑ j ∈ (range n).erase i, f j :=
    sum_congr rfl fun j hj => update_of_ne (ne_of_mem_erase hj) x f
  rw [← add_sum_erase _ _ hm,← add_sum_erase _ f hm,hrest,update_self]
  omega

variable (h : Mirrors count holdings n)
include h

theorem Mirrors.change {held : Multiset Slot}
    (hc : ∀ s, count' s + (holdings i).count s = count s + held.count s) : Mirrors count' (Function.update holdings i held) n := by
  intro s
  have hsm := sum_range_update (f := fun j => (holdings j).count s) hi (held.count s)
  have hu : ∀ j, Function.update (fun j => (holdings j).count s) i (held.count s) j = (Function.update holdings i held j).count s := by
    intro j
    by_cases hj : j = i
    · rw [hj,update_self,update_self]
    · rw [update_of_ne hj,update_of_ne hj]
  rw [sum_congr rfl fun j _ => hu j,← h s] at hsm
  have hs := hc s
  omega

theorem Mirrors.le (slot : Slot) : (holdings i).count slot ≤ count slot := by
  rw [h slot]
  exact single_le_sum (f := fun j => (holdings j).count slot) (fun _ _ => Nat.zero_le _) (mem_range.mpr hi)

theorem Mirrors.enter (hc : ∀ s, count' s = count s + if s = slot then 1 else 0) :
    Mirrors count' (Function.update holdings i (slot ::ₘ holdings i)) n := by
  refine h.change hi fun s => ?_
  rw [hc,Multiset.count_cons]
  omega

theorem Mirrors.leave (hh : slot ∈ holdings i)
    (hc : ∀ s, count' s = count s - if s = slot then 1 else 0) : Mirrors count' (Function.update holdings i ((holdings i).erase slot)) n := by
  refine h.change hi fun s => ?_
  rw [hc]
  by_cases hs : s = slot
  · have hp : 0 < (holdings i).count slot := Multiset.count_pos.mpr hh
    have hle := h.le hi slot
    rw [hs,if_pos rfl,Multiset.count_erase_self]
    omega
  · rw [if_neg hs,Multiset.count_erase_of_ne hs]
    omega

omit hi

theorem Mirrors.enrol (hnew : holdings n = 0) : Mirrors count holdings (n+1) := by
  intro s
  rw [sum_range_succ,← h s,hnew,Multiset.count_zero,Nat.add_zero]

theorem Mirrors.pos (hi : i < n) (hh : slot ∈ holdings i) : 0 < count slot :=
  (Multiset.count_pos.mpr hh).trans_le (h.le hi slot)

theorem Mirrors.eq_zero (hn : ∀ j, holdings j = 0) (slot : Slot) : count slot = 0 := by
  rw [h slot]
  refine sum_eq_zero fun j _ => ?_
  rw [hn j,Multiset.count_zero]

end HeliosNano.Foundation
