import HeliosNano.Foundation.Maps
import Mathlib.Order.Lattice
import Mathlib.Order.Nat

namespace HeliosNano.Foundation
open List

/-- The entries that are still to be read, and the least value so far. -/
structure Scan (ι α : Type) where
  pending : List ι
  lowest : Option α

namespace Scan
variable {ι α : Type} [DecidableEq ι] [LinearOrder α]

def lower (lowest : Option α) (a : α) : Option α := some (lowest.elim a (min · a))

def start (m : Map ι α) : Scan ι α := ⟨m.keys,none⟩

def visit (m : Map ι α) (s : Scan ι α) (i : ι) : Scan ι α :=
  match m.lookup i with
  | some a => ⟨s.pending.filter (· ≠ i),lower s.lowest a⟩
  | none => s

def drop (s : Scan ι α) (i : ι) : Scan ι α := { s with pending := s.pending.filter (· ≠ i) }

/-- The entry is to be read, or a value that is no greater has been. -/
def Sees (s : Scan ι α) (i : ι) (a : α) : Prop := i ∈ s.pending ∨ ∃ least, s.lowest = some least ∧ least ≤ a

variable {m : Map ι α} {s : Scan ι α} {i : ι} {a : α}

theorem sees_start (h : m.lookup i = some a) : (start m).Sees i a := by
  refine .inl (AList.mem_keys.mp (AList.lookup_isSome.mp ?_))
  rw [h]
  rfl

theorem Sees.visit (h : s.Sees i a) (hi : m.lookup i = some a) (j : ι) : (visit m s j).Sees i a := by
  unfold Scan.visit
  cases hj : m.lookup j with
  | none => exact h
  | some b =>
    rcases h with hp | ⟨least,hl,hle⟩
    · by_cases hij : i = j
      · rw [hij] at hi
        obtain rfl := Option.some.inj (hi.symm.trans hj)
        cases hlw : s.lowest with
        | none => exact .inr ⟨a,rfl,le_refl a⟩
        | some least => exact .inr ⟨min least a,rfl,min_le_right least a⟩
      · exact .inl (mem_filter.mpr ⟨hp,decide_eq_true hij⟩)
    · refine .inr ⟨min least b,?_,(min_le_left least b).trans hle⟩
      simp only [lower,hl,Option.elim_some]

theorem Sees.drop (h : s.Sees i a) {j : ι} (hij : i ≠ j) : (s.drop j).Sees i a :=
  h.imp (fun hp => mem_filter.mpr ⟨hp,decide_eq_true hij⟩) id

omit [DecidableEq ι] in
theorem Sees.done (h : s.Sees i a) (hd : s.pending = []) : ∃ least, s.lowest = some least ∧ least ≤ a := by
  rcases h with hp | hl
  · rw [hd] at hp
    exact absurd hp not_mem_nil
  · exact hl

end Scan
end HeliosNano.Foundation
