import Mathlib.Data.Int.ConditionallyCompleteOrder
import Mathlib.Data.Int.Interval
import Mathlib.Order.ConditionallyCompleteLattice.Basic

namespace HeliosNano.Foundation
open List Finset

structure Spans (s : Finset Int) (lo hi : Int) : Prop where
  least : IsLeast (s : Set Int) lo
  greatest : IsGreatest (s : Set Int) hi

theorem spans_singleton (x : Int) : Spans {x} x x := by
  constructor
  · rw [coe_singleton]
    exact isLeast_singleton
  · rw [coe_singleton]
    exact isGreatest_singleton

variable {hi lo : Int} {l : List Nat}

theorem spans_Icc (h : lo ≤ hi) : Spans (Icc lo hi) lo hi := by
  constructor
  · rw [coe_Icc]
    exact isLeast_Icc h
  · rw [coe_Icc]
    exact isGreatest_Icc h

namespace Spans
variable {s : Finset Int} {lo hi x : Int}
variable (h : Spans s lo hi)
include h

theorem le : lo ≤ hi := h.least.2 h.greatest.1

theorem subset : s ⊆ Icc lo hi := by
  intro x hx
  rw [mem_Icc]
  exact ⟨h.least.2 hx,h.greatest.2 hx⟩

theorem insert (x : Int) : Spans (insert x s) (min lo x) (max hi x) := by
  rw [min_comm,max_comm]
  constructor
  · rw [coe_insert]
    exact h.least.insert x
  · rw [coe_insert]
    exact h.greatest.insert x

theorem erase (hlo : x ≠ lo) (hhi : x ≠ hi) : Spans (s.erase x) lo hi := by
  have hs : (s.erase x : Set Int) ⊆ s := coe_subset.mpr (erase_subset x s)
  constructor
  · refine ⟨mem_coe.mpr (mem_erase.mpr ⟨hlo.symm,h.least.1⟩),fun y hy => ?_⟩
    exact h.least.2 (hs hy)
  · refine ⟨mem_coe.mpr (mem_erase.mpr ⟨hhi.symm,h.greatest.1⟩),fun y hy => ?_⟩
    exact h.greatest.2 (hs hy)

theorem card_eq_iff : (s.card : Int) = hi-lo + 1 ↔ s = Icc lo hi := by
  have hle := h.le
  constructor
  · intro hc
    apply eq_of_subset_of_card_le h.subset
    rw [Int.card_Icc]
    omega
  · rintro rfl
    rw [Int.card_Icc]
    omega

end Spans

theorem Icc_erase_least : (Icc lo hi).erase lo = Icc (lo+1) hi := by
  ext y
  simp only [mem_erase,mem_Icc]
  omega

theorem Icc_erase_greatest : (Icc lo hi).erase hi = Icc lo (hi-1) := by
  ext y
  simp only [mem_erase,mem_Icc]
  omega

/-- Nothing is missing between two that are there. -/
def Unbroken (p : Nat → Prop) : Prop := ∀ a b c, p a → p c → a < b → b < c → p b

theorem unbroken_congr {p q : Nat → Prop} (h : ∀ n, p n ↔ q n) : Unbroken p ↔ Unbroken q := by
  have hpq : p = q := funext fun n => propext (h n)
  rw [hpq]

/-- Every number is the successor of the one before it. -/
def Consecutive : Option Nat → List Nat → Prop
  | _, [] => True
  | none, n::rest => Consecutive (some n) rest
  | some previous, n::rest => n = previous+1 ∧ Consecutive (some n) rest

theorem consecutive_some_iff {previous : Nat} (hl : l.Pairwise (· < ·)) (haf : ∀ n ∈ l, previous < n) :
    Consecutive (some previous) l ↔ ∀ n, previous < n → (∃ m ∈ l, n ≤ m) → n ∈ l := by
  induction l generalizing previous with
  | nil => exact iff_of_true trivial fun n _ hm => absurd hm.choose_spec.1 not_mem_nil
  | cons first rest ih =>
    obtain ⟨hf,hrest⟩ := pairwise_cons.mp hl
    rw [Consecutive,ih hrest hf]
    constructor
    · rintro ⟨rfl,ha⟩ n hn ⟨m,hm,hle⟩
      rcases Nat.lt_or_ge (previous+1) n with hlt | hge
      · rcases mem_cons.mp hm with rfl | hm
        · exact absurd hle (Nat.not_le.mpr hlt)
        · exact mem_cons_of_mem _ (ha n hlt ⟨m,hm,hle⟩)
      · obtain rfl : n = previous+1 := Nat.le_antisymm hge hn
        exact mem_cons_self
    · intro ha
      have hgt := haf first mem_cons_self
      refine ⟨?_,fun n hn hm => ?_⟩
      · -- the successor is there, and nothing is there before the first
        have hs := ha (previous+1) (Nat.lt_succ_self _) ⟨first,mem_cons_self,hgt⟩
        rcases mem_cons.mp hs with heq | hmm
        · exact heq.symm
        · exact absurd (hf _ hmm) (Nat.not_lt.mpr hgt)
      · obtain ⟨m,hmm,hle⟩ := hm
        rcases mem_cons.mp (ha n (hgt.trans hn) ⟨m,mem_cons_of_mem _ hmm,hle⟩) with rfl | hin
        · exact absurd hn (Nat.lt_irrefl _)
        · exact hin

theorem consecutive_iff_unbroken (hl : l.Pairwise (· < ·)) : Consecutive none l ↔ Unbroken (· ∈ l) := by
  cases l with
  | nil => exact iff_of_true trivial fun a _ _ ha => absurd ha not_mem_nil
  | cons first rest =>
    obtain ⟨hf,hrest⟩ := pairwise_cons.mp hl
    have hls : ∀ n ∈ first::rest, first ≤ n := fun n hn =>
      (mem_cons.mp hn).elim (fun heq => heq.symm.le) fun hmm => (hf n hmm).le
    rw [Consecutive,consecutive_some_iff hrest hf]
    constructor
    · intro hal a b c ha hc hab hbc
      have hb : first < b := lt_of_le_of_lt (hls a ha) hab
      rcases mem_cons.mp hc with rfl | hc
      · exact absurd hb (Nat.lt_asymm hbc)
      · exact mem_cons_of_mem _ (hal b hb ⟨c,hc,hbc.le⟩)
    · rintro hal n hn ⟨m,hm,hle⟩
      rcases hle.lt_or_eq with hlt | rfl
      · rcases mem_cons.mp (hal first n m mem_cons_self (mem_cons_of_mem _ hm) hn hlt) with rfl | hin
        · exact absurd hn (Nat.lt_irrefl _)
        · exact hin
      · exact hm

end HeliosNano.Foundation
