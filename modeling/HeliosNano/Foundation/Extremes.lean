import Mathlib.Order.Basic

namespace HeliosNano.Foundation
open List
variable {α : Type*} (cmp : α → α → Option Ordering)

def lower (least : Option α) (a : α) : Option α :=
  match least with
  | none => some a
  | some m => if cmp a m = some .lt then some a else some m

def upper (greatest : Option α) (a : α) : Option α :=
  match greatest with
  | none => some a
  | some m => if cmp a m = some .gt then some a else some m

/-- On these values the comparison answers, both ways alike, and is transitive. -/
structure Chain (values : List α) : Prop where
  answers : ∀ a ∈ values, ∀ b ∈ values, ∃ o, cmp a b = some o ∧ cmp b a = some o.swap
  trans : ∀ a ∈ values, ∀ b ∈ values, ∀ c ∈ values, cmp a b ≠ some .gt → cmp b c ≠ some .gt → cmp a c ≠ some .gt

theorem Chain.mono {values values' : List α} (h : Chain cmp values) (hs : ∀ a ∈ values', a ∈ values) : Chain cmp values' :=
  ⟨fun a ha b hb => h.answers a (hs a ha) b (hs b hb),
    fun a ha b hb c hc => h.trans a (hs a ha) b (hs b hb) c (hs c hc)⟩

variable {cmp} {values : List α}
variable {b a : α}

theorem Chain.le_of_lt (h : Chain cmp values) (ha : a ∈ values) (hb : b ∈ values) (hlt : cmp a b = some .lt) :
    cmp a b ≠ some .gt ∧ cmp b a = some .gt := by
  obtain ⟨o,hab,hba⟩ := h.answers a ha b hb
  rw [hlt] at hab ⊢
  obtain rfl := Option.some.inj hab
  exact ⟨fun hno => (nomatch hno),hba⟩

theorem Chain.refl (h : Chain cmp values) (ha : a ∈ values) : cmp a a ≠ some .gt := by
  obtain ⟨o,haa,haa'⟩ := h.answers a ha a ha
  intro hgt
  rw [hgt] at haa haa'
  obtain rfl := Option.some.inj haa
  cases haa'

theorem Chain.total (h : Chain cmp values) (ha : a ∈ values) (hb : b ∈ values) (hno : cmp a b ≠ some .lt) :
    cmp b a ≠ some .gt := by
  obtain ⟨o,hab,hba⟩ := h.answers a ha b hb
  intro hgt
  rw [hgt] at hba
  cases o with
  | lt => exact hno hab
  | eq | gt => cases hba

theorem Chain.foldl_lower (h : Chain cmp values) {seen arrived : List α} (hs : ∀ a ∈ seen, a ∈ values)
    (har : ∀ a ∈ arrived, a ∈ values) {least : Option α}
    (hl : least = none ∧ seen = [] ∨ ∃ m ∈ values, least = some m ∧ ∀ a ∈ seen, cmp m a ≠ some .gt) :
    arrived.foldl (lower cmp) least = none ∧ seen ++ arrived = [] ∨
      ∃ m ∈ values, arrived.foldl (lower cmp) least = some m ∧ ∀ a ∈ seen ++ arrived, cmp m a ≠ some .gt := by
  induction arrived generalizing seen least with
  | nil =>
    rw [append_nil]
    exact hl
  | cons a arrived ih =>
    have ha := har a mem_cons_self
    have hs' : ∀ b ∈ seen ++ [a], b ∈ values := fun b hb =>
      (mem_append.mp hb).elim (hs b) fun hb => mem_singleton.mp hb ▸ ha
    have hn : ∃ m ∈ values, lower cmp least a = some m ∧ ∀ b ∈ seen ++ [a], cmp m b ≠ some .gt := by
      obtain ⟨rfl,rfl⟩ | ⟨m,hm,rfl,hal⟩ := hl
      · refine ⟨a,ha,rfl,fun b hb => ?_⟩
        rw [mem_singleton.mp hb]
        exact h.refl ha
      · rw [lower]
        split
        next hlt =>
          refine ⟨a,ha,rfl,fun b hb => ?_⟩
          obtain hb | hb := mem_append.mp hb
          · exact h.trans a ha m hm b (hs b hb) (h.le_of_lt ha hm hlt).1 (hal b hb)
          · rw [mem_singleton.mp hb]
            exact h.refl ha
        next hno =>
          refine ⟨m,hm,rfl,fun b hb => ?_⟩
          obtain hb | hb := mem_append.mp hb
          · exact hal b hb
          · rw [mem_singleton.mp hb]
            exact h.total ha hm hno
    rw [foldl_cons,← singleton_append,← append_assoc]
    exact ih hs' (fun b hb => har b (mem_cons_of_mem _ hb)) (.inr hn)

/-- The comparison the other way round. -/
def reversed (cmp : α → α → Option Ordering) (a b : α) : Option Ordering := (cmp a b).map Ordering.swap

theorem reversed_ne_gt : reversed cmp a b ≠ some .gt ↔ cmp a b ≠ some .lt := by
  rw [reversed]
  cases cmp a b with
  | none => simp
  | some o => cases o <;> simp

theorem upper_eq_lower_reversed : upper cmp = lower (reversed cmp) := by
  funext greatest a
  cases greatest with
  | none => rfl
  | some m =>
    have hi : cmp a m = some .gt ↔ reversed cmp a m = some .lt := by
      rw [reversed]
      cases cmp a m with
      | none => simp
      | some o => cases o <;> simp
    exact if_congr hi rfl rfl

theorem Chain.reversed (h : Chain cmp values) : Chain (reversed cmp) values where
  answers a ha b hb := by
    obtain ⟨o,hab,hba⟩ := h.answers a ha b hb
    exact ⟨o.swap,congrArg (Option.map Ordering.swap) hab,congrArg (Option.map Ordering.swap) hba⟩
  trans a ha b hb c hc hab hbc := by
    -- below in the reversed comparison is above in the comparison
    have hf : ∀ x ∈ values, ∀ y ∈ values, Foundation.reversed cmp x y ≠ some .gt ↔ cmp y x ≠ some .gt := by
      intro x hx y hy
      obtain ⟨o,hxy,hyx⟩ := h.answers x hx y hy
      rw [reversed_ne_gt,hxy,hyx]
      cases o <;> simp
    rw [hf a ha b hb] at hab
    rw [hf b hb c hc] at hbc
    exact (hf a ha c hc).mpr (h.trans c hc b hb a ha hbc hab)

theorem Chain.between (h : Chain cmp values) (ha : a ∈ values) :
    (∃ m, values.foldl (lower cmp) none = some m ∧ ∃ o, cmp a m = some o ∧ o ≠ .lt) ∧
      ∃ m, values.foldl (upper cmp) none = some m ∧ ∃ o, cmp a m = some o ∧ o ≠ .gt := by
  constructor
  · obtain ⟨-,hn⟩ | ⟨m,hm,hf,hal⟩ := h.foldl_lower (fun _ hb => absurd hb not_mem_nil) (fun _ hb => hb) (.inl ⟨rfl,rfl⟩)
    · rw [nil_append] at hn
      rw [hn] at ha
      cases ha
    · obtain ⟨o,ham,hma⟩ := h.answers a ha m hm
      refine ⟨m,hf,o,ham,?_⟩
      rintro rfl
      exact hal a ha hma
  · rw [upper_eq_lower_reversed]
    obtain ⟨-,hn⟩ | ⟨m,hm,hf,hal⟩ :=
      h.reversed.foldl_lower (fun _ hb => absurd hb not_mem_nil) (fun _ hb => hb) (.inl ⟨rfl,rfl⟩)
    · rw [nil_append] at hn
      rw [hn] at ha
      cases ha
    · obtain ⟨o,ham,hma⟩ := h.answers a ha m hm
      refine ⟨m,hf,o,ham,?_⟩
      rintro rfl
      exact reversed_ne_gt.mp (hal a ha) hma

end HeliosNano.Foundation
