import Mathlib.Data.Finset.Insert
import Mathlib.Data.List.Count
import Mathlib.Data.List.Nodup

namespace HeliosNano.Foundation
open List
variable {α β κ : Type} [DecidableEq β] [DecidableEq κ] (f : α → β)

/-- The elements whose image was not seen before them. -/
def firstBy (seen : Finset β) : List α → List α
  | [] => []
  | a::rest => if f a ∈ seen then firstBy seen rest else a :: firstBy (insert (f a) seen) rest

variable {f} {seen : Finset β} {l : List α}

theorem mem_firstBy {a : α} : a ∈ firstBy f seen l ↔ f a ∉ seen ∧ l.find? (fun b => f b = f a) = some a := by
  induction l generalizing seen with
  | nil => simp [firstBy]
  | cons b rest ih =>
    rw [firstBy,find?_cons]
    by_cases hb : f b = f a
    · by_cases hs : f a ∈ seen
      · simp [ih,hb,hs]
      · simp [ih,hb,hs,eq_comm]
    · by_cases hs : f b ∈ seen
      · simp [ih,hb,hs]
      have hne : a ≠ b := by
        rintro rfl
        exact hb rfl
      simp [ih,hb,hs,hne,Ne.symm hb]

theorem nodup_firstBy : ((firstBy f seen l).map f).Nodup := by
  induction l generalizing seen with
  | nil => exact nodup_nil
  | cons a rest ih =>
    rw [firstBy]
    split
    · exact ih
    · refine nodup_cons.mpr ⟨fun hm => ?_,ih⟩
      obtain ⟨b,hb,he⟩ := mem_map.mp hm
      exact (mem_firstBy.mp hb).1 (he ▸ Finset.mem_insert_self _ _)

variable {key : α → κ} (h : ∀ a b, key a = key b → f a = f b)
include h

theorem countP_firstBy (p : α → Bool) (k : κ) :
    (((firstBy f seen l).filter p).countP fun a => key a = k) = if ∃ a ∈ firstBy f seen l, p a ∧ key a = k then 1 else 0 := by
  have hnd : ((firstBy f seen l).map key).Nodup :=
    pairwise_map.mpr ((pairwise_map.mp nodup_firstBy).imp fun hne he => hne (h _ _ he))
  have hc := (hnd.sublist ((filter_sublist (p := p)).map key)).count (a := k)
  rw [List.count,countP_map] at hc
  simp only [mem_map,mem_filter,and_assoc] at hc
  exact hc

/-- Choosing by the coarser image loses nothing if and only if the first element with an image has
the finer image of each chosen one. -/
theorem countP_firstBy_iff {p : α → Bool} (hp : ∀ a b, key a = key b → p a = p b) :
    (∀ row, (((firstBy f ∅ l).filter p).countP fun a => key a = key row) = if ∃ b ∈ l, p b ∧ key b = key row then 1 else 0) ↔
      ∀ a, ∀ b ∈ l, p b → l.find? (fun t => f t = f b) = some a → key a = key b := by
  have ho {P Q : Prop} [Decidable P] [Decidable Q] : (if P then 1 else 0) = (if Q then 1 else 0) ↔ (P ↔ Q) := by
    by_cases hP : P <;> by_cases hQ : Q <;> simp [hP,hQ]
  simp only [countP_firstBy h,ho]
  constructor
  · intro hal a b hb hpb ha
    obtain ⟨a',ha',-,he⟩ := (hal b).mpr ⟨b,hb,hpb,rfl⟩
    have hf := (mem_firstBy.mp ha').2
    rw [h a' b he,ha] at hf
    rw [Option.some.inj hf,he]
  · intro hal row
    constructor
    · rintro ⟨a,ha,hpa,he⟩
      exact ⟨a,mem_of_find?_eq_some (mem_firstBy.mp ha).2,hpa,he⟩
    · rintro ⟨b,hb,hpb,he⟩
      obtain ⟨a,ha⟩ : ∃ a, l.find? (fun t => f t = f b) = some a :=
        Option.isSome_iff_exists.mp (find?_isSome.mpr ⟨b,hb,decide_eq_true rfl⟩)
      have hkey := hal a b hb hpb ha
      refine ⟨a,mem_firstBy.mpr ⟨Finset.notMem_empty _,?_⟩,?_,hkey.trans he⟩
      · rw [h a b hkey,ha]
      · rw [hp a b hkey,hpb]

omit [DecidableEq κ] h in
theorem find?_image_iff : (∀ a, ∀ b ∈ l, l.find? (fun t => f t = f b) = some a → key a = key b) ↔
    ∀ a ∈ l, ∀ b ∈ l, f a = f b → key a = key b := by
  constructor
  · intro hal a ha b hb he
    obtain ⟨first,hf⟩ : ∃ a, l.find? (fun t => f t = f b) = some a :=
      Option.isSome_iff_exists.mp (find?_isSome.mpr ⟨b,hb,decide_eq_true rfl⟩)
    exact (hal first a ha (he ▸ hf)).symm.trans (hal first b hb hf)
  · intro hal a b hb ha
    exact hal a (mem_of_find?_eq_some ha) b hb (of_decide_eq_true (find?_some (p := fun t => f t = f b) ha))

end HeliosNano.Foundation
