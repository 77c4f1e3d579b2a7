import HeliosNano.Foundation.OrderedStore

namespace HeliosNano.Foundation.Map
open List AList
variable {Key Value : Type} [DecidableEq Key] {m m' m'' : Map Key Value} {gone gone' : Set Key}

/-- The entries at these keys are lost, and no others. -/
structure Without (gone : Set Key) (m m' : Map Key Value) : Prop where
  lost : ∀ k ∈ gone, k ∉ m'
  kept : ∀ k ∉ gone, m'.lookup k = m.lookup k

theorem Without.refl (m : Map Key Value) : Without ∅ m m := ⟨fun _ hk => hk.elim,fun _ _ => rfl⟩

theorem Without.erase (m : Map Key Value) (k : Key) : Without {k} m (m.erase k) where
  lost k' hk' := by
    rw [Set.mem_singleton_iff.mp hk',mem_erase]
    exact fun h => h.1 rfl
  kept k' hk' := lookup_erase_ne hk'

variable (h : Without gone m m')
include h

theorem Without.mem {k : Key} (hk : k ∉ gone) : k ∈ m' ↔ k ∈ m := by
  rw [← lookup_isSome,← lookup_isSome,h.kept k hk]

theorem Without.mem_before {k : Key} (hk : k ∈ m') : k ∈ m :=
  (h.mem fun hg => h.lost k hg hk).mp hk

theorem Without.trans (h' : Without gone' m' m'') : Without (gone ∪ gone') m m'' where
  lost k hk := by
    rcases hk with hk | hk
    · exact fun hm => h.lost k hk (h'.mem_before hm)
    · exact h'.lost k hk
  kept k hk := by
    obtain ⟨hf,hs⟩ := not_or.mp hk
    rw [h'.kept k hs,h.kept k hf]

theorem Without.congr (hsame : ∀ k ∈ m, k ∈ gone' ↔ k ∈ gone) : Without gone' m m' where
  lost k hk hmem := by
    have hb := h.mem_before hmem
    exact h.lost k ((hsame k hb).mp hk) hmem
  kept k hk := by
    by_cases hmem : k ∈ m
    · exact h.kept k fun hg => hk ((hsame k hmem).mpr hg)
    · have ha : k ∉ m' := fun hm' => hmem (h.mem_before hm')
      rw [AList.lookup_eq_none.mpr hmem,AList.lookup_eq_none.mpr ha]

omit h

theorem Without.foldl_erase (entries : List (Key × Value)) (m : Map Key Value) :
    Without {k | k ∈ entries.map Prod.fst} m (entries.foldl (fun m entry => m.erase entry.1) m) := by
  induction entries generalizing m with
  | nil => exact (Without.refl m).congr fun k _ => by simp
  | cons entry rest ih =>
    refine ((Without.erase m entry.1).trans (ih (m.erase entry.1))).congr fun k _ => ?_
    rw [map_cons,Set.mem_ofPred_eq,mem_cons]
    exact Iff.rfl

end HeliosNano.Foundation.Map

namespace HeliosNano.Foundation
open List

theorem takeWhile_eq_filter {α : Type} {P : α → Bool} {l : List α} (h : l.Pairwise fun a b => P b = true → P a = true) :
    l.takeWhile P = l.filter P := by
  induction l with
  | nil => rfl
  | cons a rest ih =>
    obtain ⟨hf,hrest⟩ := pairwise_cons.mp h
    rw [takeWhile_cons,filter_cons]
    split
    next => rw [ih hrest]
    next hno =>
      refine (filter_eq_nil_iff.mpr fun b hb => ?_).symm
      exact fun hy => hno (hf b hb hy)

end HeliosNano.Foundation
