import Mathlib.Data.Option.Basic
import Mathlib.Data.List.Basic

namespace HeliosNano.Foundation.Overlay
open List Option
variable {Value : Type*}

def visible (base : Option Value) : List (Option (Option Value)) → Option Value
  | [] => base
  | none::rest => visible base rest
  | some outcome :: _ => outcome

def topmost (base : Option Value) : List (Option (Option Value)) → Option Value
  | [] => base
  | some (some value) :: _ => some value
  | some none :: rest => topmost base rest
  | none::rest => topmost base rest

variable {base : Option Value}
variable {above below : List (Option (Option Value))}

theorem visible_append_of_silent (h : ∀ layer ∈ above, layer = none) : visible base (above ++ below) = visible base below := by
  induction above with
  | nil => rfl
  | cons layer rest ih =>
    obtain ⟨rfl,hrest⟩ := forall_mem_cons.mp h
    exact ih hrest

theorem topmost_append_of_silent (h : ∀ layer ∈ above, layer = none) : topmost base (above ++ below) = topmost base below := by
  induction above with
  | nil => rfl
  | cons layer rest ih =>
    obtain ⟨rfl,hrest⟩ := forall_mem_cons.mp h
    exact ih hrest

theorem visible_append_of_heard (h : ∃ layer ∈ above, layer ≠ none)
    (base' : Option Value) (below below' : List (Option (Option Value))) :
    visible base (above ++ below) = visible base' (above ++ below') := by
  induction above with
  | nil =>
    obtain ⟨layer,hm,-⟩ := h
    cases hm
  | cons layer rest ih =>
    cases layer with
    | some outcome => rfl
    | none =>
      obtain ⟨layer,hm,hne⟩ := h
      rcases mem_cons.mp hm with rfl | hm
      · exact absurd rfl hne
      · exact ih ⟨layer,hm,hne⟩

theorem topmost_append (above below : List (Option (Option Value))) :
    topmost base (above ++ below) = (topmost none above).or (topmost base below) := by
  induction above with
  | nil => simp [topmost]
  | cons layer rest ih => rcases layer with _ | _ | value <;> simp [topmost,ih]

theorem topmost_ne_none_of_mem {layers : List (Option (Option Value))} {value : Value} (h : some (some value) ∈ layers) :
    topmost base layers ≠ none := by
  induction layers with
  | nil => cases h
  | cons layer rest ih =>
    rcases layer with _ | _ | other
    · exact ih ((mem_cons.mp h).resolve_left (by simp))
    · exact ih ((mem_cons.mp h).resolve_left (by simp))
    · simp [topmost]

theorem topmost_some_ne_none (value : Value) (layers : List (Option (Option Value))) : topmost (some value) layers ≠ none := by
  induction layers with
  | nil => simp [topmost]
  | cons layer rest ih =>
    rcases layer with _ | _ | other
    · exact ih
    · exact ih
    · simp [topmost]

theorem topmost_none_of_visible (h : ∃ layer ∈ above, layer ≠ none)
    (heq : topmost base (above ++ below) = visible base (above ++ below)) :
    (∃ value, topmost none above = some value ∧ visible base (above ++ below) = some value) ∨
      (topmost none above = none ∧ visible base (above ++ below) = none ∧ topmost base below = none) := by
  rw [topmost_append] at heq
  cases htp : topmost none above with
  | some value =>
    rw [htp,some_or] at heq
    exact .inl ⟨value,rfl,heq.symm⟩
  | none =>
    rw [htp,none_or] at heq
    have hv : visible base (above ++ below) = visible none (above ++ []) := visible_append_of_heard h none below []
    -- the first layer that says something is a deletion
    have hn : ∀ {layers : List (Option (Option Value))}, (∃ layer ∈ layers, layer ≠ none) →
        topmost none layers = none → visible none layers = none := by
      intro layers
      induction layers with
      | nil => exact fun _ _ => rfl
      | cons layer rest ih =>
        rintro ⟨other,hm,hne⟩ ht
        rcases layer with _ | _ | value
        · rcases mem_cons.mp hm with rfl | hm
          · exact absurd rfl hne
          · exact ih ⟨other,hm,hne⟩ ht
        · rfl
        · cases ht
    rw [append_nil,hn h htp] at hv
    exact .inr ⟨rfl,hv,heq.trans hv⟩

theorem agree_replace {below' : List (Option (Option Value))} {base' : Option Value}
    (h : topmost base (above ++ below) = visible base (above ++ below)) (hb : topmost base' below' = visible base' below')
    (hd : some none ∈ above → topmost base below = none → topmost base' below' = none) :
    topmost base' (above ++ below') = visible base' (above ++ below') := by
  by_cases hh : ∃ layer ∈ above, layer ≠ none
  · have hvs : visible base (above ++ below) = visible base' (above ++ below') := visible_append_of_heard hh base' below below'
    rcases topmost_none_of_visible hh h with ⟨value,htp,hv⟩ | ⟨htp,hv,hlw⟩
    · rw [topmost_append,htp,some_or,← hvs,hv]
    have hm : some none ∈ above := by
      obtain ⟨layer,hl,hne⟩ := hh
      rcases layer with _ | _ | value
      · exact absurd rfl hne
      · exact hl
      exfalso
      obtain ⟨front,back,rfl⟩ := append_of_mem hl
      rw [topmost_append,show topmost none (some (some value) :: back) = some value from rfl] at htp
      cases hf : topmost none front <;> simp [hf] at htp
    rw [topmost_append,htp,none_or,hd hm hlw,← hvs,hv]
  · have hs : ∀ layer ∈ above, layer = none := by
      intro layer hl
      by_contra hne
      exact hh ⟨layer,hl,hne⟩
    rw [topmost_append_of_silent hs,visible_append_of_silent hs]
    exact hb

end HeliosNano.Foundation.Overlay
