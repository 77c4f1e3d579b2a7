import Mathlib.Data.List.Induction

namespace HeliosNano.Foundation
open List Option
variable {α : Type} [DecidableEq α]

def stripPrefix (lead list : List α) : Option (List α) :=
  if lead <+: list then some (list.drop lead.length) else none

/-- The parts before and after the first separator. -/
def splitFirst (sep : α) : List α → Option (List α × List α)
  | [] => none
  | a::rest => if a = sep then some ([],rest) else (splitFirst sep rest).map fun parts => (a::parts.1,parts.2)

/-- The parts before and after the last separator. -/
def splitLast (sep : α) : List α → Option (List α × List α)
  | [] => none
  | a::rest =>
    match splitLast sep rest with
    | some parts => some (a::parts.1,parts.2)
    | none => if a = sep then some ([],rest) else none

/-- `replaceAll` inside a list of which the given number of elements is already replaced. -/
def replaceFrom (pattern new : List α) : Nat → List α → List α
  | _, [] => []
  | skip+1, _::rest => replaceFrom pattern new skip rest
  | 0, a::rest =>
    if pattern <+: a::rest then new ++ replaceFrom pattern new (pattern.length-1) rest
    else a :: replaceFrom pattern new 0 rest

/-- Every occurrence of a nonempty pattern replaced, from the left, without overlaps. -/
def replaceAll (pattern new list : List α) : List α := replaceFrom pattern new 0 list

theorem stripPrefix_append (lead rest : List α) : stripPrefix lead (lead ++ rest) = some rest := by
  rw [stripPrefix,if_pos (prefix_append lead rest),drop_left]

variable {list lead : List α} {sep : α} {first second : List α}

theorem stripPrefix_eq_some {rest : List α} (h : stripPrefix lead list = some rest) : list = lead ++ rest := by
  rw [stripPrefix] at h
  split at h
  next hp =>
    obtain ⟨tail,rfl⟩ := hp
    rw [drop_left,some.injEq] at h
    rw [h]
  · cases h

theorem splitFirst_append (h : sep ∉ first) (second : List α) :
    splitFirst sep (first ++ sep::second) = some (first,second) := by
  induction first with
  | nil => simp [splitFirst]
  | cons a rest ih =>
    rw [mem_cons,not_or] at h
    rw [cons_append,splitFirst,if_neg (Ne.symm h.1),ih h.2]
    rfl

theorem splitFirst_eq_some (h : splitFirst sep list = some (first,second)) : list = first ++ sep::second ∧ sep ∉ first := by
  induction list generalizing first with
  | nil => cases h
  | cons a rest ih =>
    rw [splitFirst] at h
    split at h
    next ha =>
      cases h
      exact ⟨by rw [ha]; rfl,not_mem_nil⟩
    next ha =>
      obtain ⟨parts,hp,heq⟩ := map_eq_some_iff.mp h
      cases heq
      obtain ⟨hrest,hm⟩ := ih hp
      exact ⟨by rw [cons_append,← hrest],mem_cons.not.mpr (not_or.mpr ⟨Ne.symm ha,hm⟩)⟩

theorem splitFirst_of_mem (h : sep ∈ first) (second : List α) :
    ∃ before after, splitFirst sep (first ++ sep::second) = some (before,after) ∧ sep ∈ after := by
  induction first with
  | nil => simp at h
  | cons a rest ih =>
    by_cases ha : a = sep
    · exact ⟨[],rest ++ sep::second,by simp [splitFirst,ha],by simp⟩
    · have hr : sep ∈ rest := (mem_cons.mp h).resolve_left (Ne.symm ha)
      obtain ⟨before,after,hs,hm⟩ := ih hr
      exact ⟨a::before,after,by rw [cons_append,splitFirst,if_neg ha,hs]; rfl,hm⟩

theorem splitLast_eq_none : splitLast sep list = none ↔ sep ∉ list := by
  induction list with
  | nil => simp [splitLast]
  | cons a rest ih =>
    rw [splitLast,mem_cons,not_or,← ih]
    cases splitLast sep rest with
    | some parts => simp
    | none => simp [eq_comm]

theorem splitLast_append (sep : α) (first : List α) (h : sep ∉ second) :
    splitLast sep (first ++ sep::second) = some (first,second) := by
  induction first with
  | nil => simp [splitLast,splitLast_eq_none.mpr h]
  | cons a rest ih => rw [cons_append,splitLast,ih]

theorem splitLast_eq_some (h : splitLast sep list = some (first,second)) : list = first ++ sep::second ∧ sep ∉ second := by
  induction list generalizing first with
  | nil => cases h
  | cons a rest ih =>
    rw [splitLast] at h
    split at h
    next parts hp =>
      simp only [some.injEq,Prod.mk.injEq] at h
      obtain ⟨rfl,rfl⟩ := h
      obtain ⟨hrest,hm⟩ := ih hp
      exact ⟨by rw [cons_append,← hrest],hm⟩
    next hn =>
      split at h
      next ha =>
        simp only [some.injEq,Prod.mk.injEq] at h
        obtain ⟨rfl,rfl⟩ := h
        exact ⟨by rw [ha]; rfl,splitLast_eq_none.mp hn⟩
      · cases h

theorem append_sep_inj {first' second' : List α} (h : sep ∉ second) (h' : sep ∉ second')
    (heq : first ++ sep::second = first' ++ sep::second') : first = first' ∧ second = second' := by
  have hs := splitLast_append sep first h
  rw [heq,splitLast_append sep first' h'] at hs
  simp only [some.injEq,Prod.mk.injEq] at hs
  exact ⟨hs.1.symm,hs.2.symm⟩

omit [DecidableEq α] in
theorem prefix_sep_shrink (h : sep ∉ second)
    (hp : lead ++ [sep] <+: first ++ sep::second) : lead ++ [sep] <+: first ++ [sep] := by
  obtain ⟨rest,hrest⟩ := hp
  have heq : lead ++ [sep] ++ rest = (first ++ [sep]) ++ second := by
    rw [hrest,append_assoc,singleton_append]
  rcases append_eq_append_iff.mp heq with ⟨tail,htl,-⟩ | ⟨tail,htl,hs⟩
  · exact ⟨tail,htl.symm⟩
  cases tail using List.reverseRecOn with
  | nil =>
    rw [append_nil] at htl
    exact htl ▸ prefix_rfl
  | append_singleton tail last =>
    -- The lead would end inside the last part, on a separator.
    rw [← append_assoc] at htl
    obtain ⟨-,hl⟩ := append_inj' htl rfl
    rw [singleton_inj] at hl
    exact absurd (by simp [hs,hl]) h

omit [DecidableEq α] in
theorem prefix_sep_cases (hp : lead ++ [sep] <+: first ++ [sep]) : lead = first ∨ lead ++ [sep] <+: first := by
  rcases prefix_concat_iff.mp hp with heq | hp
  · exact .inl (append_cancel_right heq)
  · exact .inr hp

end HeliosNano.Foundation
