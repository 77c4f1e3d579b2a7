import Mathlib.Data.List.Perm.Basic

/-! Joins of two lists under a condition, with the unmatched elements of the preserved sides,
and which conditions may be checked on one side beforehand. -/
namespace HeliosNano.Foundation.Joins
open List
variable {α β : Type}

/-- The pairs of one left element; `(l, none)` when it is preserved and has none. -/
def matchesOf (keepLeft : Bool) (p : α → β → Bool) (rs : List β) (l : α) : List (Option α × Option β) :=
  if keepLeft && (rs.filter (p l)).isEmpty then [(some l,none)]
  else (rs.filter (p l)).map fun r => (some l,some r)

/-- The right elements without a partner. -/
def unmatched (p : α → β → Bool) (ls : List α) (rs : List β) : List β := rs.filter fun r => ls.all fun l => !p l r

def join (keepLeft keepRight : Bool) (p : α → β → Bool) (ls : List α) (rs : List β) : List (Option α × Option β) :=
  ls.flatMap (matchesOf keepLeft p rs) ++ if keepRight then (unmatched p ls rs).map fun r => (none,some r) else []

section
variable {keepLeft keepRight : Bool} {p p' : α → β → Bool} {a : α → Bool} {b : β → Bool} {ls : List α} {rs : List β}

theorem mem_unmatched {r : β} : r ∈ unmatched p ls rs ↔ r ∈ rs ∧ ∀ l ∈ ls, p l r = false := by
  simp [unmatched]

variable (h : ∀ l ∈ ls, ∀ r ∈ rs, p l r = p' l r)
include h

theorem matchesOf_congr {l : α} (hl : l ∈ ls) : matchesOf keepLeft p rs l = matchesOf keepLeft p' rs l := by
  have hf : rs.filter (p l) = rs.filter (p' l) := filter_congr fun r hr => h l hl r hr
  rw [matchesOf,hf,matchesOf]

theorem join_congr : join keepLeft keepRight p ls rs = join keepLeft keepRight p' ls rs := by
  have hlf : ls.flatMap (matchesOf keepLeft p rs) = ls.flatMap (matchesOf keepLeft p' rs) := by
    rw [List.flatMap,List.flatMap,map_congr_left fun l hl => matchesOf_congr h hl]
  have hrt : unmatched p ls rs = unmatched p' ls rs := by
    refine filter_congr fun r hr => ?_
    rw [Bool.eq_iff_iff,all_eq_true,all_eq_true]
    exact forall₂_congr fun l hl => by rw [h l hl r hr]
  rw [join,hlf,hrt,join]

omit h

variable {pair : Option α × Option β}

theorem mem_of_mem_join (h : pair ∈ join keepLeft keepRight p ls rs) :
    (∀ l, pair.1 = some l → l ∈ ls) ∧ ∀ r, pair.2 = some r → r ∈ rs := by
  rcases mem_append.mp h with hlf | hrt
  · obtain ⟨l,hl,hp⟩ := mem_flatMap.mp hlf
    rw [matchesOf] at hp
    split at hp
    · rw [mem_singleton.mp hp]
      simp [hl]
    · obtain ⟨r,hr,rfl⟩ := mem_map.mp hp
      simp [hl,(mem_filter.mp hr).1]
  · split at hrt
    · obtain ⟨r,hr,rfl⟩ := mem_map.mp hrt
      simp [(mem_unmatched.mp hr).1]
    · cases hrt

theorem flatMap_filter {γ : Type} {f g : α → List γ} {ls : List α} (hk : ∀ l ∈ ls, a l = true → f l = g l)
    (hd : ∀ l ∈ ls, a l = false → f l = []) : ls.flatMap f = (ls.filter a).flatMap g := by
  induction ls with
  | nil => rfl
  | cons l rest ih =>
    specialize ih (fun l hl => hk l (mem_cons_of_mem _ hl)) (fun l hl => hd l (mem_cons_of_mem _ hl))
    rw [flatMap_cons,ih]
    cases ha : a l with
    | true => rw [filter_cons_of_pos ha,flatMap_cons,hk l mem_cons_self ha]
    | false => rw [filter_cons_of_neg (by simp [ha]),hd l mem_cons_self ha,nil_append]

theorem join_filter_left (hal : keepLeft = true → ∀ l ∈ ls, a l = true) (h : ∀ l ∈ ls, ∀ r ∈ rs, p l r = (a l && p' l r)) :
    join keepLeft keepRight p ls rs = join keepLeft keepRight p' (ls.filter a) rs := by
  have hkp : ∀ l ∈ ls, a l = true → matchesOf keepLeft p rs l = matchesOf keepLeft p' rs l := by
    intro l hl ha
    have hf : rs.filter (p l) = rs.filter (p' l) := filter_congr fun r hr => by rw [h l hl r hr,ha,Bool.true_and]
    rw [matchesOf,hf,matchesOf]
  have hd : ∀ l ∈ ls, a l = false → matchesOf keepLeft p rs l = [] := by
    intro l hl ha
    have hf : rs.filter (p l) = [] := filter_eq_nil_iff.mpr fun r hr => by rw [h l hl r hr,ha]; simp
    have hk : keepLeft = false := by
      cases keepLeft
      · rfl
      · rw [hal rfl l hl] at ha
        cases ha
    rw [matchesOf,hf,hk]
    rfl
  have hrt : unmatched p ls rs = unmatched p' (ls.filter a) rs := by
    refine filter_congr fun r hr => ?_
    rw [all_filter,Bool.eq_iff_iff,all_eq_true,all_eq_true]
    refine forall₂_congr fun l hl => ?_
    rw [h l hl r hr]
    cases a l <;> simp
  rw [join,flatMap_filter hkp hd,hrt,join]

theorem join_filter_right (ha : keepRight = true → ∀ r ∈ rs, b r = true) (h : ∀ l ∈ ls, ∀ r ∈ rs, p l r = (b r && p' l r)) :
    join keepLeft keepRight p ls rs = join keepLeft keepRight p' ls (rs.filter b) := by
  have hlf : ∀ l ∈ ls, matchesOf keepLeft p rs l = matchesOf keepLeft p' (rs.filter b) l := by
    intro l hl
    have hf : rs.filter (p l) = (rs.filter b).filter (p' l) := by
      rw [filter_filter]
      exact filter_congr fun r hr => by rw [h l hl r hr,Bool.and_comm]
    rw [matchesOf,hf,matchesOf]
  have hrt : keepRight = true → unmatched p ls rs = unmatched p' ls (rs.filter b) := by
    intro hk
    rw [filter_eq_self.mpr (ha hk)]
    refine filter_congr fun r hr => ?_
    rw [Bool.eq_iff_iff,all_eq_true,all_eq_true]
    exact forall₂_congr fun l hl => by rw [h l hl r hr,ha hk r hr,Bool.true_and]
  rw [join,join,List.flatMap,List.flatMap,map_congr_left hlf]
  cases keepRight
  · rfl
  · rw [hrt rfl]

theorem matchesOf_fst {l : α} (h : pair ∈ matchesOf keepLeft p rs l) : pair.1 = some l := by
  rw [matchesOf] at h
  split at h
  · rw [mem_singleton.mp h]
  · obtain ⟨r,-,rfl⟩ := mem_map.mp h
    rfl

theorem keepRight_of_fst_none (h : pair ∈ join keepLeft keepRight p ls rs) (hn : pair.1 = none) : keepRight = true := by
  rcases mem_append.mp h with hl | hrt
  · obtain ⟨l,-,hp⟩ := mem_flatMap.mp hl
    rw [matchesOf_fst hp] at hn
    cases hn
  · cases keepRight
    · cases hrt
    · rfl

theorem keepLeft_of_snd_none (h : pair ∈ join keepLeft keepRight p ls rs) (hn : pair.2 = none) : keepLeft = true := by
  rcases mem_append.mp h with hl | hrt
  · obtain ⟨l,-,hp⟩ := mem_flatMap.mp hl
    cases keepLeft
    · obtain ⟨r,-,rfl⟩ := mem_map.mp hp
      cases hn
    · rfl
  · split at hrt
    · obtain ⟨r,-,rfl⟩ := mem_map.mp hrt
      cases hn
    · cases hrt

theorem join_tested_left (hal : keepRight = true → ∀ l ∈ ls, a l = true) :
    join keepLeft keepRight p (ls.filter a) rs = (join keepLeft keepRight p ls rs).filter fun pair => pair.1.all a := by
  cases keepRight with
  | true =>
    have hsame : ls.filter a = ls := filter_eq_self.mpr (hal rfl)
    rw [hsame]
    refine (filter_eq_self.mpr fun pair hp => ?_).symm
    obtain ⟨hl,-⟩ := mem_of_mem_join hp
    cases hf : pair.1 with
    | none => rfl
    | some l => exact hal rfl l (hl l hf)
  | false =>
    simp only [join,Bool.false_eq_true,if_false,append_nil,filter_flatMap]
    refine (flatMap_filter (fun l _ ha => ?_) (fun l _ ha => ?_)).symm
    · refine filter_eq_self.mpr fun pair hp => ?_
      rw [matchesOf_fst hp]
      exact ha
    · refine filter_eq_nil_iff.mpr fun pair hp => ?_
      rw [matchesOf_fst hp,Option.all_some,ha]
      exact Bool.false_ne_true

theorem join_tested_right (ha : keepLeft = true → ∀ r ∈ rs, b r = true) :
    join keepLeft keepRight p ls (rs.filter b) = (join keepLeft keepRight p ls rs).filter fun pair => pair.2.all b := by
  cases keepLeft with
  | true =>
    have hsame : rs.filter b = rs := filter_eq_self.mpr (ha rfl)
    rw [hsame]
    refine (filter_eq_self.mpr fun pair hp => ?_).symm
    obtain ⟨-,hr⟩ := mem_of_mem_join hp
    cases hs : pair.2 with
    | none => rfl
    | some r => exact ha rfl r (hr r hs)
  | false =>
    have hm : ∀ l, matchesOf false p (rs.filter b) l = (matchesOf false p rs l).filter fun pair => pair.2.all b := by
      intro l
      simp only [matchesOf,Bool.false_and,Bool.false_eq_true,if_false,filter_map,filter_filter]
      refine congrArg _ (filter_congr fun r _ => ?_)
      exact Bool.and_comm _ _
    have hu : ((unmatched p ls (rs.filter b)).map fun r => ((none,some r) : Option α × Option β)) =
        ((unmatched p ls rs).map fun r => (none,some r)).filter fun pair => pair.2.all b := by
      simp only [unmatched,filter_map,filter_filter]
      refine congrArg _ (filter_congr fun r _ => ?_)
      exact Bool.and_comm _ _
    rw [join,join,filter_append,filter_flatMap,funext hm]
    cases keepRight
    · rfl
    · rw [if_pos rfl,if_pos rfl,hu]

end
section
variable {γ : Type} {f g : α → List β} {c : α → β → γ} {ls : List α}

theorem filter_perm_filter_iff {p q : α → Bool} : (ls.filter p).Perm (ls.filter q) ↔ ∀ l ∈ ls, p l = q l := by
  refine ⟨fun h l hl => ?_,fun h => .of_eq (filter_congr h)⟩
  have hm : l ∈ ls.filter p ↔ l ∈ ls.filter q := h.mem_iff
  rw [mem_filter,mem_filter,and_iff_right hl,and_iff_right hl] at hm
  exact Bool.eq_iff_iff.mpr hm

theorem perm_flatMap_iff (hc : ∀ a ∈ ls, ∀ a' ∈ ls, ∀ b b', c a b = c a' b' → a = a' ∧ b = b') :
    (ls.flatMap fun a => (f a).map (c a)).Perm (ls.flatMap fun a => (g a).map (c a)) ↔ ∀ a ∈ ls, (f a).Perm (g a) := by
  classical
  refine ⟨fun h a ha => perm_iff_count.mpr fun b => ?_,fun h => .flatMap_left ls fun a ha => (h a ha).map (c a)⟩
  have hn (F : α → List β) (as : List α) (has : ∀ a' ∈ as, a' ∈ ls) :
      (as.flatMap fun a' => (F a').map (c a')).count (c a b) = as.count a * (F a).count b := by
    induction as with
    | nil => simp
    | cons a' as ih =>
      obtain ⟨ha',has⟩ := forall_mem_cons.mp has
      rw [flatMap_cons,count_append,ih has,count_cons]
      by_cases he : a' = a
      · subst he
        have hb : ((F a').map (c a')).count (c a' b) = (F a').count b := by
          rw [count,countP_map,count]
          refine countP_congr fun x _ => ?_
          simp only [Function.comp_apply,beq_iff_eq]
          exact ⟨fun hx => (hc a' ha' a' ha' x b hx).2,fun hx => by rw [hx]⟩
        rw [hb,if_pos (beq_self_eq_true a'),Nat.add_mul,Nat.one_mul,Nat.add_comm]
      · have h0 : ((F a').map (c a')).count (c a b) = 0 := by
          rw [count_eq_zero]
          intro hm
          obtain ⟨x,-,hx⟩ := mem_map.mp hm
          exact he (hc a' ha' a ha x b hx).1
        rw [h0,if_neg (by simpa using he),Nat.zero_add,Nat.add_zero]
  refine Nat.eq_of_mul_eq_mul_left (count_pos_iff.mpr ha) ?_
  rw [← hn f ls fun _ h => h,← hn g ls fun _ h => h]
  exact h.count_eq _

end
end HeliosNano.Foundation.Joins
