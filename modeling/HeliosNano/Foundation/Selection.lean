import Mathlib.Data.List.Sort

namespace HeliosNano.Foundation
open List
variable {α : Type}

structure PreordersOn (cmp : α → α → Ordering) (l : List α) : Prop where
  swap : ∀ a ∈ l, ∀ b ∈ l, cmp a b = (cmp b a).swap
  trans : ∀ a ∈ l, ∀ b ∈ l, ∀ c ∈ l, (cmp a b).isLE → (cmp b c).isLE → (cmp a c).isLE

/-- How many elements come strictly before one. -/
def rank (cmp : α → α → Ordering) (l : List α) (a : α) : Nat := (l.filter fun x => cmp x a = .lt).length

namespace PreordersOn
variable {cmp : α → α → Ordering} {l : List α} (h : PreordersOn cmp l) {a b : α} (ha : a ∈ l) (hb : b ∈ l)
include h ha hb

theorem lt_of_lt_of_isLE {x : α} (hx : x ∈ l) (hxa : cmp x a = .lt) (hab : (cmp a b).isLE) : cmp x b = .lt := by
  have hxb := h.trans x hx a ha b hb (by rw [hxa]; rfl) hab
  cases hc : cmp x b with
  | lt => rfl
  | gt =>
    rw [hc] at hxb
    cases hxb
  | eq =>
    have hbx : (cmp b x).isLE := by
      rw [h.swap b hb x hx,hc]
      rfl
    have hax := h.trans a ha b hb x hx hab hbx
    rw [h.swap a ha x hx,hxa] at hax
    cases hax

theorem lower_sublist (hab : (cmp a b).isLE) : (l.filter fun x => cmp x a = .lt).Sublist (l.filter fun x => cmp x b = .lt) := by
  have hs : l.filter (fun x => cmp x a = .lt) = (l.filter fun x => cmp x b = .lt).filter fun x => cmp x a = .lt := by
    rw [filter_filter]
    refine filter_congr fun x hx => ?_
    by_cases hxa : cmp x a = .lt
    · simp [hxa,h.lt_of_lt_of_isLE ha hb hx hxa hab]
    · simp [hxa]
  rw [hs]
  exact filter_sublist

theorem rank_lt (hab : cmp a b = .lt) : rank cmp l a < rank cmp l b := by
  have hs := h.lower_sublist ha hb (by rw [hab]; rfl)
  refine lt_of_le_of_ne hs.length_le fun he => ?_
  have hm : a ∈ l.filter fun x => cmp x a = .lt := by
    rw [hs.eq_of_length he]
    exact mem_filter.mpr ⟨ha,decide_eq_true hab⟩
  have haa := of_decide_eq_true (mem_filter.mp hm).2
  have hsw := h.swap a ha a ha
  rw [haa] at hsw
  cases hsw

theorem cmp_eq_compare_rank : cmp a b = compare (rank cmp l a) (rank cmp l b) := by
  cases hc : cmp a b with
  | lt => exact (compare_lt_iff_lt.mpr (h.rank_lt ha hb hc)).symm
  | gt =>
    have hba : cmp b a = .lt := by rw [h.swap b hb a ha,hc]; rfl
    exact (compare_gt_iff_gt.mpr (h.rank_lt hb ha hba)).symm
  | eq =>
    have hba : cmp b a = .eq := by rw [h.swap b hb a ha,hc]; rfl
    have hab := (h.lower_sublist ha hb (by rw [hc]; rfl)).length_le
    exact (compare_eq_iff_eq.mpr (le_antisymm hab (h.lower_sublist hb ha (by rw [hba]; rfl)).length_le)).symm

end PreordersOn

section
variable {cmp : α → α → Ordering} {r : α → Nat} {l heap : List α}

def Ranked (cmp : α → α → Ordering) (r : α → Nat) (l : List α) : Prop := ∀ a ∈ l, ∀ b ∈ l, cmp a b = compare (r a) (r b)

theorem Ranked.isLE_iff (h : Ranked cmp r l) {a b : α} (ha : a ∈ l) (hb : b ∈ l) : (cmp a b).isLE ↔ r a ≤ r b := by
  rw [h a ha b hb,Nat.isLE_compare]

theorem Ranked.map_mergeSort (h : Ranked cmp r l) :
    (l.mergeSort fun a b => (cmp a b).isLE).map r = (l.map r).mergeSort fun m n => m ≤ n :=
  List.map_mergeSort fun _ ha _ hb => Bool.eq_iff_iff.mpr ((h.isLE_iff ha hb).trans decide_eq_true_iff.symm)

theorem take_mergeSort {l low high : List Nat} (hp : l.Perm (low ++ high)) (hle : ∀ m ∈ low, ∀ n ∈ high, m ≤ n) :
    (l.mergeSort fun m n => m ≤ n).take low.length = low.mergeSort fun m n => m ≤ n := by
  have hs (k : List Nat) := pairwise_mergeSort' (r := (· ≤ ·)) k
  have hall : l.mergeSort (fun m n => m ≤ n) = low.mergeSort (fun m n => m ≤ n) ++ high.mergeSort fun m n => m ≤ n := by
    refine Perm.eq_of_pairwise' (hs l) (pairwise_append.mpr ⟨hs low,hs high,fun m hm n hn => ?_⟩) ?_
    · exact hle m (mem_mergeSort.mp hm) n (mem_mergeSort.mp hn)
    · exact (mergeSort_perm l _).trans (hp.trans ((mergeSort_perm low _).append (mergeSort_perm high _)).symm)
  rw [hall,← length_mergeSort low]
  exact take_left

theorem forall₂_of_map_eq {R : α → α → Prop} {s t : List α} (h : s.map r = t.map r)
    (hR : ∀ a ∈ s, ∀ b ∈ t, r a = r b → R a b) : Forall₂ R s t := by
  induction s generalizing t with
  | nil =>
    rw [map_eq_nil_iff.mp h.symm]
    exact .nil
  | cons a s ih =>
    obtain ⟨b,t,rfl,hb,ht⟩ := map_eq_cons_iff.mp h.symm
    exact .cons (hR a mem_cons_self b mem_cons_self hb.symm)
      (ih ht.symm fun c hc d hd => hR c (mem_cons_of_mem a hc) d (mem_cons_of_mem b hd))

/-- The kept elements are that many of the least. -/
def Selected (r : α → Nat) (k : Nat) (l heap : List α) : Prop :=
  ∃ left, l.Perm (heap ++ left) ∧ heap.length = min k l.length ∧ ∀ a ∈ heap, ∀ b ∈ left, r a ≤ r b

namespace Selected
variable {k : Nat} (h : Selected r k l heap) {e : α}
include h

theorem push (hlt : heap.length < k) : Selected r k (l ++ [e]) (e::heap) := by
  obtain ⟨left,hp,hl,-⟩ := h
  have hlen := hp.length_eq
  rw [length_append] at hlen
  obtain rfl : left = [] := length_eq_zero_iff.mp (by omega)
  refine ⟨[],?_,?_,nofun⟩
  · rw [append_nil] at hp ⊢
    exact (perm_append_singleton e l).trans (hp.cons e)
  · simp only [length_cons,length_append,length_nil]
    omega

theorem keep (hk : k ≤ heap.length) (hge : ∀ a ∈ heap, r a ≤ r e) : Selected r k (l ++ [e]) heap := by
  obtain ⟨left,hp,hl,hle⟩ := h
  refine ⟨left ++ [e],?_,?_,fun a ha b hb => ?_⟩
  · rw [← append_assoc]
    exact hp.append_right [e]
  · rw [length_append]
    omega
  · rcases mem_append.mp hb with hb | hb
    · exact hle a ha b hb
    · rw [mem_singleton.mp hb]
      exact hge a ha

theorem replace (hk : k ≤ heap.length) {top : α} {rest : List α} (ht : heap.Perm (top::rest)) (hg : ∀ a ∈ rest, r a ≤ r top)
    (hlt : r e < r top) : Selected r k (l ++ [e]) (e::rest) := by
  obtain ⟨left,hp,hl,hle⟩ := h
  have hlen := ht.length_eq
  rw [length_cons] at hlen
  have htop (b : α) (hb : b ∈ left) : r top ≤ r b := hle top (ht.mem_iff.mpr mem_cons_self) b hb
  refine ⟨top::left,?_,?_,fun a ha b hb => ?_⟩
  · refine (perm_append_singleton e l).trans (((hp.trans (ht.append_right left)).cons e).trans ?_)
    exact (perm_middle.symm : (top::(rest ++ left)).Perm (rest ++ top::left)).cons e
  · simp only [length_cons,length_append,length_nil]
    omega
  · have hat : r a ≤ r top := by
      rcases mem_cons.mp ha with rfl | ha
      · exact hlt.le
      · exact hg a ha
    rcases mem_cons.mp hb with rfl | hb
    · exact hat
    · exact hat.trans (htop b hb)

theorem map_mergeSort (hr : Ranked cmp r l) : (heap.mergeSort fun a b => (cmp a b).isLE).map r =
    ((l.mergeSort fun a b => (cmp a b).isLE).take (min k l.length)).map r := by
  obtain ⟨left,hp,hl,hle⟩ := h
  have hsub : Ranked cmp r heap := fun a ha b hb =>
    hr a (hp.mem_iff.mpr (mem_append_left left ha)) b (hp.mem_iff.mpr (mem_append_left left hb))
  rw [hsub.map_mergeSort,map_take,hr.map_mergeSort,← hl,← length_map r]
  refine (take_mergeSort (by rw [← map_append]; exact hp.map r) fun m hm n hn => ?_).symm
  obtain ⟨a,ha,rfl⟩ := mem_map.mp hm
  obtain ⟨b,hb,rfl⟩ := mem_map.mp hn
  exact hle a ha b hb

end Selected
end
end HeliosNano.Foundation
