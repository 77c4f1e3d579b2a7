import HeliosNano.Storage.Art.Layout
import Mathlib.Algebra.BigOperators.Fin
import Mathlib.Tactic.Abel

namespace HeliosNano.Storage.Art
open Foundation List Function Option KeyedNode
variable {α : Type}

theorem set_append_length {β : Type} (before after : List β) (x y : β) :
    (before ++ x::after).set before.length y = before ++ y::after := by
  simp

theorem swapRemove_perm {β : Type} (before after : List β) (x : β) :
    (swapRemove (before ++ x::after) before.length).Perm (before ++ after) := by
  cases after using List.reverseRecOn with
  | nil => simp [swapRemove]
  | append_singleton after last =>
    have hs : before ++ x::(after ++ [last]) = (before ++ x::after) ++ [last] := by simp
    have hl : (before ++ x::(after ++ [last])).getLast? = some last := by
      rw [hs,getLast?_concat]
    have hd : ((before ++ last::after) ++ [last]).dropLast = before ++ last::after := dropLast_concat
    have hst : (before ++ x::(after ++ [last])).set before.length last = (before ++ last::after) ++ [last] := by
      rw [set_append_length]
      simp
    rw [swapRemove,hl]
    dsimp only
    rw [hst,hd]
    refine List.Perm.append_left before ?_
    exact (perm_append_singleton last after).symm

theorem sum_update_add {ι M : Type*} [Fintype ι] [DecidableEq ι] [AddCommMonoid M] (f : ι → M) (i : ι) (x : M) :
    (∑ j, Function.update f i x j) + f i = (∑ j, f j)+x := by
  have hf : ∑ j, f j = f i + ∑ j ∈ Finset.univ \ {i}, f j :=
    Finset.sum_eq_add_sum_sdiff_singleton_of_mem (Finset.mem_univ i) f
  rw [Finset.sum_update_of_mem (Finset.mem_univ i),hf]
  abel

def childCount (g : Byte → Option α) : Nat := ∑ b, (g b).isSome.toNat

theorem childCount_update (g : Byte → Option α) (b : Byte) (x : Option α) :
    childCount (Function.update g b x) + (g b).isSome.toNat = childCount g + x.isSome.toNat := by
  have hs := sum_update_add (fun b' => (g b').isSome.toNat) b x.isSome.toNat
  have hc : (fun b' => (Function.update g b x b').isSome.toNat) =
      Function.update (fun b' => (g b').isSome.toNat) b x.isSome.toNat :=
    comp_update (fun child : Option α => child.isSome.toNat) g b x
  rw [childCount,hc]
  exact hs

structure Enumerates (entries : List (Byte × α)) (g : Byte → Option α) : Prop where
  distinct : (entries.map (·.1)).Nodup
  mem : ∀ b child, g b = some child ↔ (b,child) ∈ entries

section
variable {entries entries' before after : List (Byte × α)} {g g' : Byte → Option α} {b : Byte} {child : α}

theorem Enumerates.eq_of_perm (h : Enumerates entries g) (h' : Enumerates entries' g') (hp : entries.Perm entries') : g = g' := by
  funext b
  refine Option.ext fun child => ?_
  rw [h.mem,h'.mem,hp.mem_iff]

theorem Enumerates.eq_none_iff (h : Enumerates entries g) : g b = none ↔ b ∉ entries.map (·.1) := by
  rw [eq_none_iff_forall_ne_some]
  constructor
  · intro hno hm
    obtain ⟨⟨b',child⟩,he,rfl⟩ := mem_map.mp hm
    exact hno child ((h.mem _ _).mpr he)
  · intro hno child hg
    exact hno (mem_map.mpr ⟨_,(h.mem _ _).mp hg,rfl⟩)

theorem Enumerates.concat (h : Enumerates entries g) (hb : g b = none) (child : α) :
    Enumerates (entries ++ [(b,child)]) (Function.update g b (some child)) := by
  have hno := h.eq_none_iff.mp hb
  constructor
  · rw [map_append,nodup_append]
    refine ⟨h.distinct,by simp,fun b₁ h₁ b₂ h₂ heq => hno ?_⟩
    have hb₂ : b₂ = b := by simpa using h₂
    rw [← hb₂,← heq]
    exact h₁
  · intro b' child'
    rw [mem_append,mem_singleton,Prod.mk.injEq]
    by_cases hbb : b' = b
    · subst hbb
      rw [update_self,some.injEq,← h.mem,hb]
      simp [eq_comm]
    · rw [update_of_ne hbb,h.mem]
      simp [hbb]

variable (h : Enumerates (before ++ (b,child)::after) g)
include h

theorem Enumerates.notMem_sides : (∀ c, (b,c) ∉ before) ∧ ∀ c, (b,c) ∉ after := by
  have hd := h.distinct
  rw [map_append,map_cons,nodup_append,nodup_cons] at hd
  exact ⟨fun c hc => hd.2.2 _ (mem_map_of_mem hc) _ mem_cons_self rfl,fun c hc => hd.2.1.1 (mem_map_of_mem (f := (·.1)) hc)⟩

theorem Enumerates.replace (child' : α) : Enumerates (before ++ (b,child')::after) (Function.update g b (some child')) := by
  obtain ⟨hb,ha⟩ := h.notMem_sides
  refine ⟨by simpa using h.distinct,fun b' c' => ?_⟩
  by_cases hbb : b' = b
  · subst hbb
    rw [update_self]
    simp [hb,ha,eq_comm]
  · rw [update_of_ne hbb,h.mem]
    simp [hbb]

theorem Enumerates.erase : Enumerates (before ++ after) (Function.update g b none) := by
  obtain ⟨hb,ha⟩ := h.notMem_sides
  constructor
  · refine h.distinct.sublist (List.Sublist.map _ ?_)
    exact List.Sublist.append_left (sublist_cons_self _ _) before
  · intro b' c'
    by_cases hbb : b' = b
    · subst hbb
      rw [update_self]
      simp [hb,ha]
    · rw [update_of_ne hbb,h.mem]
      simp [hbb]

omit h

theorem Enumerates.length_eq (h : Enumerates entries g) : entries.length = childCount g := by
  induction entries using List.reverseRecOn generalizing g with
  | nil =>
    have hg : g = fun _ => none := by
      funext b
      exact h.eq_none_iff.mpr (by simp)
    simp [hg,childCount]
  | append_singleton rest last ih =>
    obtain ⟨b,child⟩ := last
    have hrest : Enumerates (rest ++ []) (Function.update g b none) := h.erase
    rw [append_nil] at hrest
    have hgt : g b = some child := (h.mem _ _).mpr (by simp)
    have hc := childCount_update g b none
    have hl := ih hrest
    simp only [hgt,isSome_some,Bool.toNat_true,isSome_none,Bool.toNat_false,Nat.add_zero] at hc
    rw [length_append,length_singleton]
    omega

end

theorem enumerates_iterBytes (g : Byte → Option α) : Enumerates (iterBytes g) g := by
  constructor
  · have hm : (iterBytes g).map (·.1) = (List.finRange 256).filter fun b => (g b).isSome := by
      rw [iterBytes,map_filterMap,← filterMap_eq_filter]
      refine filterMap_congr fun b _ => ?_
      cases hb : g b with
      | none | some child => simp [Option.guard,hb]
    rw [hm]
    exact (nodup_finRange 256).filter _
  · intro b child
    simp [iterBytes]

/-- The node holds the entries in its first slots; the other slots are empty. -/
structure KeyedNode.Holds (capacity : Nat) (n : KeyedNode α) (entries : List (Byte × α)) : Prop where
  fits : entries.length ≤ capacity
  distinct : (entries.map (·.1)).Nodup
  count : n.header.numChildren = entries.length
  keys : ∃ stale, n.keys = entries.map (·.1) ++ stale ∧ stale.length = capacity-entries.length
  children : n.children =
    entries.map (fun entry => some entry.2) ++ List.replicate (capacity-entries.length) none

section
variable {capacity : Nat} {n : KeyedNode α} {entries before after : List (Byte × α)} {key : Byte} {child : α}

theorem KeyedNode.Holds.findChildIndex (h : n.Holds capacity entries) (key : Byte) :
    n.findChildIndex key = (entries.map (·.1)).idxOf? key := by
  obtain ⟨stale,hk,-⟩ := h.keys
  have htk : n.keys.take n.header.numChildren = entries.map (·.1) := by
    rw [hk,h.count,take_left' (by simp)]
  rw [KeyedNode.findChildIndex,htk]

variable (h : n.Holds capacity (before ++ (key,child)::after))
include h

theorem KeyedNode.Holds.findChildIndex_split : n.findChildIndex key = some before.length := by
  have hd := h.distinct
  rw [map_append,map_cons,nodup_append] at hd
  have hno : key ∉ before.map (·.1) := fun hm => hd.2.2 _ hm _ mem_cons_self rfl
  rw [h.findChildIndex,map_append,map_cons,idxOf?_eq_some_iff]
  refine ⟨by simp,by simp,fun j hj => ?_⟩
  have hj' : j < (before.map (·.1)).length := by simpa using hj
  rw [getElem_append_left hj']
  intro heq
  exact hno (by rw [← (by simpa using heq : (before.map (·.1))[j] = key)]; exact getElem_mem hj')

omit h in
theorem KeyedNode.Holds.findChildIndex_none (h : n.Holds capacity entries) (hno : key ∉ entries.map (·.1)) :
    n.findChildIndex key = none := by
  rw [h.findChildIndex,idxOf?_eq_none_iff]
  exact hno

theorem KeyedNode.Holds.children_split : n.children = before.map (fun entry => some entry.2) ++ some child ::
      (after.map (fun entry => some entry.2) ++ List.replicate (capacity - (before ++ (key,child)::after).length) none) := by
  rw [h.children,map_append,map_cons]
  simp

omit h in
theorem KeyedNode.Holds.enumerates (h : n.Holds capacity entries) : Enumerates entries n.getChild := by
  refine ⟨h.distinct,fun key child => ?_⟩
  have hf : ∀ child', (key,child') ∈ entries → n.getChild key = some child' := by
    intro child' he
    obtain ⟨before,after,rfl,-⟩ := exists_split_of_nodup_keys h.distinct he
    rw [getChild,h.findChildIndex_split,bind_some,h.children_split,
      getElem?_append_right (by simp)]
    simp
  constructor
  · intro hg
    by_cases hm : key ∈ entries.map (·.1)
    · obtain ⟨⟨key',child'⟩,he,rfl⟩ := mem_map.mp hm
      rw [hf child' he,some.injEq] at hg
      rw [← hg]
      exact he
    · rw [getChild,h.findChildIndex_none hm] at hg
      cases hg
  · exact hf child

theorem KeyedNode.Holds.setChild (child' : α) : (n.setChild key child').Holds capacity (before ++ (key,child')::after) := by
  have hst : n.setChild key child' = { n with children := n.children.set before.length (some child') } := by
    rw [KeyedNode.setChild,h.findChildIndex_split]
  obtain ⟨stale,hk,hs⟩ := h.keys
  rw [hst]
  refine ⟨by simpa using h.fits,by simpa using h.distinct,by simpa using h.count,⟨stale,by simpa using hk,
    by simpa using hs⟩,?_⟩
  have hl : before.length = (before.map (fun entry => some entry.2)).length := by simp
  dsimp only
  rw [h.children_split,hl,set_append_length]
  simp

omit h in
theorem KeyedNode.Holds.addChild (h : n.Holds capacity entries) (hr : entries.length < capacity)
    (hno : key ∉ entries.map (·.1)) (child : α) :
    (n.addChild capacity key child).1.Holds capacity (entries ++ [(key,child)]) := by
  have hf : n.isFull capacity = false := by simp [KeyedNode.isFull,h.count,hr]
  obtain ⟨stale,hk,hs⟩ := h.keys
  obtain ⟨gap,hg⟩ : ∃ gap, capacity-entries.length = gap+1 := ⟨capacity-entries.length - 1,by omega⟩
  rw [KeyedNode.addChild,if_neg (by simp [hf])]
  refine ⟨by rw [length_append]; exact hr,?_,by simp [h.count],?_,?_⟩
  · rw [map_append,nodup_append]
    exact ⟨h.distinct,by simp,fun a ha b hb heq => hno (by simp at hb; rw [← hb,← heq]; exact ha)⟩
  · cases stale with
    | nil => simp [hg] at hs
    | cons first stale =>
      refine ⟨stale,?_,?_⟩
      · have hl : n.header.numChildren = (entries.map (·.1)).length := by simp [h.count]
        dsimp only
        rw [hk,hl,set_append_length]
        simp
      · simp only [length_append,length_cons,length_nil] at hs ⊢
        omega
  · have hl : n.header.numChildren = (entries.map (fun entry => some entry.2)).length := by simp [h.count]
    have hrest : capacity - (entries ++ [(key,child)]).length = gap := by
      simp only [length_append,length_cons,length_nil]
      omega
    dsimp only
    rw [h.children,hg,replicate_succ,hl,set_append_length,hrest]
    simp

theorem KeyedNode.Holds.removeChild :
    ∃ entries, entries.Perm (before ++ after) ∧ (n.removeChild key).Holds capacity entries := by
  obtain ⟨stale,hky,hst⟩ := h.keys
  have hcn := h.count
  have hf := h.fits
  have hd : ((before ++ after).map (·.1)).Nodup := by
    refine h.distinct.sublist (List.Sublist.map _ ?_)
    exact List.Sublist.append_left (sublist_cons_self _ _) before
  have hch := h.children_split
  simp only [length_append,length_cons] at hcn hf hst
  cases after using List.reverseRecOn with
  | nil =>
    refine ⟨before,by simp,?_⟩
    have hls : n.header.numChildren-1 = before.length := by
      rw [hcn]
      simp
    simp only [length_nil,Nat.zero_add] at hcn hf hst
    obtain ⟨gap,hg⟩ : ∃ gap, capacity-before.length = gap+1 := ⟨capacity-before.length - 1,by omega⟩
    rw [removeChild,h.findChildIndex_split]
    simp only [hls,if_true]
    refine ⟨by omega,by simpa using hd,rfl,⟨key::stale,by simpa using hky,?_⟩,?_⟩
    · rw [length_cons]
      omega
    · have hrest : capacity - (before ++ [(key,child)]).length = gap := by
        rw [length_append,length_singleton]
        omega
      have hse : n.children.set before.length none =
          before.map (fun entry => some entry.2) ++ none :: List.replicate gap none := by
        have hl : before.length = (before.map (fun entry => some entry.2)).length := by simp
        rw [hch,hl,set_append_length,hrest]
        simp
      dsimp only
      rw [hse,hg,replicate_succ]
  | append_singleton after last =>
    obtain ⟨lastKey,lastChild⟩ := last
    refine ⟨before ++ (lastKey,lastChild)::after,?_,?_⟩
    · exact List.Perm.append_left before (perm_append_singleton _ after).symm
    · simp only [length_append,length_cons,length_nil] at hcn hf hst
      have hls : n.header.numChildren-1 = (before ++ (key,child)::after).length := by
        rw [hcn,length_append,length_cons]
        omega
      have hne : before.length ≠ (before ++ (key,child)::after).length := by
        rw [length_append,length_cons]
        omega
      obtain ⟨gap,hg⟩ : ∃ gap, capacity-(before.length+(after.length+1)) = gap+1 :=
        ⟨capacity-(before.length+(after.length+1)) - 1,by omega⟩
      have hk : n.keys = before.map (·.1) ++ key::(after.map (·.1) ++ lastKey::stale) := by
        rw [hky]
        simp
      have hc : n.children = before.map (fun entry => some entry.2) ++ some child ::
          (after.map (fun entry => some entry.2) ++ some lastChild :: List.replicate gap none) := by
        have hrest : capacity-(before.length+(after.length+1+1)) = gap := by omega
        rw [hch]
        simp [hrest]
      have hlk : (n.keys[(before ++ (key,child)::after).length]?).getD 0 = lastKey := by
        have hs : n.keys = (before.map (·.1) ++ key :: after.map (·.1)) ++ lastKey::stale := by simp [hk]
        rw [hs,getElem?_append_right (by simp)]
        simp
      have hlt : (n.children[(before ++ (key,child)::after).length]?).join = some lastChild := by
        have hs : n.children = (before.map (fun entry => some entry.2) ++ some child ::
            after.map (fun entry => some entry.2)) ++ some lastChild :: List.replicate gap none := by simp [hc]
        rw [hs,getElem?_append_right (by simp)]
        simp
      rw [removeChild,h.findChildIndex_split]
      simp only [hls,if_neg hne,hlk,hlt]
      refine ⟨?_,?_,by simp,⟨lastKey::stale,?_,?_⟩,?_⟩
      · simp only [length_append,length_cons]
        omega
      · refine (List.Perm.nodup_iff ?_).mp hd
        exact (List.Perm.append_left before (perm_append_singleton _ after)).map _
      · have hl : before.length = (before.map (·.1)).length := by simp
        rw [hk,hl,set_append_length]
        simp
      · simp only [length_append,length_cons]
        omega
      · have hl : before.length = (before.map (fun entry => some entry.2)).length := by simp
        have ha : (before ++ (key,child)::after).length = (before.map (fun entry => some entry.2) ++
            some lastChild :: after.map (fun entry => some entry.2)).length := by simp
        have hs : before.map (fun entry => some entry.2) ++ some lastChild ::
            (after.map (fun entry => some entry.2) ++ some lastChild :: List.replicate gap none) =
            (before.map (fun entry => some entry.2) ++ some lastChild :: after.map (fun entry => some entry.2)) ++
              some lastChild :: List.replicate gap none := by simp
        rw [hc,hl,set_append_length,hs,ha,set_append_length]
        simp only [length_append,length_cons,map_append,map_cons,hg,replicate_succ]

omit h

theorem KeyedNode.holds_pack (header : NodeHeader) (hf : entries.length ≤ capacity)
    (hd : (entries.map (·.1)).Nodup) (hc : header.numChildren = entries.length) :
    (pack capacity header entries).Holds capacity entries :=
  ⟨hf,hd,hc,⟨_,rfl,by simp⟩,rfl⟩

theorem KeyedNode.Holds.slots (h : n.Holds capacity entries) : ∃ stale : List Byte,
    n.slots = entries.map (fun entry => (entry.1,some entry.2)) ++ stale.map fun key => (key,none) := by
  obtain ⟨stale,hk,hs⟩ := h.keys
  refine ⟨stale,?_⟩
  have hz : ∀ bytes : List Byte, bytes.zip (List.replicate bytes.length (none : Option α)) =
      bytes.map fun key => (key,none) := by
    intro bytes
    induction bytes with
    | nil => rfl
    | cons key rest ih => simpa [replicate_succ] using ih
  rw [KeyedNode.slots,hk,h.children,zip_append (by simp),zip_map',← hs,hz]

theorem KeyedNode.Holds.iterChildren (h : n.Holds capacity entries) : n.iterChildren = entries := by
  obtain ⟨stale,hs⟩ := h.slots
  rw [KeyedNode.iterChildren,hs,h.count,take_left' (by simp),filterMap_map]
  simp

end
end HeliosNano.Storage.Art
