import HeliosNano.Storage.Art.LayoutSpec

namespace HeliosNano.Storage.Art
open Foundation List Function Option Node48
variable {α : Type}

theorem foldl_set_positions {keys : List Byte} {index : List Nat} (hd : keys.Nodup) (hl : index.length = 256)
    (he : ∀ b : Byte, index[b.val]? = some 255) :
    (keys.zipIdx.foldl (fun index entry => index.set entry.1.val entry.2) index).length = 256 ∧ (∀ i (hi : i < keys.length),
        (keys.zipIdx.foldl (fun index entry => index.set entry.1.val entry.2) index)[keys[i].val]? = some i) ∧
      ∀ b : Byte, b ∉ keys → (keys.zipIdx.foldl (fun index entry => index.set entry.1.val entry.2) index)[b.val]? = some 255 := by
  induction keys using List.reverseRecOn with
  | nil => exact ⟨hl,fun i hi => absurd hi (Nat.not_lt_zero i),fun b _ => he b⟩
  | append_singleton rest key ih =>
    rw [nodup_append] at hd
    obtain ⟨hl,hp,ho⟩ := ih hd.1
    have hno : ∀ b ∈ rest, b.val ≠ key.val := fun b hb heq => hd.2.2 b hb key (by simp) (Fin.ext heq)
    simp only [zipIdx_append,foldl_append,zipIdx_singleton,foldl_cons,foldl_nil]
    refine ⟨by rw [length_set]; exact hl,fun i hi => ?_,fun b hb => ?_⟩
    · by_cases hlt : i < rest.length
      · rw [getElem_append_left hlt,getElem?_set_ne (Ne.symm (hno _ (getElem_mem hlt)))]
        exact hp i hlt
      have hi' : i = rest.length := by
        rw [length_append,length_singleton] at hi
        omega
      subst hi'
      rw [getElem_concat_length rfl,getElem?_set_self (by rw [hl]; exact key.isLt)]
      simp
    · rw [mem_append,mem_singleton,not_or] at hb
      rw [getElem?_set_ne fun heq => hb.2 (Fin.ext heq.symm)]
      exact ho b hb.1

structure Node48.Wf (n : Node48 α) : Prop where
  indexLength : n.childIndex.length = 256
  slotsLength : n.children.length = 48
  filled : ∀ b, n.slot b ≠ 255 → ∃ child, n.children[n.slot b]? = some (some child)
  injective : ∀ b b', n.slot b ≠ 255 → n.slot b = n.slot b' → b = b'
  countSlots : n.children.countP (·.isSome) = n.header.numChildren
  count : n.header.numChildren = childCount n.getChild

section
variable {n : Node48 α} {key : Byte} {child : α}

theorem Node48.getChild_of_slot (h : n.slot key ≠ 255) : n.getChild key = (n.children[n.slot key]?).join := by
  rw [getChild,if_pos h]

theorem Node48.Wf.getChild_eq_none_iff (h : n.Wf) : n.getChild key = none ↔ n.slot key = 255 := by
  constructor
  · intro hg
    by_contra hs
    obtain ⟨child,hc⟩ := h.filled key hs
    rw [getChild_of_slot hs,hc] at hg
    cases hg
  · intro hs
    rw [getChild,if_neg (by simp [hs])]

theorem Node48.slot_set (key : Byte) (hl : n.childIndex.length = 256) (i : Nat) (header : NodeHeader) (children : List (Option α)) :
    slot ⟨header,n.childIndex.set key.val i,children⟩ = Function.update n.slot key i := by
  funext b
  by_cases hb : b = key
  · subst hb
    simp [slot,hl]
  · have hne : key.val ≠ b.val := fun heq => hb (Fin.ext heq.symm)
    rw [update_of_ne hb,slot,slot,getElem?_set_ne hne]

variable (h : n.Wf)
include h

theorem Node48.Wf.exists_free (hr : n.header.numChildren < 48) :
    ∃ i, n.findFreeSlot = some i ∧ i < 48 ∧ n.children[i]? = some none := by
  cases hf : n.findFreeSlot with
  | none =>
    rw [findFreeSlot,findIdx?_eq_none_iff] at hf
    have ha : n.children.countP (·.isSome) = n.children.length := by
      rw [countP_eq_length]
      intro slot hs
      simpa using hf slot hs
    have hc := h.countSlots
    have hl := h.slotsLength
    omega
  | some i =>
    rw [findFreeSlot,findIdx?_eq_some_iff_getElem] at hf
    obtain ⟨hi,hn,-⟩ := hf
    refine ⟨i,rfl,by rw [h.slotsLength] at hi; exact hi,?_⟩
    rw [getElem?_eq_getElem hi,isNone_iff_eq_none.mp hn]

theorem Node48.Wf.addChild (hr : n.header.numChildren < 48) (hno : n.getChild key = none) (child : α) :
    (n.addChild key child).1.Wf ∧ (n.addChild key child).1.getChild = Function.update n.getChild key (some child) ∧
      (n.addChild key child).1.header = { n.header with numChildren := n.header.numChildren+1 } := by
  obtain ⟨i,hf,hi,hn⟩ := h.exists_free hr
  have hsl := h.getChild_eq_none_iff.mp hno
  have ha : (n.addChild key child).1 =
      { header := { n.header with numChildren := n.header.numChildren+1 }
        childIndex := n.childIndex.set key.val i
        children := n.children.set i (some child) } := by
    rw [Node48.addChild,if_neg (by simpa [Node48.isFull] using hr),hf]
  rw [ha]
  have hs := Node48.slot_set key h.indexLength i { n.header with numChildren := n.header.numChildren+1 }
    (n.children.set i (some child))
  -- the free slot is not the slot of another byte
  have ho : ∀ b, n.slot b ≠ 255 → n.slot b ≠ i := by
    intro b hb heq
    obtain ⟨c,hc⟩ := h.filled b hb
    rw [heq,hn] at hc
    cases hc
  have hg : Node48.getChild ⟨{ n.header with numChildren := n.header.numChildren+1 },
      n.childIndex.set key.val i,n.children.set i (some child)⟩ = Function.update n.getChild key (some child) := by
    funext b
    by_cases hb : b = key
    · subst hb
      rw [update_self,Node48.getChild,hs,update_self,if_pos (by omega)]
      simp [h.slotsLength,hi]
    · rw [update_of_ne hb,Node48.getChild,Node48.getChild,hs,update_of_ne hb]
      split
      next hb255 =>
        rw [getElem?_set_ne (Ne.symm (ho b hb255))]
      · rfl
  refine ⟨⟨by simpa using h.indexLength,by simpa using h.slotsLength,?_,?_,?_,?_⟩,hg,rfl⟩
  · rw [hs]
    intro b hb
    by_cases hbk : b = key
    · subst hbk
      rw [update_self]
      exact ⟨child,by simp [h.slotsLength,hi]⟩
    · rw [update_of_ne hbk] at hb ⊢
      rw [getElem?_set_ne (Ne.symm (ho b hb))]
      exact h.filled b hb
  · rw [hs]
    intro b b' hb heq
    by_cases hbk : b = key
    · subst hbk
      by_cases hbk' : b' = b
      · exact hbk'.symm
      · rw [update_self,update_of_ne hbk'] at heq
        exact absurd heq.symm (ho b' (by omega))
    · rw [update_of_ne hbk] at hb heq
      by_cases hbk' : b' = key
      · subst hbk'
        rw [update_self] at heq
        exact absurd heq (ho b hb)
      · rw [update_of_ne hbk'] at heq
        exact h.injective b b' hb heq
  · have hlt : i < n.children.length := by rw [h.slotsLength]; exact hi
    have hv : n.children[i] = none := by simpa [getElem?_eq_getElem hlt] using hn
    dsimp only
    rw [countP_set hlt,hv,h.countSlots]
    simp
  · have hcn := childCount_update n.getChild key (some child)
    rw [hno] at hcn
    dsimp only
    rw [hg,h.count]
    simpa using hcn.symm

variable {old : α}
variable (hold : n.getChild key = some old)
include hold

theorem Node48.Wf.slot_of_child :
    n.slot key ≠ 255 ∧ ∃ hlt : n.slot key < n.children.length, n.children[n.slot key] = some old := by
  have hs : n.slot key ≠ 255 := fun hs => by
    rw [h.getChild_eq_none_iff.mpr hs] at hold
    cases hold
  rw [getChild_of_slot hs,join_eq_some_iff,List.getElem?_eq_some_iff] at hold
  exact ⟨hs,hold⟩

theorem Node48.Wf.setChild (child : α) :
    (n.setChild key child).Wf ∧ (n.setChild key child).getChild = Function.update n.getChild key (some child) ∧
      (n.setChild key child).header = n.header := by
  obtain ⟨hs,hlt,hv⟩ := h.slot_of_child hold
  have hst : n.setChild key child = { n with children := n.children.set (n.slot key) (some child) } := by
    rw [Node48.setChild,if_pos hs]
  have hg : Node48.getChild { n with children := n.children.set (n.slot key) (some child) } =
      Function.update n.getChild key (some child) := by
    funext b
    by_cases hb : b = key
    · subst hb
      change (if n.slot b ≠ 255 then ((n.children.set (n.slot b) (some child))[n.slot b]?).join else none) = _
      rw [if_pos hs,getElem?_set_self hlt,join_some,update_self]
    · rw [update_of_ne hb,Node48.getChild,Node48.getChild]
      change (if n.slot b ≠ 255 then ((n.children.set (n.slot key) (some child))[n.slot b]?).join else none) = _
      split
      next hb255 =>
        rw [getElem?_set_ne fun heq => hb (h.injective b key hb255 heq.symm)]
      · rfl
  rw [hst]
  refine ⟨⟨h.indexLength,by simpa using h.slotsLength,fun b hb => ?_,h.injective,?_,?_⟩,hg,rfl⟩
  · change ∃ c, (n.children.set (n.slot key) (some child))[n.slot b]? = some (some c)
    by_cases hbk : b = key
    · subst hbk
      exact ⟨child,getElem?_set_self hlt⟩
    · rw [getElem?_set_ne fun heq => hbk (h.injective b key hb heq.symm)]
      exact h.filled b hb
  · dsimp only
    rw [countP_set hlt,hv,h.countSlots]
    have hp : 0 < n.header.numChildren := by
      rw [← h.countSlots,countP_pos_iff]
      exact ⟨some old,hv ▸ getElem_mem hlt,rfl⟩
    simp only [isSome_some,if_true]
    omega
  · have hc := childCount_update n.getChild key (some child)
    rw [hold] at hc
    dsimp only
    rw [hg,h.count]
    simpa using hc.symm

theorem Node48.Wf.removeChild : (n.removeChild key).Wf ∧ (n.removeChild key).getChild = Function.update n.getChild key none ∧
      (n.removeChild key).header = { n.header with numChildren := n.header.numChildren-1 } := by
  obtain ⟨hsl,hlt,hv⟩ := h.slot_of_child hold
  have hr : n.removeChild key = ⟨{ n.header with numChildren := n.header.numChildren-1 },
      n.childIndex.set key.val 255,n.children.set (n.slot key) none⟩ := by
    rw [Node48.removeChild,if_pos hsl]
  have hs := Node48.slot_set key h.indexLength 255 { n.header with numChildren := n.header.numChildren-1 }
    (n.children.set (n.slot key) none)
  have hg : Node48.getChild ⟨{ n.header with numChildren := n.header.numChildren-1 },
      n.childIndex.set key.val 255,n.children.set (n.slot key) none⟩ = Function.update n.getChild key none := by
    funext b
    by_cases hb : b = key
    · subst hb
      rw [update_self,Node48.getChild,hs,update_self,if_neg (by simp)]
    rw [update_of_ne hb,Node48.getChild,Node48.getChild,hs,update_of_ne hb]
    split
    next hb255 =>
      rw [getElem?_set_ne fun heq => hb (h.injective b key hb255 heq.symm)]
    · rfl
  rw [hr]
  refine ⟨⟨by simpa using h.indexLength,by simpa using h.slotsLength,?_,?_,?_,?_⟩,hg,rfl⟩
  · rw [hs]
    intro b hb
    by_cases hbk : b = key
    · subst hbk
      rw [update_self] at hb
      exact absurd rfl hb
    · rw [update_of_ne hbk] at hb ⊢
      rw [getElem?_set_ne fun heq => hbk (h.injective b key hb heq.symm)]
      exact h.filled b hb
  · rw [hs]
    intro b b' hb heq
    by_cases hbk : b = key
    · subst hbk
      rw [update_self] at hb
      exact absurd rfl hb
    · by_cases hbk' : b' = key
      · subst hbk'
        rw [heq,update_self] at hb
        exact absurd rfl hb
      · rw [update_of_ne hbk] at hb heq
        rw [update_of_ne hbk'] at heq
        exact h.injective b b' hb heq
  · dsimp only
    rw [countP_set hlt,hv,h.countSlots]
    simp
  · have hc := childCount_update n.getChild key none
    rw [hold] at hc
    simp only [isSome_some,isSome_none,Bool.toNat_true,Bool.toNat_false,Nat.add_zero] at hc
    dsimp only
    rw [hg,h.count]
    omega

omit hold

omit h

theorem Node48.wf_of_positions {entries : List (Byte × α)} (hft : entries.length ≤ 48)
    (hd : (entries.map (·.1)).Nodup) (hcn : n.header.numChildren = entries.length)
    (hid : n.childIndex = (entries.map (·.1)).zipIdx.foldl (fun index entry => index.set entry.1.val entry.2)
      (List.replicate 256 255))
    (hch : n.children = entries.map (fun entry => some entry.2) ++ List.replicate (48-entries.length) none) :
    n.Wf ∧ Enumerates entries n.getChild := by
  obtain ⟨hl,hp,ho⟩ := foldl_set_positions hd (length_replicate : (List.replicate 256 255).length = 256)
    fun b => by rw [getElem?_replicate,if_pos b.isLt]
  rw [← hid] at hl hp ho
  have hs : ∀ i (hi : i < entries.length), n.slot entries[i].1 = i := by
    intro i hi
    have hi' := hp i (by simpa using hi)
    rw [getElem_map] at hi'
    rw [slot,hi',getD_some]
  have hn : ∀ b, b ∉ entries.map (·.1) → n.slot b = 255 := by
    intro b hb
    rw [slot,ho b hb,getD_some]
  have hf : ∀ b, n.slot b ≠ 255 → ∃ i, ∃ hi : i < entries.length, entries[i].1 = b := by
    intro b hb
    have hm : b ∈ entries.map (·.1) := by
      by_contra hno
      exact hb (hn b hno)
    obtain ⟨entry,he,rfl⟩ := mem_map.mp hm
    obtain ⟨i,hi,rfl⟩ := getElem_of_mem he
    exact ⟨i,hi,rfl⟩
  have hc : ∀ i (hi : i < entries.length), n.children[i]? = some (some entries[i].2) := by
    intro i hi
    rw [hch,getElem?_append_left (by simpa using hi),getElem?_map,getElem?_eq_getElem hi]
    rfl
  have hen : Enumerates entries n.getChild := by
    refine ⟨hd,fun b child => ?_⟩
    constructor
    · intro hg
      by_cases hb : n.slot b = 255
      · rw [getChild,if_neg (by simp [hb])] at hg
        cases hg
      obtain ⟨i,hi,rfl⟩ := hf b hb
      rw [getChild_of_slot hb,hs i hi,hc i hi,join_some,some.injEq] at hg
      rw [← hg]
      exact getElem_mem hi
    · intro hm
      obtain ⟨i,hi,he⟩ := getElem_of_mem hm
      have hb : entries[i].1 = b := by rw [he]
      have hi' := hs i hi
      rw [hb] at hi'
      rw [getChild_of_slot (by omega),hi',hc i hi,he,join_some]
  refine ⟨⟨hl,?_,?_,?_,?_,?_⟩,hen⟩
  · rw [hch]
    simp only [length_append,length_map,length_replicate]
    omega
  · intro b hb
    obtain ⟨i,hi,rfl⟩ := hf b hb
    rw [hs i hi]
    exact ⟨_,hc i hi⟩
  · intro b b' hb heq
    obtain ⟨i,hi,rfl⟩ := hf b hb
    obtain ⟨j,hj,rfl⟩ := hf b' (heq ▸ hb)
    rw [hs i hi,hs j hj] at heq
    subst heq
    rfl
  · rw [hch,countP_append,countP_map,countP_replicate,hcn]
    simp [comp_def]
  · rw [hcn]
    exact hen.length_eq

end

structure Node256.Wf (n : Node256 α) : Prop where
  slotsLength : n.children.length = 256
  count : n.header.numChildren = childCount n.getChild

section
variable {n : Node256 α} {key : Byte}

theorem Node256.getChild_set (key : Byte) (hl : n.children.length = 256) (header : NodeHeader) (x : Option α) :
    Node256.getChild ⟨header,n.children.set key.val x⟩ = Function.update n.getChild key x := by
  funext b
  by_cases hb : b = key
  · subst hb
    rw [update_self,Node256.getChild,getElem?_set_self (by rw [hl]; exact b.isLt),join_some]
  · have hne : key.val ≠ b.val := fun heq => hb (Fin.ext heq.symm)
    rw [update_of_ne hb,Node256.getChild,Node256.getChild,getElem?_set_ne hne]

theorem Node256.Wf.setChild (h : n.Wf) {old : α} (hold : n.getChild key = some old) (child : α) :
    (n.setChild key child).Wf ∧ (n.setChild key child).getChild = Function.update n.getChild key (some child) ∧
      (n.setChild key child).header = n.header := by
  have hg := Node256.getChild_set key h.slotsLength n.header (some child)
  refine ⟨⟨by simpa [Node256.setChild] using h.slotsLength,?_⟩,hg,rfl⟩
  have hc := childCount_update n.getChild key (some child)
  rw [hold] at hc
  rw [Node256.setChild,hg,h.count]
  simpa using hc.symm

theorem Node256.Wf.addChild (h : n.Wf) (hno : n.getChild key = none) (child : α) :
    (n.addChild key child).1.Wf ∧ (n.addChild key child).1.getChild = Function.update n.getChild key (some child) ∧
      (n.addChild key child).1.header = { n.header with numChildren := n.header.numChildren+1 } := by
  have hh : (n.addChild key child).1.header = { n.header with numChildren := n.header.numChildren+1 } := by
    simp [Node256.addChild,hno]
  have hg : (n.addChild key child).1.getChild = Function.update n.getChild key (some child) :=
    Node256.getChild_set key h.slotsLength _ _
  refine ⟨⟨by simpa [Node256.addChild] using h.slotsLength,?_⟩,hg,hh⟩
  have hc := childCount_update n.getChild key (some child)
  rw [hno] at hc
  rw [hg,hh,h.count]
  simpa using hc.symm

theorem Node256.Wf.removeChild (h : n.Wf) {old : α} (hold : n.getChild key = some old) :
    (n.removeChild key).Wf ∧ (n.removeChild key).getChild = Function.update n.getChild key none ∧
      (n.removeChild key).header = { n.header with numChildren := n.header.numChildren-1 } := by
  have hh : (n.removeChild key).header = { n.header with numChildren := n.header.numChildren-1 } := by
    simp [Node256.removeChild,hold]
  have hg : (n.removeChild key).getChild = Function.update n.getChild key none :=
    Node256.getChild_set key h.slotsLength _ _
  refine ⟨⟨by simpa [Node256.removeChild] using h.slotsLength,?_⟩,hg,hh⟩
  have hc := childCount_update n.getChild key none
  rw [hold] at hc
  simp only [isSome_some,isSome_none,Bool.toNat_true,Bool.toNat_false,Nat.add_zero] at hc
  rw [hg,hh,h.count]
  change childCount n.getChild - 1 = _
  omega

end

theorem NodeHeader.getPrefix_resized (h : NodeHeader) (m : Nat) : (h.resized m).getPrefix = h.getPrefix := by
  have hl : h.getPrefix.length = min h.prefixLen maxPrefixLen := by
    rw [NodeHeader.getPrefix,length_take,h.stored_length]
    omega
  have hc : h.getPrefix.take maxPrefixLen = h.getPrefix := take_of_length_le (by rw [hl]; omega)
  rw [NodeHeader.getPrefix,NodeHeader.resized,NodeHeader.withPrefix,NodeHeader.setPrefix]
  dsimp only
  rw [hc,← hl,take_left]

variable {n : KeyedNode α} {entries : List (Byte × α)}

theorem KeyedNode.Holds.grow16 (h : n.Holds 4 entries) : n.grow16.Holds 16 entries := by
  obtain ⟨stale,hs⟩ := h.slots
  have hf := h.fits
  have hst : stale.length = 4-entries.length := by
    have hl := congrArg List.length hs
    obtain ⟨rest,hk,hrest⟩ := h.keys
    rw [KeyedNode.slots,hk,h.children] at hl
    simp only [length_zip,length_append,length_map,length_replicate] at hl
    omega
  refine ⟨by omega,h.distinct,h.count,⟨stale.map (fun _ => 0) ++ List.replicate 12 0,?_,?_⟩,?_⟩
  · rw [KeyedNode.grow16,hs]
    simp [comp_def]
  · simp only [length_append,length_map,length_replicate]
    omega
  · have hg : 16-entries.length = (4-entries.length)+12 := by omega
    rw [KeyedNode.grow16,h.children,hg,replicate_add,append_assoc]

theorem KeyedNode.Holds.grow48 (h : n.Holds 16 entries) : n.grow48.Wf ∧ Enumerates entries n.grow48.getChild := by
  obtain ⟨stale,hsl⟩ := h.slots
  have hf := h.fits
  have hs : ∀ (bytes : List Byte) (k : Nat) (index : List Nat),
      ((bytes.map fun key => (key,(none : Option α))).zipIdx k).foldl
        (fun index slot => if slot.1.2.isSome then index.set slot.1.1.val slot.2 else index) index = index := by
    intro bytes
    induction bytes with
    | nil => exact fun _ _ => rfl
    | cons byte rest ih => exact fun k index => ih (k+1) index
  refine wf_of_positions (by omega) h.distinct h.count ?_ ?_
  · rw [KeyedNode.grow48,hsl,zipIdx_append,foldl_append,hs,zipIdx_map,zipIdx_map,
      foldl_map,foldl_map]
    rfl
  · have hg : 48-entries.length = (16-entries.length)+32 := by omega
    rw [KeyedNode.grow48,h.children,hg,replicate_add,append_assoc]

theorem KeyedNode.Holds.shrink4 (h : n.Holds 16 entries) (hf : entries.length ≤ 4) : n.shrink4.Holds 4 entries := by
  obtain ⟨stale,hs⟩ := h.slots
  have hk : (n.slots.filterMap fun slot => slot.2.map fun child => (slot.1,child)) = entries := by
    rw [hs,filterMap_append,filterMap_map,filterMap_map]
    simp
  rw [KeyedNode.shrink4,hk,take_of_length_le hf]
  exact KeyedNode.holds_pack _ hf h.distinct rfl

theorem Node48.Wf.grow256 {n : Node48 α} (h : n.Wf) : n.grow256.Wf ∧ n.grow256.getChild = n.getChild := by
  have hg : n.grow256.getChild = n.getChild := by
    funext key
    rw [Node256.getChild,Node48.grow256,getElem?_map,getElem?_eq_getElem (by simp)]
    simp
  exact ⟨⟨by simp [Node48.grow256],by rw [hg]; exact h.count⟩,hg⟩

theorem Node48.Wf.shrink16 {n : Node48 α} (h : n.Wf) (hf : n.header.numChildren ≤ 16) : n.shrink16.Holds 16 n.iterChildren := by
  have he := enumerates_iterBytes n.getChild
  have hl : n.iterChildren.length ≤ 16 := by
    rw [Node48.iterChildren,he.length_eq,← h.count]
    exact hf
  rw [Node48.shrink16,take_of_length_le hl]
  exact KeyedNode.holds_pack _ hl he.distinct rfl

theorem Node256.Wf.shrink48 {n : Node256 α} (h : n.Wf) (hf : n.header.numChildren ≤ 48) :
    n.shrink48.Wf ∧ n.shrink48.getChild = n.getChild := by
  have he := enumerates_iterBytes n.getChild
  have hl : n.iterChildren.length ≤ 48 := by
    rw [Node256.iterChildren,he.length_eq,← h.count]
    exact hf
  obtain ⟨hwf,hk⟩ : n.shrink48.Wf ∧ Enumerates n.iterChildren n.shrink48.getChild := by
    rw [Node256.shrink48,take_of_length_le hl]
    refine wf_of_positions hl he.distinct rfl ?_ rfl
    rw [zipIdx_map,foldl_map]
    rfl
  exact ⟨hwf,hk.eq_of_perm he (List.Perm.refl _)⟩

end HeliosNano.Storage.Art
