import HeliosNano.Foundation.Multimap
import HeliosNano.Storage.Art.Tree
import Mathlib.Algebra.BigOperators.Pi

namespace HeliosNano.Storage.Art
open Foundation Foundation.Multimap List Option ArtNode

section
variable {n : Inner ArtNode} {node : ArtNode}

theorem ArtNode.mem_leaves_leaf (leaf : LeafNode) : leaf ∈ (ArtNode.leaf leaf).leaves := by
  rw [ArtNode.leaves]
  exact mem_singleton_self leaf

theorem ArtNode.leaves_inner (n : Inner ArtNode) : (inner n).leaves = n.iterChildren.flatMap fun entry => entry.2.leaves := by
  conv_rhs => rw [← attach_map_subtype_val n.iterChildren,flatMap_map]
  rw [leaves]

theorem ArtNode.inners_inner (n : Inner ArtNode) :
    (inner n).inners = n :: n.iterChildren.flatMap fun entry => entry.2.inners := by
  conv_rhs => rw [← attach_map_subtype_val n.iterChildren,flatMap_map]
  rw [inners]

theorem ArtNode.firstLeafKey_eq_head (node : ArtNode) : node.firstLeafKey = node.leaves.head?.map (·.key) := by
  fun_induction firstLeafKey node with
  | case1 leaf => simp [leaves]
  | case2 n ih =>
    have hc : (fun entry : { entry // entry ∈ n.iterChildren } => entry.1.2.firstLeafKey) =
        fun entry => (entry.1.2.leaves.head?).map (·.key) := funext ih
    rw [hc,leaves,head?_flatMap]
    generalize n.iterChildren.attach = entries
    induction entries with
    | nil => rfl
    | cons entry rest ihrest =>
      rw [findSome?_cons,findSome?_cons]
      cases entry.1.2.leaves.head? with
      | none => exact ihrest
      | some leaf => rfl

theorem Inner.Wf.mem_leaves (h : n.Wf) {leaf : LeafNode} :
    leaf ∈ (inner n).leaves ↔ ∃ b child, n.getChild b = some child ∧ leaf ∈ child.leaves := by
  rw [leaves_inner,mem_flatMap]
  constructor
  · rintro ⟨⟨b,child⟩,hm,hl⟩
    exact ⟨b,child,(h.enumerates.mem b child).mpr hm,hl⟩
  · rintro ⟨b,child,hg,hl⟩
    exact ⟨(b,child),(h.enumerates.mem b child).mp hg,hl⟩

theorem Inner.Wf.mem_inners (h : n.Wf) {m : Inner ArtNode} :
    m ∈ (inner n).inners ↔ m = n ∨ ∃ b child, n.getChild b = some child ∧ m ∈ child.inners := by
  rw [inners_inner,mem_cons,mem_flatMap]
  refine or_congr Iff.rfl ?_
  constructor
  · rintro ⟨⟨b,child⟩,hmm,hm⟩
    exact ⟨b,child,(h.enumerates.mem b child).mpr hmm,hm⟩
  · rintro ⟨b,child,hg,hm⟩
    exact ⟨(b,child),(h.enumerates.mem b child).mp hg,hm⟩

end
/-- The entries of a subtree and the number of its inner nodes in each layout. -/
abbrev Holdings := Multimap Bytes RowId × (Layout → Nat)

def ownHoldings (n : Inner ArtNode) (path : Bytes) : Holdings :=
  (Multimap.entries path n.header.values,Pi.single n.layout 1)

/-- The subtree, reached by a path, holds the entries. `hidden` are the bytes of the path
compressed into an inner node; the ones beyond the stored bytes can be recovered from a leaf. -/
inductive Rep : ArtNode → Bytes → Holdings → Prop
  | leaf {leaf : LeafNode} {path : Bytes} (reached : path <+: leaf.key) :
    Rep (.leaf leaf) path (Multimap.entries leaf.key leaf.allValues,0)
  | inner {n : Inner ArtNode} {path hidden : Bytes} {below : Byte → Holdings} {total : Holdings} (wf : n.Wf)
    (short : hidden.length ≤ u32Max) (prefixLen : n.header.prefixLen = hidden.length)
    (stored : n.header.getPrefix = hidden.take maxPrefixLen)
    (child : ∀ b child, n.getChild b = some child → Rep child (path ++ hidden ++ [b]) (below b))
    (vacant : ∀ b, n.getChild b = none → below b = 0)
    (held : total = ownHoldings n (path ++ hidden) + ∑ b, below b)
    (recoverable : hidden.length ≤ maxPrefixLen ∨ (inner n).leaves ≠ [] ∨ total.1 = 0) :
    Rep (.inner n) path total

structure InnerHolds (n : Inner ArtNode) (path hidden : Bytes) (below : Byte → Holdings) (total : Holdings) : Prop where
  wf : n.Wf
  short : hidden.length ≤ u32Max
  prefixLen : n.header.prefixLen = hidden.length
  stored : n.header.getPrefix = hidden.take maxPrefixLen
  child : ∀ b child, n.getChild b = some child → Rep child (path ++ hidden ++ [b]) (below b)
  vacant : ∀ b, n.getChild b = none → below b = 0
  held : total = ownHoldings n (path ++ hidden) + ∑ b, below b

structure InnerRep (n : Inner ArtNode) (path hidden : Bytes) (below : Byte → Holdings) (total : Holdings) : Prop
    extends InnerHolds n path hidden below total where
  recoverable : hidden.length ≤ maxPrefixLen ∨ (inner n).leaves ≠ [] ∨ total.1 = 0

section
variable {node : ArtNode} {n : Inner ArtNode} {path hidden key : Bytes} {total : Holdings} {below : Byte → Holdings}
  {b : Byte}

theorem InnerRep.rep (h : InnerRep n path hidden below total) : Rep (.inner n) path total :=
  .inner h.wf h.short h.prefixLen h.stored h.child h.vacant h.held h.recoverable

@[elab_as_elim]
theorem Rep.inductOn {motive : (node : ArtNode) → (path : Bytes) → (total : Holdings) → Rep node path total → Prop}
    (leaf : ∀ (leaf : LeafNode) path (reached : path <+: leaf.key), motive (.leaf leaf) path _ (.leaf reached))
    (inner : ∀ n path hidden below total (h : InnerRep n path hidden below total),
      (∀ b child hg, motive child (path ++ hidden ++ [b]) (below b) (h.child b child hg)) →
      motive (.inner n) path total h.rep) (h : Rep node path total) : motive node path total h := by
  induction h with
  | leaf reached => exact leaf _ _ reached
  | inner wf short prefixLen stored child vacant held recoverable ih =>
    exact inner _ _ _ _ _ ⟨⟨wf,short,prefixLen,stored,child,vacant,held⟩,recoverable⟩ ih

theorem Rep.path_of_mem (h : Rep node path total) : ∀ entry ∈ total.1, path <+: entry.1 := by
  induction h using Rep.inductOn with
  | leaf leaf path reached =>
    intro entry hm
    obtain ⟨hkey,-⟩ := mem_entries.mp (show entry ∈ entries leaf.key leaf.allValues from hm)
    rw [hkey]
    exact reached
  | inner n path hidden below total h ih =>
    intro entry hm
    have hs : path <+: path ++ hidden := prefix_append path hidden
    rw [h.held,Prod.fst_add,Multiset.mem_add,Prod.fst_sum,Multiset.mem_sum] at hm
    obtain ho | ⟨b,-,hm⟩ := hm
    · obtain ⟨hkey,-⟩ := mem_entries.mp (show entry ∈ entries (path ++ hidden) n.header.values from ho)
      rw [hkey]
      exact hs
    · cases hg : n.getChild b with
      | none =>
        rw [h.vacant b hg] at hm
        exact absurd hm (Multiset.notMem_zero entry)
      | some c => exact hs.trans ((prefix_append _ _).trans (ih b c hg entry hm))

theorem Rep.path_of_leaf (h : Rep node path total) : ∀ leaf ∈ node.leaves, path <+: leaf.key := by
  induction h using Rep.inductOn with
  | leaf leaf path reached =>
    intro leaf hm
    rw [leaves,mem_singleton] at hm
    rw [hm]
    exact reached
  | inner n path hidden below total h ih =>
    intro leaf hm
    obtain ⟨b,c,hg,hl⟩ := h.wf.mem_leaves.mp hm
    exact (prefix_append path hidden).trans ((prefix_append _ _).trans (ih b c hg leaf hl))

variable (h : InnerHolds n path hidden below total)
include h

theorem InnerHolds.path_of_leaf : ∀ leaf ∈ (inner n).leaves, path ++ hidden <+: leaf.key := by
  intro leaf hm
  obtain ⟨b,c,hg,hl⟩ := h.wf.mem_leaves.mp hm
  exact (prefix_append _ _).trans ((h.child b c hg).path_of_leaf leaf hl)

theorem InnerHolds.path_of_below (b : Byte) : ∀ entry ∈ (below b).1, path ++ hidden ++ [b] <+: entry.1 := by
  intro entry hm
  cases hg : n.getChild b with
  | none =>
    rw [h.vacant b hg] at hm
    exact absurd hm (Multiset.notMem_zero entry)
  | some c => exact (h.child b c hg).path_of_mem entry hm

omit h in
theorem getElem?_of_snoc (h : path ++ [b] <+: key) : key[path.length]? = some b := by
  obtain ⟨rest,rfl⟩ := h
  simp

theorem InnerHolds.valuesAt_below_eq_zero (b : Byte) (hno : ¬path ++ hidden ++ [b] <+: key) : valuesAt (below b).1 key = 0 := by
  rw [valuesAt_eq_zero_iff]
  intro entry hm heq
  exact hno (heq ▸ h.path_of_below b entry hm)

theorem InnerHolds.valuesAt_eq (key : Bytes) :
    valuesAt total.1 key = (if key = path ++ hidden then (n.header.values : Multiset RowId) else 0) +
      ∑ b, valuesAt (below b).1 key := by
  rw [h.held,Prod.fst_add,valuesAt_add,Prod.fst_sum,valuesAt_sum,ownHoldings,valuesAt_entries]

theorem InnerHolds.valuesAt_elsewhere (hno : ¬path ++ hidden <+: key) : valuesAt total.1 key = 0 := by
  have hs : ∑ b, valuesAt (below b).1 key = 0 := Finset.sum_eq_zero fun b _ =>
    h.valuesAt_below_eq_zero b fun hb => hno ((prefix_append _ _).trans hb)
  rw [h.valuesAt_eq,hs,if_neg fun heq : key = path ++ hidden => hno (heq ▸ prefix_rfl),add_zero]

theorem InnerHolds.valuesAt_end : valuesAt total.1 (path ++ hidden) = n.header.values := by
  have hs : ∑ b, valuesAt (below b).1 (path ++ hidden) = 0 := Finset.sum_eq_zero fun b _ =>
    h.valuesAt_below_eq_zero b fun hb => absurd hb.length_le (by simp)
  rw [h.valuesAt_eq,hs,if_pos rfl,add_zero]

theorem InnerHolds.valuesAt_child (hkey : path ++ hidden ++ [b] <+: key) : valuesAt total.1 key = valuesAt (below b).1 key := by
  have hne : key ≠ path ++ hidden := fun heq => by
    rw [heq] at hkey
    exact absurd hkey.length_le (by simp)
  have hs : ∑ b', valuesAt (below b').1 key = valuesAt (below b).1 key := by
    refine Finset.sum_eq_single b (fun b' _ hb' => ?_) fun hno => absurd (Finset.mem_univ b) hno
    refine h.valuesAt_below_eq_zero b' fun hb => hb' ?_
    exact Option.some.inj ((getElem?_of_snoc hb).symm.trans (getElem?_of_snoc hkey))
  rw [h.valuesAt_eq,hs,if_neg hne,zero_add]

theorem InnerHolds.prefixMismatchPos_eq (hrec : hidden.length ≤ maxPrefixLen ∨ (inner n).leaves ≠ []) (rest : Bytes) :
    prefixMismatchPos n (path ++ rest) path.length = commonLen hidden rest := by
  have hle := commonLen_le_left hidden rest
  have hs : (hidden.take maxPrefixLen).length = min maxPrefixLen hidden.length := length_take
  have hp : commonLen (hidden.take maxPrefixLen) rest = min maxPrefixLen (commonLen hidden rest) := commonLen_take _ _ _
  simp only [prefixMismatchPos,h.stored,h.prefixLen,drop_left,hp,hs]
  split
  · omega
  next hps =>
    have htn : min maxPrefixLen (commonLen hidden rest) = maxPrefixLen := by omega
    have hl : (inner n).leaves ≠ [] := by
      obtain hsh | hl := hrec
      · omega
      · exact hl
    obtain ⟨leaf,others,hh⟩ := exists_cons_of_ne_nil hl
    obtain ⟨tail,htl⟩ := h.path_of_leaf leaf (by rw [hh]; exact mem_cons_self)
    have hr : (leaf.key.drop (path.length+maxPrefixLen)).take (hidden.length-maxPrefixLen) =
        hidden.drop maxPrefixLen := by
      have ht' : maxPrefixLen ≤ hidden.length := by omega
      rw [← htl,append_assoc,← drop_drop,drop_left,drop_append_of_le_length ht',
        take_left' (by rw [length_drop])]
    rw [firstLeafKey_eq_head,hh]
    simp only [head?_cons,map_some,htn,hr]
    rw [← drop_drop,drop_left]
    exact commonLen_drop (by omega)

theorem InnerHolds.mismatch_of_lost (hl : maxPrefixLen < hidden.length)
    (hno : (inner n).leaves = []) (key : Bytes) (depth : Nat) : prefixMismatchPos n key depth < n.header.prefixLen := by
  simp only [prefixMismatchPos,h.stored,h.prefixLen,commonLen_take,firstLeafKey_eq_head,hno]
  split
  · omega
  · simp only [head?_nil,map_none]
    omega

omit h in
theorem InnerRep.mismatch_cases (h : InnerRep n path hidden below total) (rest : Bytes) :
    (prefixMismatchPos n (path ++ rest) path.length < n.header.prefixLen ∧ valuesAt total.1 (path ++ rest) = 0) ∨
      ¬prefixMismatchPos n (path ++ rest) path.length < n.header.prefixLen ∧ ∃ tail, rest = hidden ++ tail := by
  by_cases hrec : hidden.length ≤ maxPrefixLen ∨ (inner n).leaves ≠ []
  · rw [h.prefixMismatchPos_eq hrec,h.prefixLen,Nat.not_lt,length_le_commonLen_iff]
    by_cases hp : hidden <+: rest
    · obtain ⟨tail,rfl⟩ := hp
      exact .inr ⟨prefix_append hidden tail,tail,rfl⟩
    have hlt : commonLen hidden rest < hidden.length := by
      rw [← Nat.not_le,length_le_commonLen_iff]
      exact hp
    exact .inl ⟨hlt,h.valuesAt_elsewhere fun hpt => hp ((prefix_append_right_inj path).mp hpt)⟩
  · rw [not_or,Nat.not_le,not_not] at hrec
    have hz : total.1 = 0 := by
      obtain hsh | hl | hz := h.recoverable
      · omega
      · exact absurd hrec.2 hl
      · exact hz
    exact .inl ⟨h.mismatch_of_lost hrec.1 hrec.2 _ _,by rw [hz]; rfl⟩

theorem InnerHolds.next_byte (b : Byte) (tail : Bytes) : path ++ hidden ++ [b] <+: path ++ (hidden ++ b::tail) ∧
      (path ++ hidden ++ [b]).length = path.length+n.header.prefixLen+1 ∧
      ∃ hm : path.length+n.header.prefixLen < (path ++ (hidden ++ b::tail)).length,
        (path ++ (hidden ++ b::tail))[path.length+n.header.prefixLen] = b := by
  have hp : path ++ hidden ++ [b] <+: path ++ (hidden ++ b::tail) := ⟨tail,by simp⟩
  refine ⟨hp,by simp [h.prefixLen,Nat.add_assoc],by simp [h.prefixLen],?_⟩
  have hg := getElem?_of_snoc hp
  rw [length_append,← h.prefixLen] at hg
  exact (List.getElem?_eq_some_iff.mp hg).2

omit h

theorem Rep.getAllRecursive (h : Rep node path total) (hkey : path <+: key) :
    (getAllRecursive key node path.length : Multiset RowId) = valuesAt total.1 key := by
  induction h using Rep.inductOn with
  | leaf leaf path reached =>
    rw [Art.getAllRecursive,valuesAt_entries]
    by_cases hk : leaf.key = key
    · rw [if_pos hk,if_pos hk.symm]
    · rw [if_neg hk,if_neg (Ne.symm hk)]
      rfl
  | inner n path hidden below total h ih =>
    obtain ⟨rest,rfl⟩ := hkey
    rw [Art.getAllRecursive]
    obtain ⟨hlt,hz⟩ | ⟨hmt,tail,rfl⟩ := h.mismatch_cases rest
    · rw [if_pos hlt,hz]
      rfl
    rw [if_neg hmt]
    cases tail with
    | nil => rw [dif_neg (by simp [h.prefixLen]),append_nil,h.valuesAt_end]
    | cons b tail =>
      obtain ⟨hp,hl,hm,hb⟩ := h.next_byte b tail
      rw [dif_pos hm,hb,h.valuesAt_child hp]
      cases hg : n.getChild b with
      | none =>
        rw [h.vacant b hg]
        rfl
      | some child =>
        dsimp only
        rw [← hl]
        exact ih b child hg hp

/-- The row ids found in a subtree, if there is one. -/
def lookAt (child : Option ArtNode) (key : Bytes) (depth : Nat) : List RowId :=
  match child with
  | none => []
  | some child => Art.getAllRecursive key child depth

section
variable (h : InnerHolds n path hidden below total) (hrec : hidden.length ≤ maxPrefixLen ∨ (inner n).leaves ≠ [])
include h hrec

theorem InnerHolds.getAll_elsewhere {rest : Bytes} (hno : ¬hidden <+: rest) :
    Art.getAllRecursive (path ++ rest) (.inner n) path.length = [] := by
  rw [Art.getAllRecursive,if_pos]
  rw [h.prefixMismatchPos_eq hrec,h.prefixLen,← Nat.not_le,length_le_commonLen_iff]
  exact hno

theorem InnerHolds.mismatch_append (tail : Bytes) :
    ¬prefixMismatchPos n (path ++ (hidden ++ tail)) path.length < n.header.prefixLen := by
  rw [h.prefixMismatchPos_eq hrec,h.prefixLen,Nat.not_lt,length_le_commonLen_iff]
  exact prefix_append hidden tail

theorem InnerHolds.getAll_end : Art.getAllRecursive (path ++ hidden) (.inner n) path.length = n.header.values := by
  have hm := h.mismatch_append hrec []
  rw [append_nil] at hm
  rw [Art.getAllRecursive,if_neg hm,dif_neg (by simp [h.prefixLen])]

theorem InnerHolds.getAll_child (b : Byte) (tail : Bytes) :
    Art.getAllRecursive (path ++ (hidden ++ b::tail)) (.inner n) path.length =
      lookAt (n.getChild b) (path ++ (hidden ++ b::tail)) (path ++ hidden ++ [b]).length := by
  obtain ⟨hp,hl,hm,hb⟩ := h.next_byte b tail
  rw [Art.getAllRecursive,if_neg (h.mismatch_append hrec _),dif_pos hm,hb,hl]
  cases n.getChild b with
  | none | some child => rfl

end

theorem getRecursive_eq_head (key : Bytes) (node : ArtNode) (depth : Nat) :
    getRecursive key node depth = (getAllRecursive key node depth).head? := by
  fun_induction getRecursive key node depth with
  | case1 depth leaf hkey | case3 depth n hkey => rw [getAllRecursive,if_pos hkey]; rfl
  | case2 depth leaf hkey => rw [getAllRecursive,if_neg hkey]; rfl
  | case4 depth n hlt hm child hg ih => rw [getAllRecursive,if_neg hlt,dif_pos hm,hg]; exact ih
  | case5 depth n hlt hm hg => rw [getAllRecursive,if_neg hlt,dif_pos hm,hg]; rfl
  | case6 depth n hlt hm => rw [getAllRecursive,if_neg hlt,dif_neg hm]

end
end HeliosNano.Storage.Art
