import HeliosNano.Storage.Art.Updates

namespace HeliosNano.Storage.Art
open Foundation Foundation.Multimap List Function Option KeyedNode InnerRep

def visits (key : Bytes) (node : ArtNode) (depth : Nat) : List (ArtNode × Nat) :=
  (node,depth) :: match node with
    | .leaf _ => []
    | .inner n =>
      if prefixMismatchPos n key depth < n.header.prefixLen then []
      else if hmore : depth+n.header.prefixLen < key.length then
        match n.getChild key[depth+n.header.prefixLen] with
        | some child => visits key child (depth+n.header.prefixLen+1)
        | none => []
      else []
termination_by key.length - depth

/-- The prefix of an inner node can be recovered; the prefix that splits a leaf fits `u32`. -/
def Admits (key : Bytes) : ArtNode × Nat → Prop
  | (.leaf leaf,depth) => leaf.key = key ∨ commonLen (key.drop depth) (leaf.key.drop depth) ≤ u32Max
  | (.inner n,_) => n.header.prefixLen ≤ maxPrefixLen ∨ (ArtNode.inner n).leaves ≠ []

instance (key : Bytes) (visit : ArtNode × Nat) : Decidable (Admits key visit) :=
  match visit with
  | (.leaf leaf,depth) =>
    inferInstanceAs (Decidable (leaf.key = key ∨ commonLen (key.drop depth) (leaf.key.drop depth) ≤ u32Max))
  | (.inner n,_) =>
    inferInstanceAs (Decidable (n.header.prefixLen ≤ maxPrefixLen ∨ (ArtNode.inner n).leaves ≠ []))

def Leafy (node : ArtNode) : Prop := ∀ m ∈ node.inners, (ArtNode.inner m).leaves ≠ []

/-- The row id has been appended to the ones of the key, below a path. -/
structure Appended (key : Bytes) (value : RowId) (node node' : ArtNode) (path : Bytes) : Prop where
  lookups : ∀ k, path <+: k → getAllRecursive k node' path.length =
    getAllRecursive k node path.length ++ if k = key then [value] else []
  leafy : Leafy node → Leafy node'

theorem leafy_leaf (leaf : LeafNode) : Leafy (.leaf leaf) := by
  intro m hm
  rw [ArtNode.inners] at hm
  exact absurd hm not_mem_nil

theorem Inner.Wf.leafy_iff {n : Inner ArtNode} (h : n.Wf) :
    Leafy (.inner n) ↔ (ArtNode.inner n).leaves ≠ [] ∧ ∀ b child, n.getChild b = some child → Leafy child := by
  constructor
  · intro hl
    refine ⟨hl n (h.mem_inners.mpr (.inl rfl)),fun b child hg m hm => ?_⟩
    exact hl m (h.mem_inners.mpr (.inr ⟨b,child,hg,hm⟩))
  · rintro ⟨hs,hc⟩ m hm
    obtain rfl | ⟨b,child,hg,hm⟩ := h.mem_inners.mp hm
    · exact hs
    · exact hc b child hg m hm

theorem Counters.nodeCount_addNode (c : Counters) (layout : Layout) :
    (c.addNode layout).nodeCount = c.nodeCount + Pi.single layout 1 := by
  funext l
  by_cases hl : l = layout
  · subst hl
    simp [Counters.addNode]
  · simp [Counters.addNode,update_of_ne hl,Pi.single_eq_of_ne hl]

theorem Counters.relayout_ok {c : Counters} {old : Layout} (new : Layout) (hp : 1 ≤ c.nodeCount old) :
    ∃ c', c.relayout old new = .ok c' ∧ c'.nodeCount + Pi.single old 1 = c.nodeCount + Pi.single new 1 ∧
      c'.size = c.size ∧ c'.leafCount = c.leafCount := by
  by_cases hsame : old = new
  · subst hsame
    exact ⟨c,by rw [Counters.relayout,if_pos rfl],rfl,rfl,rfl⟩
  refine ⟨_,(if_neg hsame).trans (if_pos hp),?_,rfl,rfl⟩
  rw [Counters.nodeCount_addNode]
  funext l
  by_cases hl : l = old
  · subst hl
    simp only [Pi.add_apply,update_self,Pi.single_eq_same,Pi.single_eq_of_ne hsame]
    omega
  · simp [update_of_ne hl,Pi.single_eq_of_ne hl]

section
variable {m : KeyedNode ArtNode} {path shared : Bytes} {below : Byte → Holdings} {total part : Holdings}

theorem holds_pack_nil (header : NodeHeader) (hnew : header.numChildren = 0) :
    (pack 4 header ([] : List (Byte × ArtNode))).Holds 4 [] :=
  holds_pack header (by simp) (by simp) hnew

theorem getChild_pack_nil (header : NodeHeader) (hnew : header.numChildren = 0) :
    (pack 4 header ([] : List (Byte × ArtNode))).getChild = fun _ => none :=
  funext fun _ => (holds_pack_nil header hnew).enumerates.eq_none_iff.mpr (by simp)

theorem innerHolds_new (path : Bytes) (hsh : shared.length ≤ u32Max) :
    InnerHolds (.node4 (.pack 4 (.withPrefix shared) [])) path shared (fun _ => 0) (0,Pi.single .node4 1) := by
  refine ⟨⟨[],holds_pack_nil _ rfl⟩,hsh,NodeHeader.prefixLen_setPrefix hsh,
    NodeHeader.getPrefix_setPrefix hsh,fun b child hg => ?_,fun _ _ => rfl,?_⟩
  · rw [Inner.getChild,getChild_pack_nil _ rfl] at hg
    cases hg
  · rw [Finset.sum_const_zero,add_zero]
    rfl

variable (h : InnerHolds (.node4 m) path shared below total)
include h

theorem InnerHolds.hang (hr : m.header.numChildren < 4) {byte : Option Byte} {child : ArtNode} {values : List RowId}
    (hc : ∀ b, byte = some b → m.getChild b = none ∧ Rep child (path ++ shared ++ [b]) part)
    (he : byte = none → part = (entries (path ++ shared) values,0)) :
    (∃ below', InnerHolds (.node4 (m.hang byte child values)) path shared below' (total+part)) ∧
      (m.hang byte child values).header.numChildren ≤ m.header.numChildren+1 ∧ (m.hang byte child values).getChild =
        byte.elim m.getChild (fun b => Function.update m.getChild b (some child)) ∧
      (m.hang byte child values).header.values = m.header.values ++ byte.elim values fun _ => [] := by
  obtain ⟨slots,hsl⟩ := h.wf
  cases byte with
  | some b =>
    obtain ⟨hn,hrp⟩ := hc b rfl
    obtain ⟨hwf,hg,hh⟩ := hsl.addChild_becomes (by rw [← hsl.count]; exact hr) hn child
    have hb : (Inner.node4 m).Becomes (.node4 (m.hang (some b) child values))
        (Function.update (Inner.node4 m).getChild b (some child)) := ⟨hwf,hg,.of_count hh⟩
    obtain ⟨total',hhl,hf,hs⟩ := h.update hb (show RepAt (some child) _ part from hrp)
    have htt : total' = total+part := by
      rw [h.vacant b hn] at hf hs
      refine Prod.ext ?_ (add_right_cancel hs)
      simpa using hf
    refine ⟨⟨_,htt ▸ hhl⟩,?_,hg,?_⟩
    · rw [KeyedNode.hang,hh]
    · rw [KeyedNode.hang,hh]
      exact (append_nil _).symm
  | none =>
    obtain ⟨total',hhl,hf,hs⟩ := h.revalue (f := fun header => { header with values := header.values ++ values })
      fun header => ⟨⟨rfl,rfl,rfl⟩,rfl⟩
    have htt : total' = total+part := by
      rw [he rfl]
      refine Prod.ext (add_right_cancel (hf.trans ?_)) (hs.trans (add_zero _).symm)
      change total.1 + entries (path ++ shared) ↑(m.header.values ++ values) =
        total.1 + entries (path ++ shared) ↑values + entries (path ++ shared) ↑m.header.values
      rw [← Multiset.coe_add,entries_add,add_right_comm,add_assoc]
    exact ⟨⟨below,htt ▸ hhl⟩,Nat.le_succ _,rfl,rfl⟩

/-- The children and the row ids of a node at which two keys part. -/
structure Forks (m : KeyedNode ArtNode) (byte₁ : Option Byte) (child₁ : ArtNode) (values₁ : List RowId)
    (byte₂ : Option Byte) (child₂ : ArtNode) (values₂ : List RowId) : Prop where
  first : ∀ b, byte₁ = some b → m.getChild b = some child₁
  second : ∀ b, byte₂ = some b → m.getChild b = some child₂
  vacant : ∀ b, byte₁ ≠ some b → byte₂ ≠ some b → m.getChild b = none
  values : m.header.values = byte₁.elim values₁ (fun _ => []) ++ byte₂.elim values₂ fun _ => []

variable {child₁ : ArtNode} {values₂ : List RowId} {child₂ : ArtNode} {values₁ : List RowId} {byte₂ byte₁ : Option Byte}

omit h in
theorem innerHolds_fork (path : Bytes) (hsh : shared.length ≤ u32Max) {part₁ part₂ : Holdings}
    (hc₁ : ∀ b, byte₁ = some b → Rep child₁ (path ++ shared ++ [b]) part₁)
    (he₁ : byte₁ = none → part₁ = (entries (path ++ shared) values₁,0))
    (hc₂ : ∀ b, byte₂ = some b → Rep child₂ (path ++ shared ++ [b]) part₂)
    (he₂ : byte₂ = none → part₂ = (entries (path ++ shared) values₂,0)) (hp : ∀ b ∈ byte₂, byte₁ ≠ some b)
    (hfr : m = ((pack 4 (.withPrefix shared) []).hang byte₁ child₁ values₁).hang byte₂ child₂ values₂) :
    (∃ below, InnerHolds (.node4 m) path shared below ((0,Pi.single .node4 1)+part₁+part₂)) ∧
      Forks m byte₁ child₁ values₁ byte₂ child₂ values₂ := by
  have he := getChild_pack_nil (.withPrefix shared) rfl
  obtain ⟨⟨below₁,h₁⟩,hr₁,hg₁,hv₁⟩ := (innerHolds_new path hsh).hang (Nat.zero_lt_succ 3)
    (fun b hb => ⟨by rw [he],hc₁ b hb⟩) he₁
  have hfe : ∀ b ∈ byte₂, ((pack 4 (.withPrefix shared) []).hang byte₁ child₁ values₁).getChild b = none := by
    intro b hb
    rw [hg₁,he]
    cases byte₁ with
    | none => rfl
    | some b₁ =>
      have hne : b ≠ b₁ := fun heq => hp b hb (congrArg some heq.symm)
      rw [elim_some,update_of_ne hne]
  obtain ⟨⟨below₂,h₂⟩,-,hg₂,hv₂⟩ := h₁.hang (Nat.lt_of_le_of_lt hr₁ (show 0+1 < 4 by omega))
    (fun b hb => ⟨hfe b hb,hc₂ b hb⟩) he₂
  rw [← hfr] at h₂ hg₂ hv₂
  refine ⟨⟨below₂,h₂⟩,fun b hb => ?_,fun b hb => ?_,fun b hb₁ hb₂ => ?_,?_⟩
  · have hf : ((pack 4 (.withPrefix shared) []).hang byte₁ child₁ values₁).getChild b = some child₁ := by
      rw [hg₁,hb]
      exact update_self _ _ _
    rw [hg₂]
    cases hb₂ : byte₂ with
    | none => exact hf
    | some b₂ =>
      have hne : b ≠ b₂ := fun heq => hp b₂ (hb₂ ▸ rfl) (heq ▸ hb)
      exact (update_of_ne hne _ _).trans hf
  · rw [hg₂,hb]
    exact update_self _ _ _
  · have hne : ∀ {byte : Option Byte} {child : ArtNode} {g : Byte → Option ArtNode}, byte ≠ some b →
        byte.elim g (fun b => Function.update g b (some child)) b = g b := by
      intro byte child g hno
      cases byte with
      | none => rfl
      | some b' => exact update_of_ne (fun heq => hno (congrArg some heq.symm)) _ _
    rw [hg₂,hne hb₂,hg₁,hne hb₁,he]
  · rw [hv₂,hv₁]
    rfl

/-- What a subtree hung at a node yields for a key that goes on with a tail. -/
def hung (byte : Option Byte) (child : ArtNode) (values : List RowId) (key : Bytes) (depth : Nat) : Bytes → List RowId
  | [] => byte.elim values fun _ => []
  | b::_ => if byte = some b then getAllRecursive key child depth else []

theorem InnerHolds.getAll_fork (hr : shared.length ≤ maxPrefixLen ∨ (ArtNode.inner (.node4 m)).leaves ≠ [])
    (hf : Forks m byte₁ child₁ values₁ byte₂ child₂ values₂) (hp : ∀ b ∈ byte₂, byte₁ ≠ some b) (tail : Bytes) :
    getAllRecursive (path ++ (shared ++ tail)) (.inner (.node4 m)) path.length =
      hung byte₁ child₁ values₁ (path ++ (shared ++ tail)) (path.length+shared.length+1) tail ++
        hung byte₂ child₂ values₂ (path ++ (shared ++ tail)) (path.length+shared.length+1) tail := by
  cases tail with
  | nil =>
    rw [append_nil,h.getAll_end hr]
    exact hf.values
  | cons b tail =>
    have hl : (path ++ shared ++ [b]).length = path.length+shared.length+1 := by simp [Nat.add_assoc]
    rw [h.getAll_child hr,hl,hung,hung]
    change lookAt (m.getChild b) _ _ = _
    by_cases h₁ : byte₁ = some b
    · have h₂ : byte₂ ≠ some b := fun hb => hp b hb h₁
      rw [if_pos h₁,if_neg h₂,hf.first b h₁,append_nil]
      rfl
    · rw [if_neg h₁,nil_append]
      by_cases h₂ : byte₂ = some b
      · rw [if_pos h₂,hf.second b h₂]
        rfl
      · rw [if_neg h₂,hf.vacant b h₁ h₂]
        rfl

theorem InnerHolds.leafy_fork
    (hl : (ArtNode.inner (.node4 m)).leaves ≠ []) (hf : Forks m byte₁ child₁ values₁ byte₂ child₂ values₂)
    (hl₁ : Leafy child₁) (hl₂ : Leafy child₂) : Leafy (.inner (.node4 m)) := by
  refine h.wf.leafy_iff.mpr ⟨hl,fun b child hg => ?_⟩
  change m.getChild b = some child at hg
  by_cases h₁ : byte₁ = some b
  · rw [hf.first b h₁,some.injEq] at hg
    exact hg ▸ hl₁
  by_cases h₂ : byte₂ = some b
  · rw [hf.second b h₂,some.injEq] at hg
    exact hg ▸ hl₂
  · rw [hf.vacant b h₁ h₂] at hg
    cases hg

end

section
variable {n : Inner ArtNode} {path hidden shared key : Bytes} {below : Byte → Holdings} {total : Holdings} {value : RowId}

theorem getElem?_after (path shared tail : Bytes) : (path ++ (shared ++ tail))[path.length+shared.length]? = tail.head? := by
  rw [getElem?_append_right (by omega),Nat.add_sub_cancel_left,getElem?_append_right (by omega),
    Nat.sub_self,head?_eq_getElem?]

variable {leaf : LeafNode}
variable {tail left : Bytes}

theorem leaf_part (hkey : leaf.key = path ++ (shared ++ tail)) : (∀ b, tail.head? = some b →
      Rep (.leaf leaf) (path ++ shared ++ [b]) (entries leaf.key leaf.allValues,0)) ∧
      (tail.head? = none → ((entries leaf.key leaf.allValues,0) : Holdings) = (entries (path ++ shared) leaf.allValues,0)) := by
  constructor
  · intro b hb
    obtain ⟨rest,rfl⟩ := head?_eq_some_iff.mp hb
    refine .leaf ?_
    rw [hkey]
    exact ⟨rest,by simp⟩
  · intro hb
    rw [hkey,head?_eq_none_iff.mp hb,append_nil]

theorem newLeaf_part (value : RowId) (hkey : key = path ++ (shared ++ tail)) :
    (∀ b, tail.head? = some b → Rep (.leaf (.new key value)) (path ++ shared ++ [b]) (entries key {value},0)) ∧
      (tail.head? = none → ((entries key {value},0) : Holdings) = (entries (path ++ shared) ([value] : List RowId),0)) :=
  leaf_part (show (LeafNode.new key value).key = path ++ (shared ++ tail) from hkey)

theorem hung_leaf (hkey : leaf.key = path ++ (shared ++ left)) (tail : Bytes)
    (depth depth' : Nat) : hung left.head? (.leaf leaf) leaf.allValues (path ++ (shared ++ tail)) depth tail =
      getAllRecursive (path ++ (shared ++ tail)) (.leaf leaf) depth' := by
  have hsame : leaf.key = path ++ (shared ++ tail) ↔ left = tail := by
    rw [hkey,append_cancel_left_eq,append_cancel_left_eq]
  rw [getAllRecursive]
  cases tail with
  | nil =>
    cases left with
    | nil => rw [if_pos (hsame.mpr rfl)]; rfl
    | cons b left => rw [if_neg fun heq => cons_ne_nil _ _ (hsame.mp heq)]; rfl
  | cons b tail =>
    rw [hung,getAllRecursive]
    by_cases heq : left = b::tail
    · rw [if_pos (by rw [heq]; rfl)]
    · rw [if_neg (fun hk => heq (hsame.mp hk)),ite_self]

theorem hung_newLeaf (value : RowId) (hkey : key = path ++ (shared ++ left)) (tail : Bytes) (depth : Nat) :
    hung left.head? (.leaf (.new key value)) [value] (path ++ (shared ++ tail)) depth tail =
      if path ++ (shared ++ tail) = key then [value] else [] := by
  have hl := hung_leaf (show (LeafNode.new key value).key = _ from hkey) tail depth depth
  refine hl.trans ?_
  rw [getAllRecursive]
  exact if_congr eq_comm rfl rfl

theorem rep_splitLeaf (hr : path <+: leaf.key) (hkey : path <+: key) (hne : leaf.key ≠ key)
    (hsh : commonLen (key.drop path.length) (leaf.key.drop path.length) ≤ u32Max) (value : RowId) :
    Rep (splitLeaf leaf key value path.length) path (entries leaf.key leaf.allValues + entries key {value},Pi.single .node4 1) ∧
      (splitLeaf leaf key value path.length).leaves ≠ [] ∧
      Appended key value (.leaf leaf) (splitLeaf leaf key value path.length) path := by
  obtain ⟨keyRest,rfl⟩ := hkey
  obtain ⟨leafRest,hl⟩ := hr
  obtain ⟨shared,right,left,rfl,rfl,hln,hpr⟩ := exists_common keyRest leafRest
  have hd : leaf.key.drop path.length = shared ++ left := by rw [← hl,drop_left]
  rw [drop_left,hd,hln] at hsh
  have hlf : leaf.key[path.length+shared.length]? = left.head? := by rw [← hl,getElem?_after]
  have hs : splitLeaf leaf (path ++ (shared ++ right)) value path.length =
      .inner (.node4 (((pack 4 (.withPrefix shared) []).hang left.head? (.leaf leaf) leaf.allValues).hang
        right.head? (.leaf (.new (path ++ (shared ++ right)) value)) [value])) := by
    simp only [splitLeaf,drop_left,hd,hln,hlf,getElem?_after,take_left]
  obtain ⟨hbl,he⟩ := leaf_part hl.symm
  obtain ⟨hbl',he'⟩ := newLeaf_part value (rfl : path ++ (shared ++ right) = _)
  have ha : ∀ b ∈ right.head?, left.head? ≠ some b := fun b hb hb' => hpr b hb b hb' rfl
  obtain ⟨⟨below,hh⟩,hf⟩ := innerHolds_fork path hsh hbl he hbl' he' ha rfl
  have hlv : (splitLeaf leaf (path ++ (shared ++ right)) value path.length).leaves ≠ [] := by
    rw [hs]
    cases left with
    | cons b left =>
      exact ne_nil_of_mem (hh.wf.mem_leaves.mpr ⟨b,_,hf.first b rfl,ArtNode.mem_leaves_leaf _⟩)
    | nil =>
      cases right with
      | cons b right =>
        exact ne_nil_of_mem (hh.wf.mem_leaves.mpr ⟨b,_,hf.second b rfl,ArtNode.mem_leaves_leaf _⟩)
      | nil => exact absurd hl.symm hne
  have htt : ((0,Pi.single .node4 1)+(entries leaf.key leaf.allValues,0) +
      (entries (path ++ (shared ++ right)) {value},0) : Holdings) =
      (entries leaf.key leaf.allValues + entries (path ++ (shared ++ right)) {value},Pi.single .node4 1) := by
    rw [Prod.mk_add_mk,Prod.mk_add_mk,zero_add,add_zero,add_zero]
  rw [htt] at hh
  refine ⟨?_,hlv,?_⟩
  · rw [hs] at hlv ⊢
    exact rep ⟨hh,.inr (.inl hlv)⟩
  · rw [hs] at hlv ⊢
    refine ⟨?_,fun _ => hh.leafy_fork hlv hf (leafy_leaf _) (leafy_leaf _)⟩
    rintro _ ⟨rest,rfl⟩
    by_cases hp : shared <+: rest
    · obtain ⟨tail,rfl⟩ := hp
      rw [hh.getAll_fork (.inr hlv) hf ha,hung_leaf hl.symm,hung_newLeaf value rfl]
    -- Neither of the two keys is looked up.
    have hno : ∀ tail, path ++ rest ≠ path ++ (shared ++ tail) := fun tail heq =>
      hp ⟨tail,(append_cancel_left heq).symm⟩
    rw [hh.getAll_elsewhere (.inr hlv) hp,getAllRecursive,if_neg (hl ▸ (hno left).symm),if_neg (hno right)]
    rfl

theorem InnerHolds.prefixByteForSplit_eq (h : InnerHolds n path hidden below total)
    (hr : hidden.length ≤ maxPrefixLen ∨ (ArtNode.inner n).leaves ≠ []) {pos : Nat} (hp : pos < hidden.length) :
    prefixByteForSplit path.length pos n.header.getPrefix (ArtNode.inner n).firstLeafKey = .ok hidden[pos] := by
  rw [prefixByteForSplit,h.stored]
  by_cases htn : pos < maxPrefixLen
  · rw [getElem?_take_of_lt htn,getElem?_eq_getElem hp]
  obtain ⟨leaf,others,hh⟩ := exists_cons_of_ne_nil (hr.resolve_left (by omega))
  obtain ⟨tail,htl⟩ := h.path_of_leaf leaf (by rw [hh]; exact mem_cons_self)
  have hb : leaf.key[path.length+pos]? = some hidden[pos] := by
    rw [← htl,append_assoc,getElem?_append_right (by omega),Nat.add_sub_cancel_left,
      getElem?_append_left hp,getElem?_eq_getElem hp]
  rw [getElem?_take_eq_none (by omega),ArtNode.firstLeafKey_eq_head,hh]
  simp only [head?_cons,map_some,bind_some,hb]

theorem mapM_range'_eq_drop {f : Nat → Except Failure Byte} {bytes : Bytes} {start : Nat}
    (hf : ∀ pos (hp : pos < bytes.length), f pos = .ok bytes[pos]) :
    (List.range' start (bytes.length-start)).mapM f = .ok (bytes.drop start) := by
  obtain ⟨len,hl⟩ : ∃ len, bytes.length-start = len := ⟨_,rfl⟩
  induction len generalizing start with
  | zero =>
    rw [hl,drop_eq_nil_of_le (by omega)]
    rfl
  | succ len ih =>
    have hs : start < bytes.length := by omega
    have hn : bytes.length-(start+1) = len := by omega
    have hrest := ih hn
    rw [hn] at hrest
    rw [hl,range'_succ,mapM_cons,hf start hs,hrest,drop_eq_getElem_cons hs]
    rfl

theorem InnerHolds.leaves_setPrefix (h : InnerHolds n path hidden below total)
    (hlv : (ArtNode.inner n).leaves ≠ []) (remaining : Bytes) :
    (ArtNode.inner (n.modifyHeader fun header => header.setPrefix remaining)).leaves ≠ [] := by
  obtain ⟨leaf,hl⟩ := exists_mem_of_ne_nil _ hlv
  obtain ⟨b,child,hg,hm⟩ := h.wf.mem_leaves.mp hl
  obtain ⟨hwf,hsame,-⟩ := h.wf.modifyHeader (f := fun header => header.setPrefix remaining) fun _ => rfl
  exact ne_nil_of_mem (hwf.mem_leaves.mpr ⟨b,child,by rw [hsame]; exact hg,hm⟩)

theorem InnerHolds.hung_reprefixed (h : InnerHolds n path hidden below total)
    (hr : hidden.length ≤ maxPrefixLen ∨ (ArtNode.inner n).leaves ≠ []) {oldByte : Byte} {remaining : Bytes}
    (hf : hidden = shared ++ [oldByte] ++ remaining)
    (hold : InnerHolds (n.modifyHeader fun header => header.setPrefix remaining) (path ++ shared ++ [oldByte]) remaining
      below total) (tail : Bytes) : hung (some oldByte) (.inner (n.modifyHeader fun header => header.setPrefix remaining)) []
        (path ++ (shared ++ tail)) (path.length+shared.length+1) tail =
      getAllRecursive (path ++ (shared ++ tail)) (.inner n) path.length := by
  have hrc : remaining.length ≤ maxPrefixLen ∨
      (ArtNode.inner (n.modifyHeader fun header => header.setPrefix remaining)).leaves ≠ [] := by
    refine hr.imp (fun hsh => ?_) fun hlv => h.leaves_setPrefix hlv remaining
    rw [hf,length_append] at hsh
    omega
  obtain ⟨-,hg,hh,-⟩ := h.wf.modifyHeader (f := fun header => header.setPrefix remaining) fun _ => rfl
  have hd : path.length+shared.length+1 = (path ++ shared ++ [oldByte]).length := by simp [Nat.add_assoc]
  have hold_key : ∀ t, path ++ (shared ++ oldByte::t) = path ++ shared ++ [oldByte] ++ t := by simp
  have hkey : ∀ t, path ++ shared ++ [oldByte] ++ (remaining ++ t) = path ++ (hidden ++ t) := by simp [hf]
  cases tail with
  | nil =>
    refine (h.getAll_elsewhere hr fun hp => ?_).symm
    have hln := hp.length_le
    rw [hf] at hln
    simp only [length_append,length_cons,length_nil] at hln
    omega
  | cons b tail =>
    rw [hung]
    by_cases hb : oldByte = b
    · subst hb
      rw [if_pos rfl,hd,hold_key]
      by_cases hp : remaining <+: tail
      · obtain ⟨rest,rfl⟩ := hp
        cases rest with
        | nil =>
          have hl := hkey []
          rw [append_nil] at hl ⊢
          rw [hold.getAll_end hrc,hl,append_nil,h.getAll_end hr,hh]
          rfl
        | cons b' rest =>
          rw [hold.getAll_child hrc,hkey,h.getAll_child hr,hg]
          refine congrArg (lookAt _ _) ?_
          rw [hf]
          simp
      · rw [hold.getAll_elsewhere hrc hp,append_assoc,append_assoc,
          h.getAll_elsewhere hr fun hpr => hp ?_]
        rw [hf,append_assoc,prefix_append_right_inj,prefix_append_right_inj] at hpr
        exact hpr
    · rw [if_neg fun heq => hb (Option.some.inj heq),h.getAll_elsewhere hr fun hpr => hb ?_]
      rw [hf,append_assoc,prefix_append_right_inj] at hpr
      exact (cons_prefix_cons.mp hpr).1

theorem InnerRep.splitNode_ok (h : InnerRep n path hidden below total)
    (hr : hidden.length ≤ maxPrefixLen ∨ (ArtNode.inner n).leaves ≠ []) {rest : Bytes}
    (hlt : commonLen hidden rest < hidden.length) (value : RowId) (c : Counters) :
    ∃ node' c', splitNode n (path ++ rest) value path.length (commonLen hidden rest) c = .ok (node',c') ∧
      Rep node' path (total.1 + entries (path ++ rest) {value},total.2 + Pi.single .node4 1) ∧
      c'.nodeCount = c.nodeCount + Pi.single .node4 1 ∧ c'.size = c.size ∧
      ((ArtNode.inner n).leaves ≠ [] → node'.leaves ≠ []) ∧ Appended (path ++ rest) value (.inner n) node' path := by
  obtain ⟨shared,old,right,hh,rfl,hln,hpt⟩ := exists_common hidden rest
  rw [hln] at hlt ⊢
  obtain ⟨oldByte,remaining,rfl⟩ : ∃ oldByte remaining, old = oldByte::remaining := by
    refine exists_cons_of_ne_nil fun hnl => ?_
    rw [hh,hnl,append_nil] at hlt
    exact Nat.lt_irrefl _ hlt
  have hby : prefixByteForSplit path.length shared.length n.header.getPrefix (ArtNode.inner n).firstLeafKey =
      .ok oldByte := by
    have hg : hidden[shared.length] = oldByte := by simp [hh]
    rw [h.prefixByteForSplit_eq hr hlt,hg]
  have hbt : prefixBytesForSplit path.length (shared.length+1) n.header.prefixLen n.header.getPrefix
      (ArtNode.inner n).firstLeafKey = .ok remaining := by
    have hd : hidden.drop (shared.length+1) = remaining := by
      rw [hh,drop_append]
      simp
    rw [prefixBytesForSplit,h.prefixLen,mapM_range'_eq_drop fun pos hps => h.prefixByteForSplit_eq hr hps,hd]
  have hrn : ¬(path ++ (shared ++ right)).length < path.length+shared.length := by
    rw [length_append,length_append]
    omega
  obtain ⟨m,hm⟩ : ∃ m, m = ((pack 4 (.withPrefix shared) []).hang (some oldByte)
      (.inner (n.modifyHeader fun header => header.setPrefix remaining)) []).hang right.head?
        (.leaf (.new (path ++ (shared ++ right)) value)) [value] := ⟨_,rfl⟩
  have hok : splitNode n (path ++ (shared ++ right)) value path.length shared.length c = .ok (.inner (.node4 m),
      { c.addNode .node4 with leafCount := if right.head?.isSome then c.leafCount+1 else c.leafCount }) := by
    simp only [splitNode,hby,hbt,if_neg hrn,getElem?_after,drop_left,take_left,hm]
    rfl
  have hph : path ++ (shared ++ [oldByte]) = path ++ shared ++ [oldByte] := (append_assoc _ _ _).symm
  have hf : hidden = (shared ++ [oldByte]) ++ remaining := by rw [hh,append_assoc]; rfl
  have hold : InnerRep (n.modifyHeader fun header => header.setPrefix remaining) (path ++ shared ++ [oldByte]) remaining
      below total := by
    refine ⟨hph ▸ h.reprefix hf,?_⟩
    obtain hsh | hl := hr
    · left
      rw [hf,length_append] at hsh
      omega
    · exact .inr (.inl (h.leaves_setPrefix hl remaining))
  have hc : ∀ b, some oldByte = some b → Rep (.inner (n.modifyHeader fun header => header.setPrefix remaining))
      (path ++ shared ++ [b]) total := fun b hb => Option.some.inj hb ▸ hold.rep
  obtain ⟨hbl,he⟩ := newLeaf_part value (rfl : path ++ (shared ++ right) = _)
  have ha : ∀ b ∈ right.head?, some oldByte ≠ some b := fun b hb heq => hpt oldByte rfl b hb (Option.some.inj heq)
  obtain ⟨⟨below',hhl⟩,hfk⟩ := innerHolds_fork path (Nat.le_trans (Nat.le_of_lt hlt) h.short) hc
    nofun hbl he ha hm
  have htt : ((0,Pi.single .node4 1)+total+(entries (path ++ (shared ++ right)) {value},0) : Holdings) =
      (total.1 + entries (path ++ (shared ++ right)) {value},total.2 + Pi.single .node4 1) := by
    refine Prod.ext ?_ ?_
    · simp
    · simp [add_comm]
  rw [htt] at hhl
  have hl : (ArtNode.inner n).leaves ≠ [] → (ArtNode.inner (.node4 m)).leaves ≠ [] := by
    intro hn
    obtain ⟨leaf,hle⟩ := exists_mem_of_ne_nil _ (h.leaves_setPrefix hn remaining)
    exact ne_nil_of_mem (hhl.wf.mem_leaves.mpr ⟨oldByte,_,hfk.first oldByte rfl,hle⟩)
  have hrc : shared.length ≤ maxPrefixLen ∨ (ArtNode.inner (.node4 m)).leaves ≠ [] := by
    obtain hsh | hn := hr
    · exact .inl (by omega)
    · exact .inr (hl hn)
  refine ⟨_,_,hok,rep ⟨hhl,hrc.imp_right .inl⟩,c.nodeCount_addNode .node4,rfl,hl,?_,?_⟩
  · rintro _ ⟨rest,rfl⟩
    by_cases hp : shared <+: rest
    · obtain ⟨tail,rfl⟩ := hp
      rw [hhl.getAll_fork hrc hfk ha,hung_newLeaf value rfl]
      refine congrArg (· ++ _) ?_
      exact h.hung_reprefixed hr hf hold.toInnerHolds tail
    · rw [hhl.getAll_elsewhere hrc hp,h.getAll_elsewhere hr fun hpr => hp ?_,if_neg fun heq => hp ?_]
      · rfl
      · rw [append_cancel_left heq]
        exact prefix_append shared right
      · rw [hh] at hpr
        exact (prefix_append _ _).trans hpr
  · intro hlf
    obtain ⟨hs,hch⟩ := h.wf.leafy_iff.mp hlf
    refine hhl.leafy_fork (hl hs) hfk ?_ (leafy_leaf _)
    refine hold.wf.leafy_iff.mpr ⟨h.leaves_setPrefix hs remaining,fun b child hg => ?_⟩
    rw [(h.wf.modifyHeader (f := fun header => header.setPrefix remaining) fun _ => rfl).2.1] at hg
    exact hch b child hg

end
section
variable {n n' : Inner ArtNode} {node : ArtNode} {path hidden key : Bytes} {below : Byte → Holdings} {total : Holdings}
  {b : Byte}

variable (h : InnerHolds n path hidden below total)
include h

theorem InnerHolds.exists_others (b : Byte) : ∃ others, total.2 = (below b).2 + others := by
  have hs := sum_update_add below b 0
  rw [add_zero] at hs
  refine ⟨(ownHoldings n (path ++ hidden) + ∑ b', Function.update below b 0 b').2,?_⟩
  rw [h.held,← hs]
  simp only [Prod.snd_add]
  abel

theorem InnerHolds.one_le_layout : 1 ≤ total.2 n.layout := by
  rw [h.held]
  simp [ownHoldings]

variable {child : ArtNode} {value : RowId}

omit h in
theorem leaves_ne_nil_of_update (hwf : n.Wf)
    (hn : n.Becomes n' (Function.update n.getChild b (some child))) (hlv : (ArtNode.inner n).leaves ≠ [])
    (hk : ∀ old, n.getChild b = some old → old.leaves ≠ [] → child.leaves ≠ []) : (ArtNode.inner n').leaves ≠ [] := by
  obtain ⟨leaf,hl⟩ := exists_mem_of_ne_nil _ hlv
  obtain ⟨b',old,hg,hm⟩ := hwf.mem_leaves.mp hl
  by_cases hbb : b' = b
  · subst hbb
    obtain ⟨leaf',hl'⟩ := exists_mem_of_ne_nil _ (hk old hg (ne_nil_of_mem hm))
    refine ne_nil_of_mem (hn.wf.mem_leaves.mpr ⟨b',child,?_,hl'⟩)
    rw [hn.children,update_self]
  · refine ne_nil_of_mem (hn.wf.mem_leaves.mpr ⟨b',old,?_,hm⟩)
    rw [hn.children,update_of_ne hbb]
    exact hg

variable {total' : Holdings} {below' : Byte → Holdings}

theorem InnerHolds.appended (h' : InnerHolds n' path hidden below' total')
    (hr : hidden.length ≤ maxPrefixLen ∨ (ArtNode.inner n).leaves ≠ [])
    (hlv : (ArtNode.inner n).leaves ≠ [] → (ArtNode.inner n').leaves ≠ []) (hkey : path ++ hidden <+: key)
    (he : n'.header.values = n.header.values ++ if path ++ hidden = key then [value] else [])
    (hc : ∀ b, (∀ k, path ++ hidden ++ [b] <+: k → lookAt (n'.getChild b) k (path ++ hidden ++ [b]).length =
      lookAt (n.getChild b) k (path ++ hidden ++ [b]).length ++ if k = key then [value] else []) ∧
      ((∀ old, n.getChild b = some old → Leafy old) → ∀ child, n'.getChild b = some child → Leafy child)) :
    Appended key value (.inner n) (.inner n') path := by
  have hrec' := hr.imp_right hlv
  constructor
  · rintro _ ⟨rest,rfl⟩
    by_cases hp : hidden <+: rest
    · obtain ⟨tail,rfl⟩ := hp
      cases tail with
      | nil => rw [append_nil,h'.getAll_end hrec',h.getAll_end hr,he]
      | cons b tail =>
        rw [h'.getAll_child hrec',h.getAll_child hr]
        exact (hc b).1 _ (h.next_byte b tail).1
    · rw [h'.getAll_elsewhere hrec' hp,h.getAll_elsewhere hr hp,if_neg fun heq => hp ?_]
      · rfl
      · rw [← heq,prefix_append_right_inj] at hkey
        exact hkey
  · intro hl
    obtain ⟨hs,hch⟩ := h.wf.leafy_iff.mp hl
    exact h'.wf.leafy_iff.mpr ⟨hlv hs,fun b => (hc b).2 (hch b)⟩

omit h in
theorem InnerRep.pushValue (h : InnerRep n path hidden below total)
    (hr : hidden.length ≤ maxPrefixLen ∨ (ArtNode.inner n).leaves ≠ []) (value : RowId) :
    ∃ total', Rep (.inner (n.modifyHeader fun header => header.pushValue value)) path total' ∧
      total'.1 = total.1 + entries (path ++ hidden) {value} ∧ total'.2 = total.2 ∧ ((ArtNode.inner n).leaves ≠ [] →
        (ArtNode.inner (n.modifyHeader fun header => header.pushValue value)).leaves ≠ []) ∧
      Appended (path ++ hidden) value (.inner n) (.inner (n.modifyHeader fun header => header.pushValue value)) path := by
  obtain ⟨total',hh,hf,hs⟩ := h.revalue (f := fun header => header.pushValue value)
    fun header => ⟨⟨rfl,rfl,rfl⟩,rfl⟩
  obtain ⟨hwf,hg,hhd,-⟩ := h.wf.modifyHeader (f := fun header => header.pushValue value) fun _ => rfl
  have hl : (ArtNode.inner n).leaves ≠ [] →
      (ArtNode.inner (n.modifyHeader fun header => header.pushValue value)).leaves ≠ [] := by
    intro hn
    obtain ⟨leaf,hlf⟩ := exists_mem_of_ne_nil _ hn
    obtain ⟨b,child,hc,hm⟩ := h.wf.mem_leaves.mp hlf
    exact ne_nil_of_mem (hwf.mem_leaves.mpr ⟨b,child,by rw [hg]; exact hc,hm⟩)
  have ha : Appended (path ++ hidden) value (.inner n)
      (.inner (n.modifyHeader fun header => header.pushValue value)) path := by
    refine h.appended hh hr hl prefix_rfl ?_ fun b => ⟨fun k hk => ?_,fun hold => ?_⟩
    · rw [hhd,if_pos rfl]
      rfl
    · have hne : k ≠ path ++ hidden := fun heq => absurd hk.length_le (by simp [heq])
      rw [hg,if_neg hne,append_nil]
    · rw [hg]
      exact hold
  refine ⟨total',rep ⟨hh,?_⟩,add_right_cancel (hf.trans ?_),hs,hl,ha⟩
  · exact hr.imp_right fun hn => .inl (hl hn)
  · change total.1 + entries (path ++ hidden) ↑(n.header.values ++ [value]) =
      total.1 + entries (path ++ hidden) {value} + entries (path ++ hidden) ↑n.header.values
    rw [← Multiset.coe_add,entries_add,add_right_comm,add_assoc]
    rfl

theorem InnerHolds.appended_below (h' : InnerHolds n' path hidden below' total')
    (hr : hidden.length ≤ maxPrefixLen ∨ (ArtNode.inner n).leaves ≠ [])
    (hlv : (ArtNode.inner n).leaves ≠ [] → (ArtNode.inner n').leaves ≠ [])
    (hn : n.Becomes n' (Function.update n.getChild b (some child))) (hkey : path ++ hidden ++ [b] <+: key)
    (hlk : ∀ k, path ++ hidden ++ [b] <+: k → getAllRecursive k child (path ++ hidden ++ [b]).length =
        lookAt (n.getChild b) k (path ++ hidden ++ [b]).length ++ if k = key then [value] else [])
    (hl : (∀ old, n.getChild b = some old → Leafy old) → Leafy child) : Appended key value (.inner n) (.inner n') path := by
  have hne : path ++ hidden ≠ key := fun heq => absurd hkey.length_le (by simp [← heq])
  refine h.appended h' hr hlv ((prefix_append _ _).trans hkey) ?_ fun b' => ?_
  · rw [hn.agrees.2.2,if_neg hne,append_nil]
  · rw [hn.children]
    by_cases hb : b' = b
    · subst hb
      rw [update_self]
      refine ⟨hlk,fun hold new hnew => ?_⟩
      exact Option.some.inj hnew ▸ hl hold
    · rw [update_of_ne hb]
      refine ⟨fun k hk => ?_,id⟩
      have ho : k ≠ key := fun heq =>
        hb (Option.some.inj ((getElem?_of_snoc (heq ▸ hk)).symm.trans (getElem?_of_snoc hkey)))
      rw [if_neg ho,append_nil]

omit h

theorem InnerRep.replaceChild (h : InnerRep n path hidden below total)
    (hr : hidden.length ≤ maxPrefixLen ∨ (ArtNode.inner n).leaves ≠ []) {old : ArtNode} {part : Holdings}
    {added : Multimap Bytes RowId} (hg : n.getChild b = some old) (hc : Rep child (path ++ hidden ++ [b]) part)
    (had : part.1 = (below b).1 + added) (hk : old.leaves ≠ [] → child.leaves ≠ []) (hkey : path ++ hidden ++ [b] <+: key)
    (ha : Appended key value old child (path ++ hidden ++ [b])) :
    ∃ total', Rep (.inner (n.setChild b child)) path total' ∧ total'.1 = total.1+added ∧
      total'.2+(below b).2 = total.2+part.2 ∧
      ((ArtNode.inner n).leaves ≠ [] → (ArtNode.inner (n.setChild b child)).leaves ≠ []) ∧
      Appended key value (.inner n) (.inner (n.setChild b child)) path := by
  obtain ⟨hn,hly⟩ := h.wf.setChild hg child
  obtain ⟨total',hh,hf,hs⟩ := h.update hn (show RepAt (some child) _ part from hc)
  have hlv : (ArtNode.inner n).leaves ≠ [] → (ArtNode.inner (n.setChild b child)).leaves ≠ [] := fun hl =>
    leaves_ne_nil_of_update h.wf hn hl fun old' ho' => by
      rw [hg,some.injEq] at ho'
      rw [← ho']
      exact hk
  rw [hly] at hs
  refine ⟨total',rep ⟨hh,hr.imp_right fun hl => .inl (hlv hl)⟩,?_,add_right_cancel hs,hlv,?_⟩
  · refine add_right_cancel (hf.trans ?_)
    rw [had,add_comm (below b).1,← add_assoc]
  · refine h.appended_below hh hr hlv hn hkey ?_ ?_
    · rw [hg]
      exact ha.lookups
    · intro hold
      exact ha.leafy (hold old hg)

theorem InnerRep.addLeaf (h : InnerRep n path hidden below total)
    (hr : hidden.length ≤ maxPrefixLen ∨ (ArtNode.inner n).leaves ≠ []) (hg : n.getChild b = none)
    (hkey : path ++ hidden ++ [b] <+: key) (value : RowId) :
    ∃ total', Rep (.inner (n.addChild b (.leaf (.new key value)))) path total' ∧ total'.1 = total.1 + entries key {value} ∧
      total'.2 + Pi.single n.layout 1 = total.2 + Pi.single (n.addChild b (.leaf (.new key value))).layout 1 ∧
      (ArtNode.inner (n.addChild b (.leaf (.new key value)))).leaves ≠ [] ∧
      Appended key value (.inner n) (.inner (n.addChild b (.leaf (.new key value)))) path := by
  have hn := h.wf.addChild hg (.leaf (.new key value))
  have hlf : Rep (.leaf (.new key value)) (path ++ hidden ++ [b]) (entries key {value},0) :=
    @Rep.leaf (.new key value) _ hkey
  obtain ⟨total',hh,hf,hs⟩ := h.update hn (show RepAt (some (.leaf (.new key value))) _ _ from hlf)
  have hl : (ArtNode.inner (n.addChild b (.leaf (.new key value)))).leaves ≠ [] := by
    have hnew : (n.addChild b (.leaf (.new key value))).getChild b = some (.leaf (.new key value)) := by
      rw [hn.children,update_self]
    exact ne_nil_of_mem (hn.wf.mem_leaves.mpr ⟨b,_,hnew,ArtNode.mem_leaves_leaf _⟩)
  rw [h.vacant b hg] at hf hs
  refine ⟨total',rep ⟨hh,.inr (.inl hl)⟩,by simpa using hf,by simpa using hs,hl,?_⟩
  refine h.appended_below hh hr (fun _ => hl) hn hkey (fun k hk => ?_) fun _ => leafy_leaf _
  rw [hg,getAllRecursive]
  exact if_congr eq_comm rfl rfl

theorem mem_visits_self (key : Bytes) (node : ArtNode) (depth : Nat) : (node,depth) ∈ visits key node depth := by
  rw [visits.eq_def]
  exact mem_cons_self

theorem mem_visits_child {depth : Nat} {visit : ArtNode × Nat}
    (hmt : ¬prefixMismatchPos n key depth < n.header.prefixLen) (hm : depth+n.header.prefixLen < key.length)
    (hg : n.getChild key[depth+n.header.prefixLen] = some child)
    (hv : visit ∈ visits key child (depth+n.header.prefixLen+1)) : visit ∈ visits key (.inner n) depth := by
  rw [visits.eq_def]
  simp only [if_neg hmt,dif_pos hm,hg]
  exact mem_cons_of_mem _ hv

theorem Rep.insertIntoNode_ok {indexType : ArtIndexType} (name : String) (value : RowId) (h : Rep node path total)
    (hkey : path <+: key) (hopen : ∀ visit ∈ visits key node path.length, Admits key visit)
    (hfr : indexType.isUnique → valuesAt total.1 key = 0) {others : Layout → Nat} {c : Counters}
    (hc : c.nodeCount = total.2+others) :
    ∃ node' total' c', insertIntoNode indexType name key value node path.length c = .ok (node',c') ∧
      Rep node' path total' ∧ total'.1 = total.1 + entries key {value} ∧ c'.nodeCount = total'.2+others ∧
      c'.size = c.size ∧ (node.leaves ≠ [] → node'.leaves ≠ []) ∧ Appended key value node node' path := by
  induction h using Rep.inductOn generalizing others c with
  | leaf leaf path reached =>
    have hrt := hopen _ (mem_visits_self key _ _)
    rw [insertIntoNode]
    by_cases heq : leaf.key = key
    · subst heq
      refine ⟨_,_,_,if_pos rfl,.leaf reached,?_,hc,rfl,fun _ => ?_,fun k hk => ?_,fun _ => leafy_leaf _⟩
      · change entries leaf.key ↑(leaf.primary::(leaf.extra ++ [value])) =
          entries leaf.key ↑(leaf.primary::leaf.extra) + entries leaf.key {value}
        rw [← entries_add,← cons_append]
        rfl
      · exact ne_nil_of_mem (ArtNode.mem_leaves_leaf _)
      · rw [Art.getAllRecursive,Art.getAllRecursive]
        by_cases hk : k = leaf.key
        · rw [if_pos hk,if_pos hk.symm]
          exact if_pos hk.symm
        · rw [if_neg hk,if_neg (Ne.symm hk)]
          exact if_neg (Ne.symm hk)
    · obtain ⟨hr,hl,ha⟩ := rep_splitLeaf reached hkey heq (hrt.resolve_left heq) value
      refine ⟨_,_,_,if_neg heq,hr,rfl,?_,rfl,fun _ => hl,ha⟩
      change (c.addNode .node4).nodeCount = Pi.single .node4 1 + others
      rw [Counters.nodeCount_addNode,hc,zero_add,add_comm]
  | inner n path hidden below total h ih =>
    have hrc : hidden.length ≤ maxPrefixLen ∨ (ArtNode.inner n).leaves ≠ [] := by
      rw [← h.prefixLen]
      exact hopen _ (mem_visits_self key _ _)
    obtain ⟨rest,rfl⟩ := hkey
    have hps := h.prefixMismatchPos_eq hrc rest
    rw [insertIntoNode,hps,h.prefixLen]
    by_cases hlt : commonLen hidden rest < hidden.length
    · obtain ⟨node',c',hok,hr,hn,hs,hl⟩ := h.splitNode_ok hrc hlt value c
      refine ⟨node',_,c',(if_pos hlt).trans hok,hr,rfl,?_,hs,hl⟩
      rw [hn,hc]
      exact add_right_comm _ _ _
    · obtain ⟨tail,rfl⟩ := (length_le_commonLen_iff hidden rest).mp (Nat.not_lt.mp hlt)
      rw [← h.prefixLen]
      rw [← h.prefixLen] at hlt
      rw [if_neg hlt]
      cases tail with
      | nil =>
        rw [append_nil] at hfr ⊢
        have hd : ¬(indexType.isUnique ∧ n.header.values ≠ []) := by
          rintro ⟨hu,hvl⟩
          have hnn := hfr hu
          rw [h.valuesAt_end] at hnn
          exact hvl ((Multiset.coe_eq_zero _).mp hnn)
        obtain ⟨total',hr,hf,hsn,hl⟩ := h.pushValue hrc value
        refine ⟨_,total',c,(dif_neg (by simp [h.prefixLen])).trans (if_neg hd),hr,hf,?_,rfl,hl⟩
        rw [hsn]
        exact hc
      | cons b tail =>
        obtain ⟨hp,hln,hm,hb⟩ := h.next_byte b tail
        rw [dif_pos hm]
        simp only [hb]
        cases hg : n.getChild b with
        | none =>
          obtain ⟨total',hr,hf,hsn,hl,ha⟩ := h.addLeaf hrc hg hp value
          have hon : 1 ≤ c.nodeCount n.layout := by
            rw [hc]
            exact Nat.le_trans h.one_le_layout (Nat.le_add_right _ _)
          obtain ⟨c',hok,hn,hs,-⟩ := Counters.relayout_ok (c := { c with leafCount := c.leafCount+1 })
            (n.addChild b (.leaf (.new (path ++ (hidden ++ b::tail)) value))).layout hon
          refine ⟨_,total',c',by simp only [hok]; rfl,hr,hf,?_,hs,fun _ => hl,ha⟩
          refine add_right_cancel (hn.trans ?_)
          rw [hc,add_right_comm total'.2,hsn,add_right_comm]
        | some child =>
          have hv : ∀ visit ∈ visits (path ++ (hidden ++ b::tail)) child (path ++ hidden ++ [b]).length,
              Admits (path ++ (hidden ++ b::tail)) visit := by
            intro visit hvs
            rw [hln] at hvs
            exact hopen visit (mem_visits_child (by rw [hps]; exact hlt) hm (by rw [hb]; exact hg) hvs)
          obtain ⟨others',ho⟩ := h.exists_others b
          obtain ⟨child',part,c',hok,hr,had,hn,hs,hkp,ha⟩ := ih b child hg hp hv
            (fun hu => by rw [← h.valuesAt_child hp]; exact hfr hu)
            (hc.trans (by rw [ho,add_assoc]))
          obtain ⟨total',hr',hf,hsn,hl⟩ := h.replaceChild hrc hg hr had hkp hp ha
          rw [hln] at hok
          refine ⟨_,total',c',by simp only [hok]; rfl,hr',hf,?_,hs,hl⟩
          rw [ho,add_comm (below b).2,add_right_comm] at hsn
          rw [hn,add_right_cancel hsn]
          abel

end
end HeliosNano.Storage.Art
