import HeliosNano.Storage.Art.Snapshot

/-! Insertions that fail. An error below the root leaves the index without its nodes, and it arises where a prefix has to be split
of which the bytes cannot be read any more. -/
namespace HeliosNano.Storage.Art
open Foundation List Function Option ArtNode

/-- A subtree at a depth: its inner nodes list their children, and its leaves have keys of at least the bytes that lead to
them. -/
inductive Reaches : ArtNode → Nat → Prop
  | leaf {leaf : LeafNode} {depth : Nat} (long : depth ≤ leaf.key.length) : Reaches (.leaf leaf) depth
  | inner {n : Inner ArtNode} {depth : Nat} (wf : n.Wf)
    (child : ∀ b child, n.getChild b = some child → Reaches child (depth+n.header.prefixLen+1)) :
    Reaches (.inner n) depth

/-- The bytes of a prefix are all stored, or a leaf tells the others. -/
def Recoverable : ArtNode → Prop
  | .leaf _ => True
  | .inner n => n.header.prefixLen ≤ maxPrefixLen ∨ (inner n).leaves ≠ []

instance (node : ArtNode) : Decidable (Recoverable node) :=
  match node with
  | .leaf _ => .isTrue trivial
  | .inner n => inferInstanceAs (Decidable (n.header.prefixLen ≤ maxPrefixLen ∨ (inner n).leaves ≠ []))

section
variable {node : ArtNode} {n n' : Inner ArtNode} {m : KeyedNode ArtNode} {depth depth' : Nat} {key : Bytes} {value : RowId}

theorem Reaches.of_le (h : Reaches node depth) (hle : depth' ≤ depth) : Reaches node depth' := by
  induction h generalizing depth' with
  | leaf long => exact .leaf (Nat.le_trans hle long)
  | inner wf child ih =>
    refine .inner wf fun b c hg => ih b c hg ?_
    omega

theorem Reaches.length_of_leaf (h : Reaches node depth) : ∀ leaf ∈ node.leaves, depth ≤ leaf.key.length := by
  induction h with
  | leaf long =>
    intro leaf hm
    rw [leaves,mem_singleton] at hm
    rw [hm]
    exact long
  | inner wf child ih =>
    intro leaf hm
    obtain ⟨b,c,hg,hl⟩ := wf.mem_leaves.mp hm
    have := ih b c hg leaf hl
    omega

variable (h : Reaches (.inner n) depth)
include h

theorem Reaches.wf : n.Wf := by
  cases h with
  | inner wf child => exact wf

theorem Reaches.child {b : Byte} {child : ArtNode} (hg : n.getChild b = some child) :
    Reaches child (depth+n.header.prefixLen+1) := by
  cases h with
  | inner wf below => exact below b child hg

theorem Reaches.prefix_lt : ∀ leaf ∈ (ArtNode.inner n).leaves, depth+n.header.prefixLen < leaf.key.length := by
  intro leaf hm
  obtain ⟨b,c,hg,hl⟩ := h.wf.mem_leaves.mp hm
  exact (h.child hg).length_of_leaf leaf hl

theorem Reaches.becomes {g : Byte → Option ArtNode} (hn : n.Becomes n' g)
    (hg : ∀ b child, g b = some child → n.getChild b = some child ∨ Reaches child (depth+n.header.prefixLen+1)) :
    Reaches (.inner n') depth := by
  refine .inner hn.wf fun b child hgt => ?_
  rw [hn.children] at hgt
  rw [hn.agrees.1]
  exact (hg b child hgt).elim (fun hold => h.child hold) id

theorem Reaches.update {b : Byte} {child : Option ArtNode} (hn : n.Becomes n' (Function.update n.getChild b child))
    (hc : ∀ c ∈ child, Reaches c (depth+n.header.prefixLen+1)) : Reaches (.inner n') depth := by
  refine h.becomes hn fun b' c hg => ?_
  by_cases hb : b' = b
  · rw [hb,update_self] at hg
    exact .inr (hc c hg)
  · rw [update_of_ne hb] at hg
    exact .inl hg

theorem Reaches.revalue {f : NodeHeader → NodeHeader}
    (hf : ∀ header, (f header).numChildren = header.numChildren ∧ (f header).prefixLen = header.prefixLen) :
    Reaches (.inner (n.modifyHeader f)) depth := by
  obtain ⟨hwf,hg,hh,-⟩ := h.wf.modifyHeader fun header => (hf header).1
  refine .inner hwf fun b child hc => ?_
  rw [hg] at hc
  rw [hh,(hf n.header).2]
  exact h.child hc

theorem Reaches.reprefix {remaining : Bytes} (hl : depth'+remaining.length ≤ depth+n.header.prefixLen) :
    Reaches (.inner (n.modifyHeader fun header => header.setPrefix remaining)) depth' := by
  obtain ⟨hwf,hg,hh,-⟩ := h.wf.modifyHeader (f := fun header => header.setPrefix remaining) fun _ => rfl
  refine .inner hwf fun b child hc => ?_
  rw [hg] at hc
  have hle : (n.header.setPrefix remaining).prefixLen ≤ remaining.length := Nat.mod_le _ _
  rw [hh]
  exact (h.child hc).of_le (by omega)

end

section
variable {m : KeyedNode ArtNode} {depth : Nat} {key : Bytes} {value : RowId}

theorem KeyedNode.hang_becomes (hwf : (Inner.node4 m).Wf) (hr : m.header.numChildren < 4) {b : Byte} (hn : m.getChild b = none)
    (child : ArtNode) (values : List RowId) :
    (Inner.node4 m).Becomes (.node4 (m.hang (some b) child values)) (Function.update m.getChild b (some child)) ∧
      (m.hang (some b) child values).header.numChildren = m.header.numChildren+1 := by
  obtain ⟨slots,hs⟩ := hwf
  obtain ⟨hwf,hg,hh⟩ := hs.addChild_becomes (by rw [← hs.count]; exact hr) hn child
  refine ⟨⟨hwf,hg,.of_count hh⟩,?_⟩
  rw [KeyedNode.hang,hh]

theorem Reaches.hang (h : Reaches (.inner (.node4 m)) depth) (hr : m.header.numChildren < 4) {byte : Option Byte}
    {child : ArtNode} {values : List RowId}
    (hch : ∀ b ∈ byte, m.getChild b = none ∧ Reaches child (depth+m.header.prefixLen+1)) :
    Reaches (.inner (.node4 (m.hang byte child values))) depth ∧
      (m.hang byte child values).header.prefixLen = m.header.prefixLen ∧
      (m.hang byte child values).header.numChildren ≤ m.header.numChildren+1 ∧
      ∀ b, byte ≠ some b → (m.hang byte child values).getChild b = m.getChild b := by
  cases byte with
  | none =>
    refine ⟨?_,rfl,Nat.le_succ _,fun b _ => rfl⟩
    exact @Reaches.revalue (.node4 m) depth h (fun header => { header with values := header.values ++ values })
      fun _ => ⟨rfl,rfl⟩
  | some b =>
    obtain ⟨hn,hrc⟩ := hch b rfl
    obtain ⟨hb,hcn⟩ := m.hang_becomes h.wf hr hn child values
    refine ⟨h.update hb fun c hc => Option.some.inj hc ▸ hrc,hb.agrees.1,le_of_eq hcn,fun b' hb' => ?_⟩
    rw [show (m.hang (some b) child values).getChild = _ from hb.children]
    exact update_of_ne (fun heq => hb' (congrArg some heq.symm)) _ _

theorem reaches_empty (shared : Bytes) : Reaches (.inner (.node4 (.pack 4 (.withPrefix shared) []))) depth := by
  refine .inner ⟨[],holds_pack_nil _ rfl⟩ fun b child hg => ?_
  rw [Inner.getChild,getChild_pack_nil (.withPrefix shared) rfl] at hg
  cases hg

theorem reaches_fork {shared : Bytes} {byte₁ byte₂ : Option Byte} {child₁ child₂ : ArtNode} {values₁ values₂ : List RowId}
    (h₁ : ∀ b ∈ byte₁, Reaches child₁ (depth+shared.length+1))
    (h₂ : ∀ b ∈ byte₂, Reaches child₂ (depth+shared.length+1)) (hp : ∀ b ∈ byte₁, byte₂ ≠ some b) :
    Reaches (.inner (.node4 (((KeyedNode.pack 4 (.withPrefix shared) []).hang byte₁ child₁ values₁).hang byte₂ child₂ values₂)))
      depth := by
  have he := getChild_pack_nil (.withPrefix shared) rfl
  have hle : (NodeHeader.withPrefix shared).prefixLen ≤ shared.length := Nat.mod_le _ _
  have hnew := @reaches_empty depth shared
  obtain ⟨hf,hl,hr,hk⟩ := @Reaches.hang _ _ hnew (Nat.zero_lt_succ 3) byte₁ child₁ values₁ fun b hb =>
    ⟨by rw [he],(h₁ b hb).of_le (Nat.succ_le_succ (Nat.add_le_add_left hle depth))⟩
  refine (hf.hang (Nat.lt_of_le_of_lt hr (show 0+1 < 4 by omega)) fun b hb => ⟨?_,?_⟩).1
  · rw [hk b fun heq => hp b heq hb,he]
  · rw [hl]
    exact (h₂ b hb).of_le (Nat.succ_le_succ (Nat.add_le_add_left hle depth))

theorem reaches_newLeaf {pos : Nat} {b : Byte} (hb : key[pos]? = some b) (value : RowId) :
    Reaches (.leaf (.new key value)) (pos+1) :=
  .leaf (List.getElem?_eq_some_iff.mp hb).1

theorem reaches_splitLeaf (leaf : LeafNode) (key : Bytes) (value : RowId) (depth : Nat) :
    Reaches (splitLeaf leaf key value depth) depth := by
  have hs := length_take_commonLen (key.drop depth) (leaf.key.drop depth)
  refine reaches_fork (fun b hb => ?_) (fun b hb => ?_) fun b hb => ?_
  · rw [hs]
    exact .leaf (List.getElem?_eq_some_iff.mp hb).1
  · rw [hs]
    exact reaches_newLeaf hb value
  · intro hb'
    rw [← getElem?_drop] at hb'
    refine getElem?_commonLen_ne hb' ?_
    rw [getElem?_drop]
    exact hb

end

section
variable {n : Inner ArtNode} {depth pos : Nat} {key : Bytes} {value : RowId} {c c' : Counters} {node' : ArtNode}

theorem NodeHeader.length_getPrefix (h : NodeHeader) : h.getPrefix.length = min h.prefixLen maxPrefixLen := by
  rw [NodeHeader.getPrefix,length_take,h.stored_length]
  omega

theorem prefixMismatchPos_cases (n : Inner ArtNode) (key : Bytes) (depth : Nat) :
    let common := commonLen n.header.getPrefix (key.drop depth)
    (prefixMismatchPos n key depth = common ∧ (common < n.header.getPrefix.length ∨ n.header.prefixLen ≤ common)) ∨
      common = n.header.getPrefix.length ∧ common < n.header.prefixLen ∧
        ((inner n).firstLeafKey = none ∧ prefixMismatchPos n key depth = common ∨
          ∃ representative, (inner n).firstLeafKey = some representative ∧ prefixMismatchPos n key depth =
            common + commonLen ((representative.drop (depth+common)).take (n.header.prefixLen-common))
              (key.drop (depth+common))) := by
  intro common
  have hle : common ≤ n.header.getPrefix.length := commonLen_le_left _ _
  unfold prefixMismatchPos
  by_cases hs : common < n.header.getPrefix.length ∨ n.header.prefixLen ≤ common
  · exact .inl ⟨if_pos hs,hs⟩
  refine .inr ⟨by omega,by omega,?_⟩
  dsimp only
  rw [if_neg hs]
  cases hf : (inner n).firstLeafKey with
  | none => exact .inl ⟨rfl,rfl⟩
  | some representative => exact .inr ⟨representative,rfl,rfl⟩

theorem add_prefixMismatchPos_le (n : Inner ArtNode) (hd : depth ≤ key.length) :
    depth + prefixMismatchPos n key depth ≤ key.length := by
  have hc := commonLen_le_right n.header.getPrefix (key.drop depth)
  rw [length_drop] at hc
  obtain ⟨hp,-⟩ | ⟨-,-,⟨-,hp⟩ | ⟨representative,-,hp⟩⟩ := prefixMismatchPos_cases n key depth
  · omega
  · omega
  have hrest := commonLen_le_right ((representative.drop (depth + commonLen n.header.getPrefix (key.drop depth))).take
    (n.header.prefixLen - commonLen n.header.getPrefix (key.drop depth)))
    (key.drop (depth + commonLen n.header.getPrefix (key.drop depth)))
  rw [length_drop] at hrest
  omega

theorem prefixByte_ne {byte : Byte} (hlt : prefixMismatchPos n key depth < n.header.prefixLen)
    (hb : prefixByteForSplit depth (prefixMismatchPos n key depth) n.header.getPrefix (inner n).firstLeafKey =
      .ok byte) : key[depth + prefixMismatchPos n key depth]? ≠ some byte := by
  rw [prefixByteForSplit] at hb
  obtain ⟨hp,hs⟩ | ⟨ha,hm,hrest⟩ := prefixMismatchPos_cases n key depth
  · rw [hp] at hlt hb ⊢
    rw [getElem?_eq_getElem (hs.resolve_right (Nat.not_le.mpr hlt))] at hb
    cases hb
    rw [← getElem?_drop]
    exact getElem?_commonLen_ne (getElem?_eq_getElem _)
  · have hle : n.header.getPrefix.length ≤ prefixMismatchPos n key depth := by
      obtain ⟨-,hp⟩ | ⟨representative,-,hp⟩ := hrest <;> omega
    rw [getElem?_eq_none hle] at hb
    obtain ⟨hfs,-⟩ | ⟨representative,hfs,hp⟩ := hrest
    · rw [hfs] at hb
      cases hb
    rw [hfs] at hb
    dsimp only [bind_some] at hb
    split at hb
    next found hf =>
      cases hb
      rw [hp,← Nat.add_assoc] at hf ⊢
      rw [← getElem?_drop] at hf ⊢
      refine getElem?_commonLen_ne ?_
      rw [getElem?_take_of_lt (by omega)]
      exact hf
    · cases hb

theorem Reaches.prefixByte_ok (h : Reaches (.inner n) depth) (hr : Recoverable (.inner n)) (hp : pos < n.header.prefixLen) :
    ∃ byte, prefixByteForSplit depth pos n.header.getPrefix (ArtNode.inner n).firstLeafKey = .ok byte := by
  rw [prefixByteForSplit]
  by_cases hs : pos < n.header.getPrefix.length
  · rw [getElem?_eq_getElem hs]
    exact ⟨_,rfl⟩
  rw [n.header.length_getPrefix] at hs
  have hl : (ArtNode.inner n).leaves ≠ [] := hr.resolve_left (by omega)
  obtain ⟨leaf,others,hh⟩ := exists_cons_of_ne_nil hl
  have hln := h.prefix_lt leaf (by rw [hh]; exact mem_cons_self)
  have hg : leaf.key[depth+pos]? = some leaf.key[depth+pos] := getElem?_eq_getElem (by omega)
  rw [getElem?_eq_none (by rw [n.header.length_getPrefix]; omega),ArtNode.firstLeafKey_eq_head,hh]
  simp only [head?_cons,map_some,bind_some,hg]
  exact ⟨_,rfl⟩

theorem prefixByte_error (hno : (inner n).leaves = []) (hp : maxPrefixLen ≤ pos) :
    prefixByteForSplit depth pos n.header.getPrefix (inner n).firstLeafKey =
      .error (.error (.internal "Cannot recover hidden ART prefix byte")) := by
  rw [prefixByteForSplit,getElem?_eq_none (by rw [n.header.length_getPrefix]; omega),firstLeafKey_eq_head,hno]
  rfl

variable {f : Nat → Except Failure Byte} {positions : List Nat}

theorem mapM_ok_of_forall (hf : ∀ pos ∈ positions, ∃ byte, f pos = .ok byte) : ∃ bytes, positions.mapM f = .ok bytes := by
  induction positions with
  | nil => exact ⟨[],rfl⟩
  | cons pos rest ih =>
    obtain ⟨⟨byte,hb⟩,hrest⟩ := forall_mem_cons.mp hf
    obtain ⟨bytes,hbt⟩ := ih hrest
    exact ⟨byte::bytes,by rw [mapM_cons,hb,hbt]; rfl⟩

theorem length_of_mapM_ok {bytes : Bytes} (h : positions.mapM f = .ok bytes) : bytes.length = positions.length := by
  induction positions generalizing bytes with
  | nil =>
    cases h
    rfl
  | cons pos rest ih =>
    rw [mapM_cons] at h
    obtain ⟨byte,-,h⟩ := bind_eq_ok.mp h
    obtain ⟨others,hrest,h⟩ := bind_eq_ok.mp h
    cases h
    rw [length_cons,length_cons,ih hrest]

theorem mapM_not_ok {e : Failure} (hm : pos ∈ positions)
    (hp : f pos = .error e) (bytes : Bytes) : positions.mapM f ≠ .ok bytes := by
  induction positions generalizing bytes with
  | nil => exact absurd hm not_mem_nil
  | cons first rest ih =>
    intro h
    rw [mapM_cons] at h
    obtain ⟨byte,hb,h⟩ := bind_eq_ok.mp h
    obtain ⟨others,hrest,-⟩ := bind_eq_ok.mp h
    rcases mem_cons.mp hm with rfl | hm
    · rw [hp] at hb
      cases hb
    · exact ih hm others hrest

theorem mapM_cases {e : Failure} (hf : ∀ pos, (∃ byte, f pos = .ok byte) ∨ f pos = .error e)
    (positions : List Nat) : (∃ bytes, positions.mapM f = .ok bytes) ∨ positions.mapM f = .error e := by
  induction positions with
  | nil => exact .inl ⟨[],rfl⟩
  | cons first rest ih =>
    rw [mapM_cons]
    obtain ⟨byte,hbyte⟩ | hbyte := hf first
    · rw [hbyte]
      obtain ⟨bytes,hbytes⟩ | hbytes := ih
      · exact .inl ⟨byte::bytes,by rw [hbytes]; rfl⟩
      · exact .inr (by rw [hbytes]; rfl)
    · exact .inr (by rw [hbyte]; rfl)

theorem prefixByteForSplit_cases (depth pos : Nat) (stored : Bytes) (representative : Option Bytes) :
    (∃ byte, prefixByteForSplit depth pos stored representative = .ok byte) ∨ prefixByteForSplit depth pos stored representative =
        .error (.error (.internal "Cannot recover hidden ART prefix byte")) := by
  rw [prefixByteForSplit]
  cases stored[pos]? with
  | some byte => exact .inl ⟨byte,rfl⟩
  | none =>
    cases representative.bind fun key => key[depth+pos]? with
    | some byte => exact .inl ⟨byte,rfl⟩
    | none => exact .inr rfl

theorem splitNode_parts (h : splitNode n key value depth pos c = .ok (node',c')) : ∃ remaining oldKey,
    prefixBytesForSplit depth (pos+1) n.header.prefixLen n.header.getPrefix (inner n).firstLeafKey = .ok remaining ∧
      prefixByteForSplit depth pos n.header.getPrefix (inner n).firstLeafKey = .ok oldKey ∧
      node' = .inner (.node4 (((KeyedNode.pack 4 (.withPrefix ((key.drop depth).take pos)) []).hang (some oldKey)
        (.inner (n.modifyHeader fun header => header.setPrefix remaining)) []).hang key[depth+pos]?
          (.leaf (.new key value)) [value])) ∧
      c' = { c.addNode .node4 with leafCount := if key[depth+pos]?.isSome then c.leafCount+1 else c.leafCount } := by
  unfold splitNode at h
  dsimp only at h
  split at h
  · cases h
  obtain ⟨-,-,h⟩ := bind_eq_ok.mp h
  obtain ⟨remaining,hr,h⟩ := bind_eq_ok.mp h
  obtain ⟨oldKey,hold,h⟩ := bind_eq_ok.mp h
  cases h
  exact ⟨remaining,oldKey,hr,hold,rfl,rfl⟩

theorem Reaches.splitNode (h : Reaches (.inner n) depth) (hlt : prefixMismatchPos n key depth < n.header.prefixLen)
    (hok : splitNode n key value depth (prefixMismatchPos n key depth) c = .ok (node',c')) : Reaches node' depth := by
  obtain ⟨remaining,oldKey,hr,hold,rfl,-⟩ := splitNode_parts hok
  have hl := length_of_mapM_ok hr
  rw [length_range'] at hl
  have hs := length_take_le (prefixMismatchPos n key depth) (key.drop depth)
  refine reaches_fork (fun b hb => ?_) (fun b hb => ?_) fun b hb => ?_
  · exact h.reprefix (by omega)
  · exact (reaches_newLeaf hb value).of_le (by omega)
  · cases hb
    exact prefixByte_ne hlt hold

theorem Reaches.splitNode_ok (h : Reaches (.inner n) depth) (hd : depth ≤ key.length) (hr : Recoverable (.inner n))
    (hlt : prefixMismatchPos n key depth < n.header.prefixLen) (value : RowId) (c : Counters) :
    ∃ result, Art.splitNode n key value depth (prefixMismatchPos n key depth) c = .ok result := by
  obtain ⟨oldKey,hold⟩ := h.prefixByte_ok hr hlt
  obtain ⟨remaining,hrm⟩ : ∃ remaining, prefixBytesForSplit depth (prefixMismatchPos n key depth + 1)
      n.header.prefixLen n.header.getPrefix (ArtNode.inner n).firstLeafKey = .ok remaining := by
    refine mapM_ok_of_forall fun pos hp => h.prefixByte_ok hr ?_
    rw [mem_range'_1] at hp
    omega
  have hrn := add_prefixMismatchPos_le n hd
  unfold Art.splitNode
  dsimp only
  rw [if_neg (Nat.not_lt.mpr hrn),hrm,hold]
  exact ⟨_,rfl⟩

theorem splitNode_error (hls : ¬Recoverable (.inner n)) (key : Bytes) (value : RowId) (depth pos : Nat) (c : Counters) :
    ∃ e, splitNode n key value depth pos c = .error (.error e) := by
  obtain ⟨hl,hno⟩ := not_or.mp hls
  rw [Nat.not_le] at hl
  rw [not_not] at hno
  unfold splitNode
  dsimp only
  split
  · exact ⟨_,rfl⟩
  have hb := fun pos => prefixByteForSplit_cases depth pos n.header.getPrefix (inner n).firstLeafKey
  obtain ⟨remaining,hremaining⟩ | hremaining := mapM_cases hb (List.range' (pos+1) (n.header.prefixLen-(pos+1)))
  · -- The first byte that is not stored is not among the remaining ones.
    have hp : maxPrefixLen ≤ pos := by
      by_contra hle
      have hm : maxPrefixLen ∈ List.range' (pos+1) (n.header.prefixLen-(pos+1)) := by
        rw [mem_range'_1]
        omega
      exact mapM_not_ok hm (prefixByte_error hno (Nat.le_refl _)) _ hremaining
    rw [prefixBytesForSplit,hremaining,prefixByte_error hno hp]
    exact ⟨_,rfl⟩
  · rw [prefixBytesForSplit,hremaining]
    exact ⟨_,rfl⟩

end

section
variable {indexType : ArtIndexType} {name : String} {node node' : ArtNode} {n : Inner ArtNode} {depth : Nat} {key : Bytes}
  {value : RowId} {c c' : Counters}

theorem Reaches.insertIntoNode (h : Reaches node depth)
    (hok : insertIntoNode indexType name key value node depth c = .ok (node',c')) : Reaches node' depth := by
  induction h generalizing node' c' with
  | @leaf leaf depth long =>
    rw [Art.insertIntoNode] at hok
    split at hok
    · cases hok
      exact .leaf long
    · cases hok
      exact reaches_splitLeaf leaf key value depth
  | @inner n depth wf child ih =>
    have h : Reaches (.inner n) depth := .inner wf child
    rw [Art.insertIntoNode] at hok
    split at hok
    next hlt =>
      exact h.splitNode hlt hok
    · split at hok
      next hm =>
        dsimp only at hok
        split at hok
        next old hg =>
          obtain ⟨⟨new,c₁⟩,hch,hok⟩ := bind_eq_ok.mp hok
          cases hok
          exact h.update (wf.setChild hg new).1 fun c hc => Option.some.inj hc ▸ ih _ old hg hch
        next hg =>
          obtain ⟨c₁,hr,hok⟩ := bind_eq_ok.mp hok
          cases hok
          exact h.update (wf.addChild hg _) fun c hc => Option.some.inj hc ▸ .leaf hm
      · split at hok
        · cases hok
        · cases hok
          exact h.revalue fun header => ⟨rfl,rfl⟩

def Remover.KeepsKeys {β : Type} (r : Remover β) : Prop :=
  ∀ leaf c leaf' removed c', r.atLeaf leaf c = .ok (some leaf',removed,c') → leaf'.key = leaf.key

theorem removeAll_keepsKeys : removeAll.KeepsKeys := by
  intro leaf c leaf' removed c' h
  obtain ⟨c₁,-,h⟩ := bind_eq_ok.mp h
  cases h

theorem removeOne_keepsKeys (rowId : RowId) : (removeOne rowId).KeepsKeys := by
  intro leaf c leaf' removed c' h
  simp only [removeOne] at h
  obtain ⟨hl,-⟩ | ⟨left,hl,hkey,-⟩ | ⟨hl,-⟩ := leaf.removeValue_cases rowId
  · rw [hl] at h
    obtain ⟨c₁,-,h⟩ := bind_eq_ok.mp h
    cases h
  · rw [hl] at h
    cases h
    exact hkey
  · rw [hl] at h
    cases h
    rfl

theorem Reaches.descend {β : Type} {r : Remover β} (hr : r.KeepsKeys) (h : Reaches node depth) {left : Option ArtNode}
    {removed : β} (hok : r.descend key node depth c = .ok (left,removed,c')) : ∀ node' ∈ left, Reaches node' depth := by
  induction h generalizing left removed c' with
  | @leaf leaf depth long =>
    rw [Remover.descend] at hok
    split at hok
    · obtain ⟨⟨leaf',removed',c₁⟩,hl,hok⟩ := bind_eq_ok.mp hok
      cases hok
      intro node' hn
      obtain ⟨kept,rfl,rfl⟩ := map_eq_some_iff.mp hn
      exact .leaf (hr leaf c kept _ _ hl ▸ long)
    · cases hok
      intro node' hn
      cases hn
      exact .leaf long
  | @inner n depth wf child ih =>
    have h : Reaches (.inner n) depth := .inner wf child
    rw [Remover.descend] at hok
    split at hok
    · cases hok
      intro node' hn
      cases hn
      exact h
    · split at hok
      · dsimp only at hok
        split at hok
        next old hg =>
          obtain ⟨⟨new,removed',c₁⟩,hch,hok⟩ := bind_eq_ok.mp hok
          obtain ⟨⟨n',removed'',c₂⟩,hn',hok⟩ := bind_eq_ok.mp hok
          cases hn'
          obtain ⟨c₃,-,hok⟩ := bind_eq_ok.mp hok
          cases hok
          intro node' hn
          cases hn
          have hnew := ih _ old hg hch
          cases new with
          | none => exact h.update (wf.removeChild hg).1.shrink (by rintro _ ⟨⟩)
          | some new => exact h.update (wf.setChild hg new).1.shrink fun c hc => Option.some.inj hc ▸ hnew new rfl
        · obtain ⟨⟨n',removed',c₁⟩,hn',hok⟩ := bind_eq_ok.mp hok
          cases hn'
          obtain ⟨c₂,-,hok⟩ := bind_eq_ok.mp hok
          cases hok
          intro node' hn
          cases hn
          exact h.becomes wf.maybeShrink fun b c hc => .inl hc
      · obtain ⟨⟨values,removed',c₁⟩,-,hok⟩ := bind_eq_ok.mp hok
        cases hok
        intro node' hn
        cases hn
        exact h.revalue fun header => ⟨rfl,rfl⟩

theorem relayout_ne_error (c : Counters) (old new : Layout) (e : ArtIndexError) : c.relayout old new ≠ .error (.error e) := by
  intro h
  rw [Counters.relayout] at h
  split at h
  · cases h
  · split at h
    · cases h
    · cases h

theorem mismatch_of_not_recoverable (hl : ¬Recoverable (.inner n)) (key : Bytes) (depth : Nat) :
    prefixMismatchPos n key depth < n.header.prefixLen := by
  obtain ⟨hln,hno⟩ := not_or.mp hl
  rw [not_not] at hno
  have hs := n.header.length_getPrefix
  obtain ⟨hp,hls | hm⟩ | ⟨-,hm,⟨-,hp⟩ | ⟨representative,hf,-⟩⟩ := prefixMismatchPos_cases n key depth
  · omega
  · have hle := commonLen_le_left n.header.getPrefix (key.drop depth)
    omega
  · omega
  · rw [firstLeafKey_eq_head,hno] at hf
    cases hf

theorem Reaches.insertIntoNode_error_iff (h : Reaches node depth) (hd : depth ≤ key.length)
    (hf : ¬(indexType.isUnique ∧ (getRecursive key node depth).isSome = true)) :
    (∃ e, Art.insertIntoNode indexType name key value node depth c = .error (.error e)) ↔
      ∃ visit ∈ visits key node depth, ¬Recoverable visit.1 := by
  induction h with
  | @leaf leaf depth long =>
    constructor
    · rintro ⟨e,he⟩
      rw [Art.insertIntoNode] at he
      split at he
      · cases he
      · cases he
    · rintro ⟨visit,hv,hl⟩
      rw [visits.eq_def] at hv
      rw [mem_singleton.mp hv] at hl
      exact absurd trivial hl
  | @inner n depth wf child ih =>
    have h : Reaches (.inner n) depth := .inner wf child
    rw [Art.insertIntoNode,visits.eq_def]
    dsimp only
    by_cases hlt : prefixMismatchPos n key depth < n.header.prefixLen
    · rw [if_pos hlt,if_pos hlt]
      constructor
      · rintro ⟨e,he⟩
        refine ⟨_,mem_cons_self,fun hr => ?_⟩
        obtain ⟨result,hok⟩ := h.splitNode_ok hd hr hlt value c
        rw [hok] at he
        cases he
      · rintro ⟨visit,hv,hl⟩
        rw [mem_singleton.mp hv] at hl
        exact splitNode_error hl key value depth _ c
    · have hr : Recoverable (.inner n) := by
        by_contra hl
        exact hlt (mismatch_of_not_recoverable hl key depth)
      -- The node itself does not stop the key; what remains are the nodes after it.
      have htl : ∀ rest : List (ArtNode × Nat), (∃ visit ∈ (ArtNode.inner n,depth)::rest, ¬Recoverable visit.1) ↔
          ∃ visit ∈ rest, ¬Recoverable visit.1 := fun rest => by
        rw [exists_mem_cons_iff]
        exact ⟨fun hor => hor.resolve_left fun hl => hl hr,.inr⟩
      have hn : ¬∃ visit ∈ ([] : List (ArtNode × Nat)), ¬Recoverable visit.1 := by
        rintro ⟨_,hv,_⟩
        exact absurd hv not_mem_nil
      rw [if_neg hlt,if_neg hlt,htl]
      rw [getRecursive,if_neg hlt] at hf
      by_cases hm : depth+n.header.prefixLen < key.length
      · rw [dif_pos hm,dif_pos hm]
        rw [dif_pos hm] at hf
        cases hg : n.getChild key[depth+n.header.prefixLen] with
        | none =>
          refine iff_of_false ?_ hn
          rintro ⟨e,he⟩
          dsimp only at he
          cases hrl : Counters.relayout { c with leafCount := c.leafCount+1 } n.layout
              (n.addChild key[depth+n.header.prefixLen] (.leaf (.new key value))).layout with
          | error f =>
            rw [hrl] at he
            cases he
            exact relayout_ne_error _ _ _ _ hrl
          | ok c' =>
            rw [hrl] at he
            cases he
        | some old =>
          rw [hg] at hf
          dsimp only
          rw [← ih _ old hg hm hf]
          cases hc : Art.insertIntoNode indexType name key value old (depth+n.header.prefixLen+1) c with
          | error f => exact exists_congr fun e => ⟨fun he => by cases he; rfl,fun he => by cases he; rfl⟩
          | ok result => exact exists_congr fun e => ⟨(by rintro ⟨⟩),(by rintro ⟨⟩)⟩
      · rw [dif_neg hm,dif_neg hm]
        rw [dif_neg hm,isSome_head?] at hf
        rw [if_neg hf]
        refine iff_of_false ?_ hn
        rintro ⟨e,he⟩
        cases he

end

namespace AdaptiveRadixTree

/-- The nodes of the index hang together. -/
def Grounded (t : AdaptiveRadixTree) : Prop := ∀ root ∈ t.root, Reaches root 0

theorem grounded_new (name : String) (indexType : ArtIndexType) : (new name indexType).Grounded := nofun

section
variable {t : AdaptiveRadixTree} {key : Bytes}
variable (h : t.Grounded)
include h

theorem Grounded.insert (key : Bytes) (value : RowId) : (t.insert key value).1.Grounded := by
  rw [AdaptiveRadixTree.insert]
  split
  · exact h
  split
  · exact h
  split
  · intro root hr
    cases hr
    exact .leaf (Nat.zero_le _)
  next root hr =>
    split
    · rintro _ ⟨⟩
    next root' c hok =>
      intro root'' hr'
      cases hr'
      exact (h root hr).insertIntoNode hok

theorem Grounded.remove (key : Bytes) : (t.remove key).1.Grounded := by
  rw [AdaptiveRadixTree.remove]
  split
  · exact h
  next root hr =>
    have hl := fun (left : Option ArtNode) (removed : Option RowId) (c : Counters)
        (hok : removeRecursive key root 0 t.counters = .ok (left,removed,c)) =>
      (h root hr).descend removeAll_keepsKeys hok
    split
    · rintro _ ⟨⟩
    next hok =>
      exact hl _ _ _ hok
    next hok =>
      split
      · exact hl _ _ _ hok
      · split
        · exact hl _ _ _ hok
        · exact hl _ _ _ hok

theorem Grounded.removeValue (key : Bytes) (rowId : RowId) : (t.removeValue key rowId).1.Grounded := by
  rw [AdaptiveRadixTree.removeValue]
  split
  · exact h
  next root hr =>
    have hl := fun (left : Option ArtNode) (removed : Bool) (c : Counters)
        (hok : removeValueRecursive key rowId root 0 t.counters = .ok (left,removed,c)) =>
      (h root hr).descend (removeOne_keepsKeys rowId) hok
    split
    · rintro _ ⟨⟩
    next hok =>
      exact hl _ _ _ hok
    next hok =>
      split
      · exact hl _ _ _ hok
      · exact hl _ _ _ hok

theorem Grounded.step (op : Op) : (t.step op).Grounded := by
  cases op with
  | insert key value => exact h.insert key value
  | remove key => exact h.remove key
  | removeValue key rowId => exact h.removeValue key rowId

omit h

/-- The insertion is refused before it touches a node. -/
def Refuses (t : AdaptiveRadixTree) (key : Bytes) : Prop :=
  key = [] ∧ t.indexType = .primaryKey ∨ t.indexType.isUnique ∧ t.contains key = true

/-- Where an insertion returns an error, all lookups and the size stay what they were. -/
def KeptOnError (t : AdaptiveRadixTree) (key : Bytes) (value : RowId) : Prop :=
  ∀ e, (t.insert key value).2 = .error (.error e) →
    (∀ k, (t.insert key value).1.getAll k = t.getAll k) ∧ (t.insert key value).1.len = t.len

theorem insert_of_refuses (h : t.Refuses key) (value : RowId) : (t.insert key value).1 = t := by
  rw [insert]
  split
  · rfl
  next hn =>
    rw [if_pos (h.resolve_left hn)]

theorem Grounded.keptOnError_iff (h : t.Grounded) (key : Bytes) (value : RowId) : t.KeptOnError key value ↔
    t.Refuses key ∨ (∀ root ∈ t.root, ∀ visit ∈ visits key root 0, Recoverable visit.1) ∨ ∀ k, t.getAll k = [] := by
  by_cases hr : t.Refuses key
  · refine iff_of_true (fun e _ => ?_) (.inl hr)
    rw [insert_of_refuses hr]
    exact ⟨fun _ => rfl,rfl⟩
  · obtain ⟨hn,hf⟩ := not_or.mp hr
    rw [KeptOnError,AdaptiveRadixTree.insert,if_neg hn,if_neg hf]
    cases hrt : t.root with
    | none => exact iff_of_true (by rintro _ ⟨⟩) (.inr (.inl (by rintro _ ⟨⟩)))
    | some root =>
      have he := @Reaches.insertIntoNode_error_iff t.indexType t.name root 0 key value t.counters (h root hrt)
        (Nat.zero_le _) (by rw [contains,get,hrt] at hf; exact hf)
      have hopen : (∀ root' ∈ some root, ∀ visit ∈ visits key root' 0, Recoverable visit.1) ↔
          ¬∃ e, insertIntoNode t.indexType t.name key value root 0 t.counters = .error (.error e) := by
        rw [he]
        simp only [not_exists,not_and,not_not]
        exact ⟨fun ha => ha root rfl,fun ha root' hr' => by cases hr'; exact ha⟩
      rw [hopen]
      dsimp only
      cases hi : insertIntoNode t.indexType t.name key value root 0 t.counters with
      | ok result => exact iff_of_true (by rintro _ ⟨⟩) (.inr (.inl (by rintro ⟨e,⟨⟩⟩)))
      | error f =>
        cases f with
        | panicked => exact iff_of_true (by rintro _ ⟨⟩) (.inr (.inl (by rintro ⟨e,⟨⟩⟩)))
        | error e =>
          -- The index has lost its nodes.
          constructor
          · exact fun hk => .inr (.inr fun k => ((hk e rfl).1 k).symm)
          · intro hor e' _
            obtain hno | hno | hempty := hor
            · exact absurd hno hr
            · exact absurd ⟨e,rfl⟩ hno
            · exact ⟨fun k => (hempty k).symm,rfl⟩

end
end AdaptiveRadixTree

/-- After every run, an insertion that fails changes nothing exactly when it is refused at once, or every prefix on its way can be
recovered, or nothing is found in the index anyway. -/
theorem failed_insert_keeps_iff (name : String) (indexType : ArtIndexType) (ops : List Op) (key : Bytes) (value : RowId) :
    let t := run AdaptiveRadixTree.step (AdaptiveRadixTree.new name indexType) ops
    t.KeptOnError key value ↔ t.Refuses key ∨ (∀ root ∈ t.root, ∀ visit ∈ visits key root 0, Recoverable visit.1) ∨
      ∀ k, t.getAll k = [] := by
  intro t
  have hgrounded : t.Grounded := run_invariant AdaptiveRadixTree.step AdaptiveRadixTree.Grounded
    (fun t op h => h.step op) (AdaptiveRadixTree.grounded_new name indexType) ops
  exact hgrounded.keptOnError_iff key value

/-- Where two rows have gone from below a prefix of eleven bytes, the next insertion that meets it takes all other rows along. -/
theorem failed_insert_takes_others :
    let ops := [.insert (7::longKey ++ [1]) 1,.insert (7::longKey ++ [2]) 2,.insert [9] 9,
      .remove (7::longKey ++ [1]),.remove (7::longKey ++ [2])]
    let t := run AdaptiveRadixTree.step (AdaptiveRadixTree.new "idx" .manual) ops
    ¬t.KeptOnError (7::longKey) 3 ∧
      (t.insert (7::longKey) 3).2 = .error (.error (.internal "Cannot recover hidden ART prefix byte")) ∧
      t.getAll [9] = [9] ∧ (t.insert (7::longKey) 3).1.getAll [9] = [] ∧ (t.insert (7::longKey) 3).1.len = 1 := by
  intro ops t
  have hfails : (t.insert (7::longKey) 3).2 = .error (.error (.internal "Cannot recover hidden ART prefix byte")) := by
    decide +kernel
  have hbefore : t.getAll [9] = [9] := by decide +kernel
  have hafter : (t.insert (7::longKey) 3).1.getAll [9] = [] := by decide +kernel
  refine ⟨fun hkept => ?_,hfails,hbefore,hafter,by decide +kernel⟩
  have hsame := (hkept _ hfails).1 [9]
  rw [hbefore,hafter] at hsame
  cases hsame

end HeliosNano.Storage.Art
