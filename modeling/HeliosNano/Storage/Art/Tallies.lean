import HeliosNano.Storage.Art.FailedInsert
import Mathlib.Algebra.Order.BigOperators.Group.Finset
import Mathlib.Algebra.Order.Monoid.Prod
import Mathlib.Algebra.Order.Pi

namespace HeliosNano.Storage.Art
open Foundation List Function Option Pi Counters

abbrev Tally := Nat × Nat × (Layout → Nat)

def leafTally (leaf : LeafNode) : Tally := (leaf.allValues.length,1,0)

def ownTally (n : Inner ArtNode) : Tally := (n.header.values.length,0,single n.layout 1)

def tally (node : ArtNode) : Tally := (node.leaves.map leafTally).sum + (node.inners.map ownTally).sum

def tallyAt (node : Option ArtNode) : Tally := node.elim 0 tally

def Counters.tally (c : Counters) : Tally := (c.size,c.leafCount,c.nodeCount)

theorem Enumerates.sum_eq {α M : Type} [AddCommMonoid M] {entries : List (Byte × α)} {g : Byte → Option α} (h : Enumerates entries g)
    (f : α → M) : (entries.map fun entry => f entry.2).sum = ∑ b, (g b).elim 0 f := by
  induction entries using List.reverseRecOn generalizing g with
  | nil =>
    have hg : ∀ b, g b = none := fun b => h.eq_none_iff.mpr not_mem_nil
    rw [Finset.sum_eq_zero fun b _ => by rw [hg b]; rfl]
    rfl
  | append_singleton rest last ih =>
    obtain ⟨b,child⟩ := last
    have hrest : Enumerates (rest ++ []) (Function.update g b none) := h.erase
    rw [append_nil] at hrest
    have hgt : g b = some child := (h.mem _ _).mpr (by simp)
    have hs := sum_update_add (fun b' => (g b').elim 0 f) b 0
    have hc : (fun b' => (Function.update g b none b').elim 0 f) = Function.update (fun b' => (g b').elim 0 f) b 0 :=
      comp_update (fun child : Option α => child.elim 0 f) g b none
    rw [hgt,add_zero] at hs
    rw [map_append,sum_append,ih hrest,hc,map_singleton,sum_singleton]
    exact hs

theorem tally_leaf (leaf : LeafNode) : tally (.leaf leaf) = leafTally leaf := by
  rw [tally,ArtNode.leaves,ArtNode.inners]
  simp

section
variable {n n' : Inner ArtNode} {b : Byte} {child : Option ArtNode}

theorem Inner.Wf.tally_inner (h : n.Wf) : tally (.inner n) = ownTally n + ∑ b, tallyAt (n.getChild b) := by
  have hf : ∀ entries : List (Byte × ArtNode), ((entries.flatMap fun entry => entry.2.leaves).map leafTally).sum +
      ((entries.flatMap fun entry => entry.2.inners).map ownTally).sum = (entries.map fun entry => tally entry.2).sum := by
    intro entries
    induction entries with
    | nil => rfl
    | cons entry entries ih =>
      rw [map_cons,sum_cons,← ih,tally]
      simp only [flatMap_cons,map_append,sum_append]
      exact add_add_add_comm _ _ _ _
  have hs : (n.iterChildren.map fun entry => tally entry.2).sum = ∑ b, tallyAt (n.getChild b) := h.enumerates.sum_eq tally
  rw [← hs,← hf,tally,ArtNode.leaves_inner,ArtNode.inners_inner,map_cons,sum_cons]
  exact add_left_comm _ _ _

theorem Inner.Wf.tally_update (h : n.Wf) (hn : n.Becomes n' (Function.update n.getChild b child)) :
    tally (.inner n') + tallyAt (n.getChild b) + (0,0,single n.layout 1) =
      tally (.inner n) + tallyAt child + (0,0,single n'.layout 1) := by
  have hs := sum_update_add (fun b' => tallyAt (n.getChild b')) b (tallyAt child)
  have hc : (fun b' => tallyAt (n'.getChild b')) = Function.update (fun b' => tallyAt (n.getChild b')) b (tallyAt child) := by
    rw [hn.children]
    exact comp_update tallyAt n.getChild b child
  have ho : ownTally n' + (0,0,single n.layout 1) = ownTally n + (0,0,single n'.layout 1) := by
    rw [ownTally,ownTally,hn.agrees.2.2]
    exact Prod.ext rfl (Prod.ext rfl (add_comm _ _))
  rw [h.tally_inner,hn.wf.tally_inner,hc]
  calc ownTally n' + _ + tallyAt (n.getChild b) + (0,0,single n.layout 1) =
      ownTally n' + (0,0,single n.layout 1) +
        ((∑ b', Function.update (fun b' => tallyAt (n.getChild b')) b (tallyAt child) b') + tallyAt (n.getChild b)) := by abel
    _ = ownTally n + (0,0,single n'.layout 1)+((∑ b', tallyAt (n.getChild b')) + tallyAt child) := by rw [ho,hs]
    _ = ownTally n + (∑ b', tallyAt (n.getChild b')) + tallyAt child + (0,0,single n'.layout 1) := by abel

theorem Inner.Wf.tally_revalue (h : n.Wf) {f : NodeHeader → NodeHeader}
    (hf : ∀ header, (f header).numChildren = header.numChildren) :
    tally (.inner (n.modifyHeader f)) + (n.header.values.length,0,0) = tally (.inner n) + ((f n.header).values.length,0,0) := by
  obtain ⟨hwf,hg,hh,hl⟩ := h.modifyHeader hf
  rw [h.tally_inner,hwf.tally_inner,hg,ownTally,ownTally,hh,hl]
  have ho : (((f n.header).values.length,0,single n.layout 1) : Tally)+(n.header.values.length,0,0) =
      (n.header.values.length,0,single n.layout 1)+((f n.header).values.length,0,0) :=
    Prod.ext (Nat.add_comm _ _) rfl
  rw [add_right_comm,ho,add_right_comm]

end

section
variable {n : Inner ArtNode}

theorem Inner.Wf.tally_child_le (h : n.Wf) (b : Byte) : ownTally n + tallyAt (n.getChild b) ≤ tally (.inner n) := by
  rw [h.tally_inner]
  refine add_le_add_right ?_ _
  exact Finset.single_le_sum (f := fun b' => tallyAt (n.getChild b')) (fun b' _ => zero_le) (Finset.mem_univ b)

end

theorem Counters.relayout_tally {c : Counters} {old : Layout} (new : Layout) (hp : (0,0,single old 1) ≤ c.tally) :
    ∃ c', c.relayout old new = .ok c' ∧ c'.tally+(0,0,single old 1) = c.tally+(0,0,single new 1) := by
  have ho : 1 ≤ c.nodeCount old := by
    have hle : (single old 1 : Layout → Nat) old ≤ c.nodeCount old := hp.2.2 old
    rwa [single_eq_same] at hle
  obtain ⟨c',hok,hn,hs,hl⟩ := relayout_ok new ho
  exact ⟨c',hok,Prod.ext (congrArg (· + 0) hs) (Prod.ext (congrArg (· + 0) hl) hn)⟩

/-- What hangs below a new node: a subtree, or the row ids of a key that ends there. -/
def hungTally (byte : Option Byte) (child : ArtNode) (values : List RowId) : Tally :=
  if byte.isSome then tally child else (values.length,0,0)

section
variable {m : KeyedNode ArtNode} {byte : Option Byte} {child : ArtNode} {values : List RowId} {depth : Nat}

theorem Reaches.tally_hang (h : Reaches (.inner (.node4 m)) depth) (hr : m.header.numChildren < 4)
    (hn : ∀ b ∈ byte, m.getChild b = none) :
    tally (.inner (.node4 (m.hang byte child values))) = tally (.inner (.node4 m)) + hungTally byte child values := by
  cases byte with
  | none =>
    have hv := h.wf.tally_revalue (f := fun header => { header with values := header.values ++ values }) fun _ => rfl
    refine add_right_cancel (b := ((m.header.values.length,0,0) : Tally)) (hv.trans ?_)
    have hl : (((m.header.values ++ values).length,0,0) : Tally) = (values.length,0,0)+(m.header.values.length,0,0) :=
      Prod.ext (by rw [length_append,Nat.add_comm]; rfl) rfl
    rw [add_assoc]
    exact congrArg _ hl
  | some b =>
    obtain ⟨hb,-⟩ := m.hang_becomes h.wf hr (hn b rfl) child values
    have hu := h.wf.tally_update hb
    rw [show (Inner.node4 m).getChild b = none from hn b rfl] at hu
    exact add_right_cancel hu

theorem tally_fork {shared : Bytes} {byte₁ byte₂ : Option Byte} {child₁ child₂ : ArtNode} {values₁ values₂ : List RowId}
    (h₁ : ∀ b ∈ byte₁, Reaches child₁ (depth+shared.length+1)) (hp : ∀ b ∈ byte₁, byte₂ ≠ some b) :
    tally (.inner (.node4 (((KeyedNode.pack 4 (.withPrefix shared) []).hang byte₁ child₁ values₁).hang byte₂ child₂ values₂))) =
      (0,0,single .node4 1) + hungTally byte₁ child₁ values₁ + hungTally byte₂ child₂ values₂ := by
  have he := getChild_pack_nil (.withPrefix shared) rfl
  have hle : (NodeHeader.withPrefix shared).prefixLen ≤ shared.length := Nat.mod_le _ _
  have hnew := @reaches_empty depth shared
  have htl : tally (.inner (.node4 (.pack 4 (.withPrefix shared) []))) = (0,0,single .node4 1) := by
    rw [hnew.wf.tally_inner,Inner.getChild,he]
    exact add_eq_left.mpr (Finset.sum_eq_zero fun _ _ => rfl)
  obtain ⟨hf,-,hr,hk⟩ := @Reaches.hang _ _ hnew (Nat.zero_lt_succ 3) byte₁ child₁ values₁ fun b hb =>
    ⟨by rw [he],(h₁ b hb).of_le (Nat.succ_le_succ (Nat.add_le_add_left hle depth))⟩
  rw [hf.tally_hang (Nat.lt_of_le_of_lt hr (show 0+1 < 4 by omega)) fun b hb => ?_,
    hnew.tally_hang (Nat.zero_lt_succ 3) fun b _ => by rw [he],htl]
  rw [hk b fun heq => hp b heq hb,he]

end

/-- Where a leaf is split, both keys go on below the new node. -/
def SplitsApart (key : Bytes) : ArtNode × Nat → Prop
  | (.leaf leaf,depth) => leaf.key = key ∨
      depth + commonLen (key.drop depth) (leaf.key.drop depth) < leaf.key.length ∧
        depth + commonLen (key.drop depth) (leaf.key.drop depth) < key.length
  | (.inner _,_) => True

instance (key : Bytes) (visit : ArtNode × Nat) : Decidable (SplitsApart key visit) :=
  match visit with
  | (.leaf leaf,depth) => inferInstanceAs (Decidable (leaf.key = key ∨
      depth + commonLen (key.drop depth) (leaf.key.drop depth) < leaf.key.length ∧
        depth + commonLen (key.drop depth) (leaf.key.drop depth) < key.length))
  | (.inner _,_) => .isTrue trivial

section
variable {indexType : ArtIndexType} {name : String} {node node' : ArtNode} {n : Inner ArtNode} {depth pos : Nat} {key : Bytes}
  {value : RowId} {c c' : Counters}

theorem hungTally_new (byte : Option Byte) (key : Bytes) (value : RowId) :
    hungTally byte (.leaf (.new key value)) [value] = (1,if byte.isSome then 1 else 0,0) := by
  rw [hungTally]
  split
  · exact tally_leaf _
  · rfl

theorem tally_splitLeaf (leaf : LeafNode) (value : RowId) (ha : SplitsApart key (.leaf leaf,depth)) (hne : leaf.key ≠ key) :
    tally (splitLeaf leaf key value depth) = (0,0,single .node4 1) + leafTally leaf + (1,1,0) := by
  obtain ⟨hl,hkey⟩ := ha.resolve_left hne
  have hs := length_take_commonLen (key.drop depth) (leaf.key.drop depth)
  refine (@tally_fork depth _ _ _ _ _ _ _ (fun b hb => ?_) fun b hb hb' => ?_).trans ?_
  · rw [hs]
    exact .leaf (List.getElem?_eq_some_iff.mp hb).1
  · rw [← getElem?_drop] at hb'
    refine getElem?_commonLen_ne hb' ?_
    rw [getElem?_drop]
    exact hb
  · rw [hungTally_new,hungTally,getElem?_eq_getElem hl,getElem?_eq_getElem hkey,if_pos isSome_some,
      if_pos isSome_some,tally_leaf]

theorem Reaches.splitNode_tally (h : Reaches (.inner n) depth) (hlt : prefixMismatchPos n key depth < n.header.prefixLen)
    (hok : Art.splitNode n key value depth (prefixMismatchPos n key depth) c = .ok (node',c')) :
    c'.tally + tally (.inner n) + (1,0,0) = c.tally + tally node' := by
  obtain ⟨remaining,oldKey,hr,hold,rfl,rfl⟩ := splitNode_parts hok
  have hl := length_of_mapM_ok hr
  rw [length_range'] at hl
  have hs := length_take_le (prefixMismatchPos n key depth) (key.drop depth)
  have hct := h.wf.tally_revalue (f := fun header => header.setPrefix remaining) fun _ => rfl
  rw [@tally_fork depth _ _ _ _ _ _ _ (fun b hb => h.reprefix (by omega)) fun b hb => ?_,hungTally_new]
  swap
  · cases hb
    exact prefixByte_ne hlt hold
  rw [hungTally,if_pos (isSome_some),add_right_cancel hct]
  have hc : (Counters.tally { c.addNode .node4 with
      leafCount := if key[depth + prefixMismatchPos n key depth]?.isSome then c.leafCount+1 else c.leafCount })+(1,0,0) =
      c.tally+(0,0,single .node4 1)+(1,if key[depth + prefixMismatchPos n key depth]?.isSome then 1 else 0,0) := by
    refine Prod.ext rfl (Prod.ext ?_ ?_)
    · dsimp only [Counters.tally]
      split <;> rfl
    · exact congrArg (· + 0) (c.nodeCount_addNode .node4)
  calc _ + tally (.inner n) + (1,0,0) = _+(1,0,0) + tally (.inner n) := add_right_comm _ _ _
    _ = _ + tally (.inner n) := by rw [hc]
    _ = _ := by abel

theorem Reaches.insertIntoNode_tally (h : Reaches node depth) (hd : depth ≤ key.length)
    (hf : ¬(indexType.isUnique ∧ (getRecursive key node depth).isSome = true))
    (hopen : ∀ visit ∈ visits key node depth, Recoverable visit.1 ∧ SplitsApart key visit) (hcn : tally node ≤ c.tally) :
    ∃ node' c', Art.insertIntoNode indexType name key value node depth c = .ok (node',c') ∧
      c'.tally + tally node + (1,0,0) = c.tally + tally node' := by
  induction h with
  | @leaf leaf depth long =>
    have ha := (hopen _ (mem_visits_self _ _ _)).2
    rw [Art.insertIntoNode]
    by_cases hkey : leaf.key = key
    · rw [if_pos hkey]
      refine ⟨_,_,rfl,?_⟩
      rw [tally_leaf,tally_leaf,add_assoc]
      refine congrArg _ (Prod.ext ?_ rfl)
      simp [leafTally,LeafNode.pushValue,LeafNode.allValues]
    · rw [if_neg hkey]
      refine ⟨_,_,rfl,?_⟩
      have hc : (Counters.tally { c.addNode .node4 with leafCount := c.leafCount+1 })+(1,0,0) =
          c.tally+(0,0,single .node4 1)+(1,1,0) :=
        Prod.ext rfl (Prod.ext rfl (congrArg (· + 0) (c.nodeCount_addNode .node4)))
      rw [tally_splitLeaf leaf value ha hkey,tally_leaf,add_right_comm,hc]
      abel
  | @inner n depth wf child ih =>
    have h : Reaches (.inner n) depth := .inner wf child
    have hr := (hopen _ (mem_visits_self _ _ _)).1
    rw [Art.insertIntoNode]
    dsimp only
    by_cases hlt : prefixMismatchPos n key depth < n.header.prefixLen
    · rw [if_pos hlt]
      obtain ⟨⟨node',c'⟩,hok⟩ := h.splitNode_ok hd hr hlt value c
      exact ⟨node',c',hok,h.splitNode_tally hlt hok⟩
    · rw [if_neg hlt]
      rw [getRecursive,if_neg hlt] at hf
      by_cases hm : depth+n.header.prefixLen < key.length
      · rw [dif_pos hm]
        rw [dif_pos hm] at hf
        cases hg : n.getChild key[depth+n.header.prefixLen] with
        | some old =>
          rw [hg] at hf
          have hb := wf.tally_child_le key[depth+n.header.prefixLen]
          rw [hg] at hb
          obtain ⟨new,c',hok,hnew⟩ := ih _ old hg hm hf
            (fun visit hvs => hopen visit (mem_visits_child hlt hm hg hvs))
            ((le_add_of_nonneg_left zero_le).trans (hb.trans hcn))
          obtain ⟨hn,hly⟩ := wf.setChild hg new
          have hu := wf.tally_update hn
          rw [hg,hly] at hu
          dsimp only
          rw [hok]
          refine ⟨_,_,rfl,add_right_cancel (b := tally old) ?_⟩
          calc c'.tally + tally (.inner n) + (1,0,0) + tally old = c'.tally + tally old + (1,0,0) + tally (.inner n) := by abel
            _ = c.tally+(tally (.inner n) + tally new) := by rw [hnew]; abel
            _ = c.tally+(tally (.inner (n.setChild key[depth+n.header.prefixLen] new)) + tally old) :=
              congrArg _ (add_right_cancel hu).symm
            _ = _ := by abel
        | none =>
          have hu := wf.tally_update (wf.addChild hg (.leaf (.new key value)))
          rw [hg] at hu
          have hp : ((0,0,single n.layout 1) : Tally) ≤ Counters.tally { c with leafCount := c.leafCount+1 } := by
            have ho : ownTally n ≤ c.tally := by
              rw [wf.tally_inner] at hcn
              exact (le_add_of_nonneg_right zero_le).trans hcn
            exact ⟨Nat.zero_le _,Nat.zero_le _,ho.2.2⟩
          obtain ⟨c',hok,hc'⟩ := Counters.relayout_tally (n.addChild key[depth+n.header.prefixLen] (.leaf (.new key value))).layout hp
          dsimp only
          rw [hok]
          refine ⟨_,_,rfl,add_right_cancel (b := ((0,0,single n.layout 1) : Tally)) ?_⟩
          have hl : tallyAt (some (.leaf (.new key value))) = (0,1,0)+(1,0,0) := tally_leaf _
          have hbf : Counters.tally { c with leafCount := c.leafCount+1 } = c.tally+(0,1,0) := rfl
          rw [show tallyAt none = 0 from rfl,add_zero,hl] at hu
          rw [add_right_comm,add_right_comm c'.tally,hc',hbf,add_assoc c.tally (tally _),hu]
          abel
      · rw [dif_neg hm]
        rw [dif_neg hm,isSome_head?] at hf
        rw [if_neg hf]
        refine ⟨_,_,rfl,?_⟩
        have hv := wf.tally_revalue (f := fun header => header.pushValue value) fun _ => rfl
        have hln : (((n.header.pushValue value).values.length,0,0) : Tally) = (1,0,0)+(n.header.values.length,0,0) :=
          Prod.ext (by simp [NodeHeader.pushValue,Nat.add_comm]) rfl
        rw [hln,← add_assoc] at hv
        rw [add_right_cancel hv,add_assoc]

end

/-- What a removal leaves to its caller to count, and the row ids at an inner node that it counts right. -/
structure Remover.Settles {β : Type} (r : Remover β) (debt : β → Tally) (fits : List RowId → Prop) : Prop where
  nothing : debt r.nothing = 0
  atLeaf : ∀ leaf c, leafTally leaf ≤ c.tally → ∃ leaf' answer c', r.atLeaf leaf c = .ok (leaf',answer,c') ∧
    c'.tally + leafTally leaf = c.tally + tallyAt (leaf'.map .leaf) + debt answer
  atInner : ∀ (values : List RowId) c, fits values → values.length ≤ c.size →
    ∃ values' answer c', r.atInner values c = .ok (values',answer,c') ∧
      c'.tally+(values.length,0,0) = c.tally+(values'.length,0,0) + debt answer

def EndsWith (fits : List RowId → Prop) (key : Bytes) : ArtNode × Nat → Prop
  | (.leaf _,_) => True
  | (.inner n,depth) => prefixMismatchPos n key depth < n.header.prefixLen ∨ depth+n.header.prefixLen < key.length ∨
      fits n.header.values

theorem removeAll_settles : removeAll.Settles (fun removed => if removed.isSome then (1,1,0) else 0) (· = []) where
  nothing := rfl
  atLeaf leaf c hle := by
    have hs : leaf.allValues.length ≤ c.size := hle.1
    have hv : leaf.allValues.length = leaf.valuesCount-1 + 1 := by
      simp [LeafNode.allValues,LeafNode.valuesCount]
    refine ⟨none,some leaf.primary, { c with size := c.size-(leaf.valuesCount-1) },?_,?_⟩
    · rw [removeAll]
      dsimp only
      rw [subSize_ok (by omega)]
      rfl
    · refine Prod.ext ?_ (Prod.ext rfl rfl)
      change c.size - (leaf.valuesCount-1) + leaf.allValues.length = c.size+0+1
      omega
  atInner values c hf _ := by
    subst hf
    exact ⟨[],none,c,rfl,rfl⟩

theorem removeOne_settles (rowId : RowId) :
    (removeOne rowId).Settles (fun removed => if removed then (1,0,0) else 0) (fun _ => True) where
  nothing := rfl
  atLeaf leaf c hle := by
    rw [removeOne]
    dsimp only
    obtain ⟨heq,ha⟩ | ⟨left,heq,-,hm,-,he⟩ | ⟨heq,-⟩ := leaf.removeValue_cases rowId
    · have hlv : 1 ≤ c.leafCount := hle.2.1
      refine ⟨none,true, { c with leafCount := c.leafCount-1 },?_,?_⟩
      · rw [heq]
        dsimp only
        rw [subLeaf_ok hlv]
        rfl
      · refine Prod.ext ?_ (Prod.ext ?_ rfl)
        · change c.size + leaf.allValues.length = c.size+0+1
          rw [ha]
          rfl
        · change c.leafCount - 1 + 1 = c.leafCount+0+0
          omega
    · refine ⟨some left,true,c,by rw [heq],?_⟩
      have hl : leaf.allValues.length = left.allValues.length+1 := by
        rw [← Multiset.coe_card left.allValues,he,← Multiset.coe_card leaf.allValues]
        exact (Multiset.card_erase_add_one (Multiset.mem_coe.mpr hm)).symm
      have hlf : tallyAt (some (.leaf left)) = leafTally left := tally_leaf left
      rw [map_some,hlf,add_assoc]
      exact congrArg _ (Prod.ext hl rfl)
    · refine ⟨some leaf,false,c,by rw [heq],?_⟩
      exact congrArg _ (tally_leaf leaf).symm
  atInner values c _ _ := by
    rw [removeOne]
    dsimp only
    cases hp : values.idxOf? rowId with
    | none => exact ⟨values,false,c,rfl,rfl⟩
    | some pos =>
      obtain ⟨hm,he⟩ := swapRemove_idxOf? hp
      refine ⟨swapRemove values pos,true,c,rfl,?_⟩
      have hl : values.length = (swapRemove values pos).length + 1 := by
        rw [← Multiset.coe_card (swapRemove values pos),he,← Multiset.coe_card values]
        exact (Multiset.card_erase_add_one (Multiset.mem_coe.mpr hm)).symm
      rw [add_assoc]
      exact congrArg _ (Prod.ext hl rfl)

section
variable {β : Type} {r : Remover β} {debt : β → Tally} {fits : List RowId → Prop} {node : ArtNode} {depth : Nat} {key : Bytes}
  {c : Counters}

theorem Reaches.descend_tally (hr : r.Settles debt fits) (h : Reaches node depth)
    (he : ∀ visit ∈ visits key node depth, EndsWith fits key visit) (hc : tally node ≤ c.tally) :
    ∃ left answer c', r.descend key node depth c = .ok (left,answer,c') ∧
      c'.tally + tally node = c.tally + tallyAt left + debt answer := by
  have hs : ∀ node : ArtNode, c.tally + tally node = c.tally + tallyAt (some node) + debt r.nothing := by
    intro node
    rw [hr.nothing]
    rfl
  induction h generalizing c with
  | @leaf leaf depth long =>
    rw [Remover.descend]
    split
    · rw [tally_leaf] at hc ⊢
      obtain ⟨leaf',answer,c',hok,hlf⟩ := hr.atLeaf leaf c hc
      rw [hok]
      exact ⟨_,answer,c',rfl,hlf⟩
    · exact ⟨_,_,_,rfl,hs _⟩
  | @inner n depth wf child ih =>
    rw [Remover.descend]
    by_cases hlt : prefixMismatchPos n key depth < n.header.prefixLen
    · rw [if_pos hlt]
      exact ⟨_,_,_,rfl,hs _⟩
    rw [if_neg hlt]
    by_cases hm : depth+n.header.prefixLen < key.length
    · rw [dif_pos hm]
      dsimp only
      -- the node may shrink, with or without a change below it
      have hf : ∀ {n' : Inner ArtNode} {old new : Option ArtNode} {c₁ : Counters} {answer : β},
          n.getChild key[depth+n.header.prefixLen] = old →
          n.Becomes n' (Function.update n.getChild key[depth+n.header.prefixLen] new) → n'.layout = n.layout →
          c₁.tally + tallyAt old = c.tally + tallyAt new + debt answer →
          ∃ c', c₁.relayout n'.layout n'.maybeShrink.layout = .ok c' ∧
            c'.tally + tally (.inner n) = c.tally + tallyAt (some (.inner n'.maybeShrink)) + debt answer := by
        intro n' old new c₁ answer hold hn hl hb
        have ho : ownTally n + tallyAt old ≤ c₁.tally + tallyAt old := by
          rw [hb,← hold]
          refine (wf.tally_child_le _).trans (hc.trans ?_)
          rw [add_assoc]
          exact le_add_of_nonneg_right zero_le
        have hp : ((0,0,single n'.layout 1) : Tally) ≤ c₁.tally := by
          rw [hl]
          exact ⟨Nat.zero_le _,Nat.zero_le _,(le_of_add_le_add_right ho).2.2⟩
        obtain ⟨c',hok,hc'⟩ := relayout_tally n'.maybeShrink.layout hp
        have hu := wf.tally_update hn.shrink
        rw [hold,← hl] at hu
        refine ⟨c',hok,add_right_cancel (b := tallyAt old + (0,0,single n'.layout 1)) ?_⟩
        calc c'.tally + tally (.inner n) + (tallyAt old + (0,0,single n'.layout 1)) =
            c'.tally+(0,0,single n'.layout 1) + tallyAt old + tally (.inner n) := by abel
          _ = c₁.tally + tallyAt old + (0,0,single n'.maybeShrink.layout 1) + tally (.inner n) := by rw [hc']; abel
          _ = c.tally + debt answer + (tally (.inner n) + tallyAt new + (0,0,single n'.maybeShrink.layout 1)) := by
            rw [hb]; abel
          _ = c.tally + tally (.inner n'.maybeShrink) + debt answer + (tallyAt old + (0,0,single n'.layout 1)) := by
            rw [← hu]; abel
      cases hg : n.getChild key[depth+n.header.prefixLen] with
      | none =>
        have hsame : n.Becomes n (Function.update n.getChild key[depth+n.header.prefixLen] none) :=
          ⟨wf,by rw [← hg,update_eq_self],rfl,rfl,rfl⟩
        have hnn : c.tally + tallyAt none = c.tally + tallyAt none + debt r.nothing := by
          rw [hr.nothing,add_zero]
        obtain ⟨c',hok,hc'⟩ := hf hg hsame rfl hnn
        dsimp only
        rw [pure_bind,hok]
        exact ⟨_,_,_,rfl,hc'⟩
      | some old =>
        have hb := wf.tally_child_le key[depth+n.header.prefixLen]
        rw [hg] at hb
        obtain ⟨new,answer,c₁,hok₁,hc₁⟩ := ih _ old hg
          (fun visit hvs => he visit (mem_visits_child hlt hm hg hvs))
          ((le_add_of_nonneg_left zero_le).trans (hb.trans hc)) hs
        dsimp only
        rw [hok₁]
        cases new with
        | none =>
          obtain ⟨hn,hl⟩ := wf.removeChild hg
          obtain ⟨c',hok,hc'⟩ := hf hg hn hl hc₁
          refine ⟨_,answer,c',?_,hc'⟩
          change (c₁.relayout _ _ >>= _) = _
          rw [hok]
          rfl
        | some new =>
          obtain ⟨hn,hl⟩ := wf.setChild hg new
          obtain ⟨c',hok,hc'⟩ := hf hg hn hl hc₁
          refine ⟨_,answer,c',?_,hc'⟩
          change (c₁.relayout _ _ >>= _) = _
          rw [hok]
          rfl
    · rw [dif_neg hm]
      have hft := (he _ (mem_visits_self _ _ _)).resolve_left hlt |>.resolve_left hm
      have ho : ownTally n ≤ c.tally := by
        rw [wf.tally_inner] at hc
        exact (le_add_of_nonneg_right zero_le).trans hc
      obtain ⟨values',answer,c',hok,hv⟩ := hr.atInner n.header.values c hft ho.1
      rw [hok]
      refine ⟨_,answer,c',rfl,add_right_cancel (b := ((n.header.values.length,0,0) : Tally)) ?_⟩
      have hrv := wf.tally_revalue (f := fun header => { header with values := values' }) fun _ => rfl
      change c'.tally + tally (.inner n) + (n.header.values.length,0,0) =
        c.tally + tally (.inner (n.modifyHeader fun header => { header with values := values' })) + debt answer +
          (n.header.values.length,0,0)
      calc c'.tally + tally (.inner n) + (n.header.values.length,0,0) =
          c'.tally+(n.header.values.length,0,0) + tally (.inner n) := add_right_comm _ _ _
        _ = c.tally + debt answer + (tally (.inner n) + (values'.length,0,0)) := by rw [hv]; abel
        _ = _ := by rw [← hrv]; abel

end

/-- The calls on an index, `clear` among them. -/
inductive Call
  | op (op : Op)
  | clear
deriving DecidableEq

namespace AdaptiveRadixTree

def clear (t : AdaptiveRadixTree) : AdaptiveRadixTree := { t with root := none, counters := ⟨0,0,fun _ => 0⟩ }

def perform (t : AdaptiveRadixTree) : Call → AdaptiveRadixTree
  | .op op => t.step op
  | .clear => t.clear

structure CountsExactly (t : AdaptiveRadixTree) : Prop where
  size : t.counters.size = (t.root.elim [] fun root =>
    root.leaves.flatMap (·.allValues) ++ root.inners.flatMap (·.header.values)).length
  leafCount : t.counters.leafCount = (t.root.elim [] ArtNode.leaves).length
  nodeCount : ∀ layout, t.counters.nodeCount layout = ((t.root.elim [] ArtNode.inners).filter fun n => n.layout = layout).length

/-- A call that the counters follow: an insertion that is refused, or finds its way and forks where it splits a leaf, and a removal
of a key whose row ids are not at an inner node. -/
def Balanced (t : AdaptiveRadixTree) : Call → Prop
  | .op (.insert key _) => t.Refuses key ∨ ∀ root ∈ t.root, ∀ visit ∈ visits key root 0, Recoverable visit.1 ∧ SplitsApart key visit
  | .op (.remove key) => ∀ root ∈ t.root, ∀ visit ∈ visits key root 0, EndsWith (· = []) key visit
  | .op (.removeValue _ _) => True
  | .clear => True

instance (t : AdaptiveRadixTree) (key : Bytes) : Decidable (t.Refuses key) := instDecidableOr

instance (key : Bytes) (visit : ArtNode × Nat) : Decidable (EndsWith (· = []) key visit) :=
  match visit with
  | (.leaf _,_) => .isTrue trivial
  | (.inner _,_) => instDecidableOr

instance (t : AdaptiveRadixTree) (call : Call) : Decidable (t.Balanced call) :=
  match call with
  | .op (.insert _ _) => @instDecidableOr _ _ _ (Option.decidableForallMem _)
  | .op (.remove _) => Option.decidableForallMem _
  | .op (.removeValue _ _) => .isTrue trivial
  | .clear => .isTrue trivial

theorem sum_leafTally (leaves : List LeafNode) :
    (leaves.map leafTally).sum = ((leaves.flatMap (·.allValues)).length,leaves.length,0) := by
  induction leaves with
  | nil => rfl
  | cons leaf leaves ih =>
    rw [map_cons,sum_cons,ih,flatMap_cons,length_append,length_cons,Nat.add_comm leaves.length]
    rfl

theorem sum_ownTally (inners : List (Inner ArtNode)) : (inners.map ownTally).sum =
    ((inners.flatMap (·.header.values)).length,0,fun layout => (inners.filter fun n => n.layout = layout).length) := by
  induction inners with
  | nil => rfl
  | cons n inners ih =>
    rw [map_cons,sum_cons,ih,flatMap_cons,length_append]
    refine Prod.ext rfl (Prod.ext rfl (funext fun layout => ?_))
    change (single n.layout 1 : Layout → Nat) layout + (inners.filter fun n => n.layout = layout).length =
      ((n::inners).filter fun n => n.layout = layout).length
    by_cases hl : n.layout = layout
    · subst hl
      rw [single_eq_same,filter_cons_of_pos (by simp),length_cons,Nat.add_comm]
    · rw [single_eq_of_ne (Ne.symm hl),filter_cons_of_neg (by simpa using hl),Nat.zero_add]

theorem countsExactly_iff {t : AdaptiveRadixTree} : t.CountsExactly ↔ t.counters.tally = tallyAt t.root := by
  have hr : tallyAt t.root = ((t.root.elim [] fun root =>
      root.leaves.flatMap (·.allValues) ++ root.inners.flatMap (·.header.values)).length,(t.root.elim [] ArtNode.leaves).length,
      fun layout => ((t.root.elim [] ArtNode.inners).filter fun n => n.layout = layout).length) := by
    cases t.root with
    | none => rfl
    | some root =>
      rw [tallyAt,elim_some,tally,sum_leafTally,sum_ownTally]
      refine Prod.ext ?_ (Prod.ext rfl (zero_add _))
      exact length_append.symm
  rw [hr,Counters.tally]
  constructor
  · intro h
    exact Prod.ext h.size (Prod.ext h.leafCount (funext h.nodeCount))
  · intro h
    exact ⟨congrArg Prod.fst h,congrArg (·.2.1) h,fun layout => congrFun (congrArg (·.2.2) h) layout⟩

section
variable {t : AdaptiveRadixTree} {key : Bytes}

/-- The counters of the new tree are what is in it, and no counter went below zero. -/
def Settled (t' : AdaptiveRadixTree) {α : Type} (answer : Except Failure α) : Prop :=
  t'.counters.tally = tallyAt t'.root ∧ answer ≠ .error .panicked

theorem insert_settled (hg : t.Grounded) (ht : t.counters.tally = tallyAt t.root) {value : RowId}
    (hok : t.Balanced (.op (.insert key value))) : Settled (t.insert key value).1 (t.insert key value).2 := by
  rw [insert]
  by_cases hn : key = [] ∧ t.indexType = .primaryKey
  · rw [if_pos hn]
    exact ⟨ht,(by rintro ⟨⟩)⟩
  rw [if_neg hn]
  by_cases hd : t.indexType.isUnique ∧ t.contains key = true
  · rw [if_pos hd]
    exact ⟨ht,(by rintro ⟨⟩)⟩
  rw [if_neg hd]
  cases hr : t.root with
  | none =>
    rw [hr] at ht
    have hnd : t.counters.nodeCount = 0 := congrArg (·.2.2) ht
    refine ⟨?_,(by rintro ⟨⟩)⟩
    change ((1,1,t.counters.nodeCount) : Tally) = tally (.leaf (.new key value))
    rw [hnd,tally_leaf]
    rfl
  | some root =>
    rw [hr] at ht
    have hf : ¬(t.indexType.isUnique ∧ (getRecursive key root 0).isSome = true) := by
      rw [contains,get,hr] at hd
      exact hd
    have hopen := hok.resolve_left (not_or.mpr ⟨hn,hd⟩) root hr
    obtain ⟨root',c,hi,hc⟩ := @Reaches.insertIntoNode_tally t.indexType t.name root 0 key value t.counters (hg root hr)
      (Nat.zero_le _) hf hopen (le_of_eq ht.symm)
    dsimp only
    rw [hi]
    refine ⟨?_,(by rintro ⟨⟩)⟩
    rw [ht,add_right_comm,add_comm (tallyAt (some root))] at hc
    exact add_right_cancel hc

theorem remove_settled (hg : t.Grounded) (ht : t.counters.tally = tallyAt t.root) (hok : t.Balanced (.op (.remove key))) :
    Settled (t.remove key).1 (t.remove key).2 := by
  rw [remove]
  cases hr : t.root with
  | none => exact ⟨ht,(by rintro ⟨⟩)⟩
  | some root =>
    rw [hr] at ht
    obtain ⟨left,removed,c,hrm,hc⟩ := (hg root hr).descend_tally removeAll_settles (hok root hr) (le_of_eq ht.symm)
    rw [ht,add_assoc,add_comm (tallyAt (some root))] at hc
    have hl := add_right_cancel hc
    dsimp only
    rw [removeRecursive,hrm]
    cases removed with
    | none => exact ⟨hl,(by rintro ⟨⟩)⟩
    | some rowId =>
      have hs : c.size = (tallyAt left).1 + 1 := congrArg Prod.fst hl
      have hlv : c.leafCount = (tallyAt left).2.1 + 1 := congrArg (·.2.1) hl
      dsimp only
      rw [subSize_ok (by omega)]
      dsimp only
      rw [@subLeaf_ok { c with size := c.size-1 } (show 1 ≤ c.leafCount by omega)]
      refine ⟨Prod.ext ?_ (Prod.ext ?_ ?_),(by rintro ⟨⟩)⟩
      · exact Nat.sub_eq_of_eq_add hs
      · exact Nat.sub_eq_of_eq_add hlv
      · exact congrArg (·.2.2) hl

theorem removeValue_settled (hg : t.Grounded) (ht : t.counters.tally = tallyAt t.root) (key : Bytes) (rowId : RowId) :
    Settled (t.removeValue key rowId).1 (t.removeValue key rowId).2 := by
  rw [removeValue]
  cases hr : t.root with
  | none => exact ⟨ht,(by rintro ⟨⟩)⟩
  | some root =>
    rw [hr] at ht
    have he : ∀ visit ∈ visits key root 0, EndsWith (fun _ => True) key visit := by
      rintro ⟨node,depth⟩ -
      cases node with
      | leaf leaf => trivial
      | inner n => exact .inr (.inr trivial)
    obtain ⟨left,removed,c,hrm,hc⟩ := (hg root hr).descend_tally (removeOne_settles rowId) he (le_of_eq ht.symm)
    rw [ht,add_assoc,add_comm (tallyAt (some root))] at hc
    have hl := add_right_cancel hc
    dsimp only
    rw [removeValueRecursive,hrm]
    cases removed with
    | false => exact ⟨hl,(by rintro ⟨⟩)⟩
    | true =>
      have hs : c.size = (tallyAt left).1 + 1 := congrArg Prod.fst hl
      dsimp only
      rw [subSize_ok (by omega)]
      refine ⟨Prod.ext ?_ ?_,(by rintro ⟨⟩)⟩
      · exact Nat.sub_eq_of_eq_add hs
      · exact congrArg (·.2) hl

/-- A call went without a counter below zero. -/
def Returns (t : AdaptiveRadixTree) : Call → Prop
  | .op (.insert key value) => (t.insert key value).2 ≠ .error .panicked
  | .op (.remove key) => (t.remove key).2 ≠ .error .panicked
  | .op (.removeValue key rowId) => (t.removeValue key rowId).2 ≠ .error .panicked
  | .clear => True

theorem CountsExactly.perform (h : t.CountsExactly) (hg : t.Grounded) {call : Call} (hok : t.Balanced call) :
    (t.perform call).CountsExactly ∧ t.Returns call := by
  have ht := countsExactly_iff.mp h
  match call, hok with
  | .op (.insert key value), hok =>
    obtain ⟨hc,hr⟩ := insert_settled hg ht hok
    exact ⟨countsExactly_iff.mpr hc,hr⟩
  | .op (.remove key), hok =>
    obtain ⟨hc,hr⟩ := remove_settled hg ht hok
    exact ⟨countsExactly_iff.mpr hc,hr⟩
  | .op (.removeValue key rowId), _ =>
    obtain ⟨hc,hr⟩ := removeValue_settled hg ht key rowId
    exact ⟨countsExactly_iff.mpr hc,hr⟩
  | .clear, _ => exact ⟨countsExactly_iff.mpr rfl,trivial⟩

theorem Grounded.perform (h : t.Grounded) (call : Call) : (t.perform call).Grounded := by
  cases call with
  | op op => exact h.step op
  | clear => exact nofun

end
end AdaptiveRadixTree

/-- Along a run of balanced calls from a new index the counters are exact, and the next balanced call does not take one of them
below zero. -/
theorem counters_exact (name : String) (indexType : ArtIndexType) {calls : List Call}
    (hok : Guarded AdaptiveRadixTree.perform AdaptiveRadixTree.Balanced (AdaptiveRadixTree.new name indexType) calls) :
    let t := run AdaptiveRadixTree.perform (AdaptiveRadixTree.new name indexType) calls
    t.CountsExactly ∧ ∀ call, t.Balanced call → t.Returns call := by
  intro t
  have hinv : t.CountsExactly ∧ t.Grounded := by
    refine guarded_run_invariant AdaptiveRadixTree.perform (fun t => t.CountsExactly ∧ t.Grounded)
      (fun t call h hcall => ?_) ?_ hok
    · exact ⟨(h.1.perform h.2 hcall).1,h.2.perform call⟩
    · exact ⟨AdaptiveRadixTree.countsExactly_iff.mpr rfl,AdaptiveRadixTree.grounded_new name indexType⟩
  exact ⟨hinv.1,fun call hcall => (hinv.1.perform hinv.2 hcall).2⟩

theorem counters_exact_letters :
    let calls := [.op (.insert [97,98] 1),.op (.insert [97,99] 2),.op (.insert [97] 3),.op (.insert [97,98] 4),
      .op (.removeValue [97] 3),.op (.remove [97,98])]
    (run AdaptiveRadixTree.perform (AdaptiveRadixTree.new "idx" .manual) calls).CountsExactly :=
  (counters_exact "idx" .manual (by decide +kernel)).1

/-- A key that ends at an inner node is taken off the leaves when it goes. After it the last leaf is one too many to take off. -/
theorem inner_key_counted_as_leaf :
    let calls := [.op (.insert [97,98] 1),.op (.insert [97,99] 2),.op (.insert [97] 3),.op (.remove [97])]
    let t := run AdaptiveRadixTree.perform (AdaptiveRadixTree.new "idx" .manual) calls
    ¬t.CountsExactly ∧ ¬(t.perform (.op (.remove [97,98]))).Returns (.op (.remove [97,99])) := by
  intro calls t
  refine ⟨fun h => ?_,fun h => h (by decide +kernel)⟩
  exact absurd h.leafCount (by decide +kernel)

end HeliosNano.Storage.Art
