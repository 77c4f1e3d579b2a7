import HeliosNano.Storage.Art.Insertion

namespace HeliosNano.Storage.Art
open Foundation Foundation.Multimap List Function Option ArtNode

/-- What a removal does to the row ids of its key: the relation between the row ids before
and after it and its answer, how much it takes off the size, which leaves it takes, and which
of them it takes off the leaf counter itself. -/
structure Remover.Sound {β : Type} (r : Remover β) (does : Multiset RowId → Multiset RowId → β → Prop)
    (cost : Multiset RowId → Nat) (takes counted : LeafNode → Bool) : Prop where
  nothing : does 0 0 r.nothing ∧ cost 0 = 0
  empty : ∀ values answer, does 0 values answer → values = 0
  atLeaf : ∀ leaf c, cost leaf.allValues ≤ c.size → (counted leaf = true → 1 ≤ c.leafCount) →
    ∃ leaf' answer c', r.atLeaf leaf c = .ok (leaf',answer,c') ∧
      does leaf.allValues ((leaf'.map LeafNode.allValues).getD []) answer ∧ (∀ l, leaf' = some l → l.key = leaf.key) ∧
      (takes leaf = false → leaf' ≠ none) ∧ (takes leaf = true → leaf' = none) ∧
      c'.size + cost leaf.allValues = c.size ∧ c'.nodeCount = c.nodeCount
  atInner : ∀ (values : List RowId) c, cost values ≤ c.size →
    ∃ values' answer c', r.atInner values c = .ok (values',answer,c') ∧ does values values' answer ∧
      c'.size + cost values = c.size ∧ c'.nodeCount = c.nodeCount ∧ c'.leafCount = c.leafCount

/-- The removal leaves the prefix of an inner node recoverable, or nothing that needs it:
another leaf stays below, or no key ends at an inner node there. -/
def Spares (takes : LeafNode → Bool) (key : Bytes) : ArtNode × Nat → Prop
  | (.leaf _,_) => True
  | (.inner n,_) => n.header.prefixLen ≤ maxPrefixLen ∨
      (∃ leaf ∈ (inner n).leaves, leaf.key ≠ key ∨ takes leaf = false) ∨
      ∀ m ∈ (inner n).inners, m.header.values = []

instance (takes : LeafNode → Bool) (key : Bytes) (visit : ArtNode × Nat) : Decidable (Spares takes key visit) :=
  match visit with
  | (.leaf _,_) => .isTrue trivial
  | (.inner n,_) => inferInstanceAs (Decidable (n.header.prefixLen ≤ maxPrefixLen ∨
      (∃ leaf ∈ (inner n).leaves, leaf.key ≠ key ∨ takes leaf = false) ∨
      ∀ m ∈ (inner n).inners, m.header.values = []))

section
variable {node : ArtNode} {n : Inner ArtNode} {path hidden : Bytes} {below : Byte → Holdings} {total : Holdings}

theorem InnerHolds.below_eq_zero (h : InnerHolds n path hidden below total)
    (hc : ∀ b child, n.getChild b = some child → (below b).1 = 0) (b : Byte) : (below b).1 = 0 := by
  cases hg : n.getChild b with
  | none => rw [h.vacant b hg]; rfl
  | some child => exact hc b child hg

theorem InnerHolds.total_eq_zero (h : InnerHolds n path hidden below total) (hv : n.header.values = [])
    (hb : ∀ b, (below b).1 = 0) : total.1 = 0 := by
  rw [h.held,Prod.fst_add,ownHoldings,hv,Prod.fst_sum,Finset.sum_eq_zero fun b _ => hb b]
  rfl

theorem Rep.total_eq_zero (h : Rep node path total) (hv : ∀ m ∈ node.inners, m.header.values = [])
    (hl : node.leaves = []) : total.1 = 0 := by
  induction h using Rep.inductOn with
  | leaf leaf path reached =>
    rw [leaves] at hl
    cases hl
  | inner n path hidden below total h ih =>
    refine h.total_eq_zero (hv n (h.wf.mem_inners.mpr (.inl rfl))) (h.below_eq_zero fun b child hg => ?_)
    refine ih b child hg (fun m hm => hv m (h.wf.mem_inners.mpr (.inr ⟨b,child,hg,hm⟩))) ?_
    refine eq_nil_iff_forall_not_mem.mpr fun leaf hlf => ?_
    exact ne_nil_of_mem (h.wf.mem_leaves.mpr ⟨b,child,hg,hlf⟩) hl

theorem InnerHolds.exists_siblings (h : InnerHolds n path hidden below total) (b : Byte) :
    ∃ siblings : Layout → Nat, total.2 = (below b).2 + (Pi.single n.layout 1 + siblings) := by
  have hs := sum_update_add below b 0
  rw [add_zero] at hs
  refine ⟨(∑ b', Function.update below b 0 b').2,?_⟩
  rw [h.held,← hs]
  simp only [Prod.snd_add,ownHoldings]
  abel

theorem Inner.Becomes.shrink {α : Type} {n n' : Inner α} {g : Byte → Option α} (h : n.Becomes n' g) :
    n.Becomes n'.maybeShrink g := by
  have hs := h.wf.maybeShrink
  exact ⟨hs.wf,hs.children.trans h.children,h.agrees.trans hs.agrees⟩

end

section
variable {β : Type} {r : Remover β} {does : Multiset RowId → Multiset RowId → β → Prop} {cost : Multiset RowId → Nat}
  {takes counted : LeafNode → Bool} {n n' : Inner ArtNode} {node : ArtNode} {path hidden key : Bytes} {below : Byte → Holdings}
  {total total' part : Holdings} {b : Byte} {c : Counters}

structure Removed (does : Multiset RowId → Multiset RowId → β → Prop) (cost : Multiset RowId → Nat)
    (takes : LeafNode → Bool) (key : Bytes) (node : ArtNode) (path : Bytes) (total : Holdings) (c : Counters)
    (others : Layout → Nat) (node' : Option ArtNode) (answer : β) (c' : Counters) (total' : Holdings) : Prop where
  rep : RepAt node' path total'
  values : ∃ left, does (valuesAt total.1 key) left answer ∧
    total'.1 + entries key (valuesAt total.1 key) = total.1 + entries key left
  nodes : c'.nodeCount = total'.2+others
  size : c'.size + cost (valuesAt total.1 key) = c.size
  kept : (∃ leaf ∈ node.leaves, leaf.key ≠ key ∨ takes leaf = false) → ∃ child, node' = some child ∧ child.leaves ≠ []
  cleared : (∀ m ∈ node.inners, m.header.values = []) → (∀ leaf ∈ node.leaves, leaf.key = key ∧ takes leaf = true) →
    total'.1 = 0

variable {others : Layout → Nat}

variable (hr : r.Sound does cost takes counted)
include hr

theorem Rep.removed_nothing (h : Rep node path total) (hz : valuesAt total.1 key = 0) (hc : c.nodeCount = total.2+others)
    (hcl : (∀ m ∈ node.inners, m.header.values = []) → (∀ leaf ∈ node.leaves, leaf.key = key) → node.leaves = []) :
    Removed does cost takes key node path total c others (some node) r.nothing c total where
  rep := h
  values := ⟨0,by rw [hz]; exact hr.nothing.1,by rw [hz]⟩
  nodes := hc
  size := by rw [hz,hr.nothing.2]; rfl
  kept := by
    rintro ⟨leaf,hlf,-⟩
    exact ⟨node,rfl,ne_nil_of_mem hlf⟩
  cleared hv hleaves := h.total_eq_zero hv (hcl hv fun leaf hl => (hleaves leaf hl).1)

omit hr in
theorem InnerRep.no_leaf_of_mismatch (h : InnerRep n path hidden below total) {rest : Bytes}
    (hlt : prefixMismatchPos n (path ++ rest) path.length < n.header.prefixLen) :
    ∀ leaf ∈ (inner n).leaves, leaf.key ≠ path ++ rest := by
  intro leaf hl heq
  have hp := h.path_of_leaf leaf hl
  rw [heq,prefix_append_right_inj] at hp
  rw [h.prefixMismatchPos_eq (.inr (ne_nil_of_mem hl)),h.prefixLen] at hlt
  exact absurd ((length_le_commonLen_iff hidden rest).mpr hp) (Nat.not_le.mpr hlt)

theorem Rep.descend_leaf {leaf : LeafNode} (reached : path <+: leaf.key)
    (hcn : leaf.key = key → counted leaf = true → 1 ≤ c.leafCount)
    (hc : c.nodeCount = 0+others) (hs : cost (valuesAt (entries leaf.key leaf.allValues) key) ≤ c.size) :
    ∃ node' answer c' total', r.descend key (.leaf leaf) path.length c = .ok (node',answer,c') ∧
      Removed does cost takes key (.leaf leaf) path (entries leaf.key leaf.allValues,0) c others node' answer c' total' := by
  rw [Remover.descend]
  by_cases heq : leaf.key = key
  · subst heq
    rw [valuesAt_entries,if_pos rfl] at hs
    obtain ⟨leaf',answer,c',hok,hds,hkey,hst,hg,hcs,hn⟩ := hr.atLeaf leaf c hs (hcn rfl)
    have hv : valuesAt (entries leaf.key (leaf.allValues : Multiset RowId)) leaf.key = leaf.allValues := by
      rw [valuesAt_entries,if_pos rfl]
    rw [if_pos rfl,hok]
    refine ⟨leaf'.map .leaf,answer,c',(entries leaf.key ↑((leaf'.map LeafNode.allValues).getD []),0),rfl,?_,?_,?_,?_,
      ?_,?_⟩
    · cases leaf' with
      | none => rfl
      | some l =>
        have hl := hkey l rfl
        have hrp : Rep (.leaf l) path (entries l.key l.allValues,0) := .leaf (hl ▸ reached)
        rw [hl] at hrp
        exact hrp
    · exact ⟨_,by rw [hv]; exact hds,by rw [hv,add_comm]⟩
    · rw [hn,hc]
    · rw [hv,hcs]
    · rintro ⟨l,hl,hd⟩
      rw [leaves,mem_singleton] at hl
      subst hl
      obtain ⟨l',hl'⟩ := ne_none_iff_exists'.mp (hst (hd.resolve_left fun hne => hne rfl))
      rw [hl']
      exact ⟨_,rfl,ne_nil_of_mem (mem_leaves_leaf l')⟩
    · intro _ hlv
      rw [hg (hlv leaf (mem_leaves_leaf leaf)).2]
      rfl
  · rw [if_neg heq]
    refine ⟨_,_,_,_,rfl,(Rep.leaf reached).removed_nothing hr ?_ hc fun _ hlv => ?_⟩
    · rw [valuesAt_entries,if_neg (Ne.symm heq)]
    · exact absurd (hlv leaf (mem_leaves_leaf leaf)) heq

omit hr in
theorem recoverable_of_spares (hst : n.header.prefixLen = hidden.length) {depth : Nat} (hs : Spares takes key (.inner n,depth))
    (hk : (∃ leaf ∈ (inner n).leaves, leaf.key ≠ key ∨ takes leaf = false) → (inner n').leaves ≠ [])
    (hc : (∀ m ∈ (inner n).inners, m.header.values = []) →
      (∀ leaf ∈ (inner n).leaves, leaf.key = key ∧ takes leaf = true) → total'.1 = 0) :
    hidden.length ≤ maxPrefixLen ∨ (inner n').leaves ≠ [] ∨ total'.1 = 0 := by
  obtain hsh | hlf | hvalues := hs
  · exact .inl (hst ▸ hsh)
  · exact .inr (.inl (hk hlf))
  by_cases hlf : ∃ leaf ∈ (inner n).leaves, leaf.key ≠ key ∨ takes leaf = false
  · exact .inr (.inl (hk hlf))
  refine .inr (.inr (hc hvalues fun leaf hl => ?_))
  by_contra hno
  refine hlf ⟨leaf,hl,?_⟩
  rw [not_and_or,Bool.not_eq_true] at hno
  exact hno

theorem InnerRep.removed_here (h : InnerRep n path hidden below total) {depth : Nat}
    (hsp : Spares takes (path ++ hidden) (.inner n,depth))
    (hc : c.nodeCount = total.2+others) (hs : cost (valuesAt total.1 (path ++ hidden)) ≤ c.size) :
    ∃ values' answer c' total', r.atInner n.header.values c = .ok (values',answer,c') ∧
      Removed does cost takes (path ++ hidden) (.inner n) path total c others
        (some (.inner (n.modifyHeader fun header => { header with values := values' }))) answer c' total' := by
  rw [h.valuesAt_end] at hs
  obtain ⟨values',answer,c',hok,hd,hcs,hnd,-⟩ := hr.atInner n.header.values c hs
  obtain ⟨total',hh,hf,hsn⟩ := h.revalue (f := fun header => { header with values := values' })
    fun header => ⟨⟨rfl,rfl,rfl⟩,rfl⟩
  obtain ⟨hwf,hg,-⟩ := h.wf.modifyHeader (f := fun header => { header with values := values' }) fun _ => rfl
  have hlv : ∀ leaf, leaf ∈ (inner n).leaves →
      leaf ∈ (inner (n.modifyHeader fun header => { header with values := values' })).leaves := by
    intro leaf hl
    obtain ⟨b,child,hch,hm⟩ := h.wf.mem_leaves.mp hl
    exact hwf.mem_leaves.mpr ⟨b,child,by rw [hg]; exact hch,hm⟩
  have hk : (∃ leaf ∈ (inner n).leaves, leaf.key ≠ path ++ hidden ∨ takes leaf = false) →
      (inner (n.modifyHeader fun header => { header with values := values' })).leaves ≠ [] := by
    rintro ⟨leaf,hl,-⟩
    exact ne_nil_of_mem (hlv leaf hl)
  have hcl : (∀ m ∈ (inner n).inners, m.header.values = []) →
      (∀ leaf ∈ (inner n).leaves, leaf.key = path ++ hidden ∧ takes leaf = true) → total'.1 = 0 := by
    intro hv ha
    -- A leaf below the node has a longer key.
    have hnn : (inner n).leaves = [] := by
      refine eq_nil_iff_forall_not_mem.mpr fun leaf hl => ?_
      obtain ⟨b,child,hch,hm⟩ := h.wf.mem_leaves.mp hl
      have hln := (h.child b child hch).path_of_leaf leaf hm
      rw [(ha leaf hl).1] at hln
      exact absurd hln.length_le (by simp)
    have hn : n.header.values = [] := hv n (h.wf.mem_inners.mpr (.inl rfl))
    have hz := h.rep.total_eq_zero hv hnn
    rw [hn] at hd hf
    have hv' : (values' : Multiset RowId) = 0 := hr.empty _ _ hd
    rw [hz,zero_add] at hf
    change total'.1 + entries (path ++ hidden) 0 = entries (path ++ hidden) (values' : Multiset RowId) at hf
    rw [hv',entries_zero,add_zero] at hf
    exact hf
  refine ⟨values',answer,c',total',hok,?_,⟨values',?_,?_⟩,?_,?_,?_,hcl⟩
  · exact InnerRep.rep ⟨hh,recoverable_of_spares h.prefixLen hsp hk hcl⟩
  · rw [h.valuesAt_end]
    exact hd
  · rw [h.valuesAt_end]
    exact hf
  · rw [hnd,hc,hsn]
  · rw [h.valuesAt_end]
    exact hcs
  · exact fun hl => ⟨_,rfl,hk hl⟩

omit hr in
theorem InnerRep.removed_below (h : InnerRep n path hidden below total) (hkey : path ++ hidden ++ [b] <+: key) {depth : Nat}
    (hs : Spares takes key (.inner n,depth)) {child : Option ArtNode} {answer : β} {c₁ : Counters}
    {siblings others : Layout → Nat} (hsb : total.2 = (below b).2 + (Pi.single n.layout 1 + siblings))
    (hn : n.Becomes n' (Function.update n.getChild b child)) (hly : n'.layout = n.layout)
    (hr : RepAt child (path ++ hidden ++ [b]) part) (hvl : ∃ left, does (valuesAt (below b).1 key) left answer ∧
      part.1 + entries key (valuesAt (below b).1 key) = (below b).1 + entries key left)
    (hnd : c₁.nodeCount = part.2+(Pi.single n.layout 1 + siblings+others))
    (hct : c₁.size + cost (valuesAt (below b).1 key) = c.size)
    (hch : ∀ old, n.getChild b = some old → (∃ leaf ∈ old.leaves, leaf.key ≠ key ∨ takes leaf = false) →
      ∃ new, child = some new ∧ new.leaves ≠ [])
    (hc : ∀ old, n.getChild b = some old → (∀ m ∈ old.inners, m.header.values = []) →
      (∀ leaf ∈ old.leaves, leaf.key = key ∧ takes leaf = true) → part.1 = 0) (hv : n.getChild b = none → part.1 = 0) :
    ∃ c₂ total', c₁.relayout n'.layout n'.maybeShrink.layout = .ok c₂ ∧
      Removed does cost takes key (.inner n) path total c others (some (.inner n'.maybeShrink)) answer c₂ total' := by
  have ho : 1 ≤ c₁.nodeCount n'.layout := by
    rw [hnd,hly]
    simp only [Pi.add_apply,Pi.single_eq_same]
    omega
  obtain ⟨c₂,hok,hcn,hs₂,-⟩ := Counters.relayout_ok n'.maybeShrink.layout ho
  obtain ⟨total',hh,hf,hsn⟩ := h.update hn.shrink hr
  have hcs := hn.shrink.children
  have hst : ∀ b' old, b' ≠ b → n.getChild b' = some old → n'.maybeShrink.getChild b' = some old := by
    intro b' old hne hg
    rw [hcs,update_of_ne hne,hg]
  have hk : (∃ leaf ∈ (inner n).leaves, leaf.key ≠ key ∨ takes leaf = false) →
      (inner n'.maybeShrink).leaves ≠ [] := by
    rintro ⟨leaf,hl,hd⟩
    obtain ⟨b',old,hg,hmm⟩ := h.wf.mem_leaves.mp hl
    by_cases hb : b' = b
    · subst hb
      obtain ⟨new,hnew,hlv⟩ := hch old hg ⟨leaf,hmm,hd⟩
      obtain ⟨leaf',hl'⟩ := exists_mem_of_ne_nil _ hlv
      refine ne_nil_of_mem (hh.wf.mem_leaves.mpr ⟨b',new,?_,hl'⟩)
      rw [hcs,update_self,hnew]
    · exact ne_nil_of_mem (hh.wf.mem_leaves.mpr ⟨b',old,hst b' old hb hg,hmm⟩)
  have hcl : (∀ m ∈ (inner n).inners, m.header.values = []) →
      (∀ leaf ∈ (inner n).leaves, leaf.key = key ∧ takes leaf = true) → total'.1 = 0 := by
    intro he ha
    have hi : ∀ b' old, n.getChild b' = some old → ∀ m ∈ old.inners, m.header.values = [] :=
      fun b' old hg m hm => he m (h.wf.mem_inners.mpr (.inr ⟨b',old,hg,hm⟩))
    refine hh.total_eq_zero ?_ fun b' => ?_
    · rw [hn.shrink.agrees.2.2]
      exact he n (h.wf.mem_inners.mpr (.inl rfl))
    · by_cases hb : b' = b
      · subst hb
        rw [update_self]
        cases hg : n.getChild b' with
        | none => exact hv hg
        | some old =>
          exact hc old hg (hi b' old hg) fun leaf hl =>
            ha leaf (h.wf.mem_leaves.mpr ⟨b',old,hg,hl⟩)
      · rw [update_of_ne hb]
        cases hg : n.getChild b' with
        | none => rw [h.vacant b' hg]; rfl
        | some old =>
          -- The key goes on with another byte, so no leaf of it is here.
          refine (h.child b' old hg).total_eq_zero (hi b' old hg) ?_
          refine eq_nil_iff_forall_not_mem.mpr fun leaf hl => hb ?_
          have hp := (h.child b' old hg).path_of_leaf leaf hl
          rw [(ha leaf (h.wf.mem_leaves.mpr ⟨b',old,hg,hl⟩)).1] at hp
          exact Option.some.inj ((getElem?_of_snoc hp).symm.trans (getElem?_of_snoc hkey))
  refine ⟨c₂,total',hok,?_,?_,?_,?_,fun hl => ⟨_,rfl,hk hl⟩,hcl⟩
  · exact InnerRep.rep ⟨hh,recoverable_of_spares h.prefixLen hs hk hcl⟩
  · obtain ⟨left,hds,hpr⟩ := hvl
    rw [h.valuesAt_child hkey]
    refine ⟨left,hds,add_right_cancel (b := (below b).1) ?_⟩
    rw [add_right_comm,hf,add_assoc,hpr,← add_assoc,add_right_comm]
  · refine add_right_cancel (b := Pi.single n.layout 1) ?_
    rw [hly] at hcn
    have hs' : total'.2 + Pi.single n.layout 1 = part.2+siblings + Pi.single n.layout 1 + Pi.single n'.maybeShrink.layout 1 := by
      refine add_right_cancel (b := (below b).2) ?_
      rw [add_right_comm,hsn,hsb]
      abel
    rw [hcn,hnd,add_right_comm total'.2,hs']
    abel
  · rw [h.valuesAt_child hkey,hs₂]
    exact hct

theorem Rep.descend (h : Rep node path total) (hkey : path <+: key)
    (hsp : ∀ visit ∈ visits key node path.length, Spares takes key visit)
    (hlf : ∀ leaf depth, (ArtNode.leaf leaf,depth) ∈ visits key node path.length → leaf.key = key →
      counted leaf = true → 1 ≤ c.leafCount) (hc : c.nodeCount = total.2+others)
    (hs : cost (valuesAt total.1 key) ≤ c.size) :
    ∃ node' answer c' total', r.descend key node path.length c = .ok (node',answer,c') ∧
      Removed does cost takes key node path total c others node' answer c' total' := by
  induction h using Rep.inductOn generalizing others with
  | leaf leaf path reached =>
    exact Rep.descend_leaf hr reached (hlf leaf _ (mem_visits_self key _ _)) hc hs
  | inner n path hidden below total h ih =>
    have hsl := hsp _ (mem_visits_self key _ _)
    obtain ⟨rest,rfl⟩ := hkey
    rw [Remover.descend]
    obtain ⟨hlt,hz⟩ | ⟨hmt,tail,rfl⟩ := h.mismatch_cases rest
    · rw [if_pos hlt]
      refine ⟨_,_,_,_,rfl,h.rep.removed_nothing hr hz hc fun _ hlv => ?_⟩
      exact eq_nil_iff_forall_not_mem.mpr fun leaf hl => h.no_leaf_of_mismatch hlt leaf hl (hlv leaf hl)
    · rw [if_neg hmt]
      cases tail with
      | nil =>
        rw [append_nil] at hsl hs ⊢
        rw [dif_neg (by simp [h.prefixLen])]
        obtain ⟨values',answer,c',total',hok,hrm⟩ := h.removed_here hr hsl hc hs
        exact ⟨_,answer,c',total',by simp only [hok]; rfl,hrm⟩
      | cons b tail =>
        obtain ⟨hp,hln,hm,hb⟩ := h.next_byte b tail
        obtain ⟨siblings,hsb⟩ := h.exists_siblings b
        rw [dif_pos hm]
        simp only [hb]
        rw [h.valuesAt_child hp] at hs
        have hnd : c.nodeCount = (below b).2 + (Pi.single n.layout 1 + siblings+others) := by
          rw [hc,hsb,add_assoc]
        cases hg : n.getChild b with
        | none =>
          have hz := h.vacant b hg
          have hsame : n.Becomes n (Function.update n.getChild b none) := by
            rw [update_eq_self_iff.mpr hg.symm]
            exact ⟨h.wf,rfl,rfl,rfl,rfl⟩
          obtain ⟨c₂,total',hok,hrm⟩ := @InnerRep.removed_below β does cost takes n n path hidden _ below total
            (below b) b c h hp _ hsl none r.nothing c siblings others hsb hsame rfl hz
            ⟨0,by rw [hz]; exact hr.nothing.1,by rw [hz]; rfl⟩ hnd
            (by rw [hz]; exact congrArg (c.size + ·) hr.nothing.2)
            (fun old hold => by rw [hg] at hold; cases hold) (fun old hold => by rw [hg] at hold; cases hold)
            (fun _ => by rw [hz]; rfl)
          exact ⟨_,r.nothing,c₂,total',by simp only [pure_bind,hok]; rfl,hrm⟩
        | some old =>
          have hvs : ∀ visit, visit ∈ visits (path ++ (hidden ++ b::tail)) old (path ++ hidden ++ [b]).length →
              visit ∈ visits (path ++ (hidden ++ b::tail)) (.inner n) path.length := by
            intro visit hv
            rw [hln] at hv
            exact mem_visits_child hmt hm (by rw [hb]; exact hg) hv
          obtain ⟨child,answer,c₁,part,hok₁,hch⟩ := ih b old hg hp
            (fun visit hv => hsp visit (hvs visit hv))
            (fun leaf depth hv => hlf leaf depth (hvs _ hv)) hnd hs
          rw [hln] at hok₁
          have hf : ∀ n', n.Becomes n' (Function.update n.getChild b child) → n'.layout = n.layout →
              ∃ c₂ total', c₁.relayout n'.layout n'.maybeShrink.layout = .ok c₂ ∧ Removed does cost takes
                (path ++ (hidden ++ b::tail)) (.inner n) path total c others (some (.inner n'.maybeShrink)) answer c₂ total' :=
            fun n' hn hly => h.removed_below hp hsl hsb hn hly hch.rep hch.values hch.nodes
              hch.size
              (fun old' ho' => by
                rw [hg,some.injEq] at ho'
                subst ho'
                exact hch.kept)
              (fun old' ho' => by
                rw [hg,some.injEq] at ho'
                subst ho'
                exact hch.cleared)
              (fun hnn => by rw [hg] at hnn; cases hnn)
          cases child with
          | none =>
            obtain ⟨hn,hly⟩ := h.wf.removeChild hg
            obtain ⟨c₂,total',hok,hrm⟩ := hf _ hn hly
            refine ⟨_,answer,c₂,total',?_,hrm⟩
            simp only [hok₁,bind,Except.bind,pure,Except.pure,hok]
          | some child =>
            obtain ⟨hn,hly⟩ := h.wf.setChild hg child
            obtain ⟨c₂,total',hok,hrm⟩ := hf _ hn hly
            refine ⟨_,answer,c₂,total',?_,hrm⟩
            simp only [hok₁,bind,Except.bind,pure,Except.pure,hok]

end
end HeliosNano.Storage.Art
