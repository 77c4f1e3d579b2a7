import HeliosNano.Storage.Art.RangeScan
import HeliosNano.Storage.Art.Tallies

/-! Indexes whose keys all have one width of at most ten bytes, as those of integers do. No key ends inside the tree and no byte
of a prefix is left out, so that every call is carried out as a multimap and counted. -/
namespace HeliosNano.Storage.Art
open Foundation Foundation.Multimap List Function ArtNode

/-- A subtree at a depth: the prefixes end before the keys do, and the row ids are on the leaves. -/
inductive Uniform (width : Nat) : ArtNode → Nat → Prop
  | leaf {leaf : LeafNode} {depth : Nat} (length : leaf.key.length = width) : Uniform width (.leaf leaf) depth
  | inner {n : Inner ArtNode} {depth : Nat} (wf : n.Wf) (inside : depth+n.header.prefixLen < width)
    (values : n.header.values = [])
    (child : ∀ b child, n.getChild b = some child → Uniform width child (depth+n.header.prefixLen+1)) :
    Uniform width (.inner n) depth

section
variable {width : Nat} {node node' : ArtNode} {n n' : Inner ArtNode} {depth depth' : Nat} {key : Bytes}

theorem Uniform.of_le (h : Uniform width node depth) (hle : depth' ≤ depth) : Uniform width node depth' := by
  induction h generalizing depth' with
  | leaf length => exact .leaf length
  | inner wf inside values child ih =>
    refine .inner wf (by omega) values fun b c hg => ih b c hg ?_
    omega

variable (h : Uniform width (.inner n) depth)
include h

theorem Uniform.wf : n.Wf := by
  cases h with
  | inner wf inside values child => exact wf

theorem Uniform.inside : depth+n.header.prefixLen < width := by
  cases h with
  | inner wf inside values child => exact inside

theorem Uniform.values : n.header.values = [] := by
  cases h with
  | inner wf inside values child => exact values

theorem Uniform.child {b : Byte} {child : ArtNode} (hg : n.getChild b = some child) :
    Uniform width child (depth+n.header.prefixLen+1) := by
  cases h with
  | inner wf inside values below => exact below b child hg

theorem Uniform.update {b : Byte} {child : Option ArtNode} (hn : n.Becomes n' (Function.update n.getChild b child))
    (hc : ∀ c ∈ child, Uniform width c (depth+n.header.prefixLen+1)) : Uniform width (.inner n') depth := by
  refine .inner hn.wf (by rw [hn.agrees.1]; exact h.inside) (by rw [hn.agrees.2.2]; exact h.values) fun b' c hg => ?_
  rw [hn.children] at hg
  rw [hn.agrees.1]
  by_cases hb : b' = b
  · rw [hb,update_self] at hg
    exact hc c hg
  · rw [update_of_ne hb] at hg
    exact h.child hg

theorem Uniform.reprefix {remaining : Bytes} (hl : depth'+remaining.length ≤ depth+n.header.prefixLen) :
    Uniform width (.inner (n.modifyHeader fun header => header.setPrefix remaining)) depth' := by
  obtain ⟨hwf,hg,hh,-⟩ := h.wf.modifyHeader (f := fun header => header.setPrefix remaining) fun _ => rfl
  have hle : (n.header.setPrefix remaining).prefixLen ≤ remaining.length := Nat.mod_le _ _
  have hi := h.inside
  refine .inner hwf (by rw [hh]; omega) (by rw [hh]; exact h.values) fun b child hc => ?_
  rw [hg] at hc
  rw [hh]
  exact (h.child hc).of_le (by omega)

omit h

theorem uniform_fork {shared : Bytes} {b₁ b₂ : Byte} {child₁ child₂ : ArtNode} {values₁ values₂ : List RowId}
    (hi : depth+shared.length < width) (h₁ : Uniform width child₁ (depth+shared.length+1))
    (h₂ : Uniform width child₂ (depth+shared.length+1)) (hne : b₂ ≠ b₁) :
    Uniform width (.inner (.node4 (((KeyedNode.pack 4 (.withPrefix shared) []).hang (some b₁) child₁ values₁).hang (some b₂)
      child₂ values₂))) depth := by
  have he := getChild_pack_nil (.withPrefix shared) rfl
  have hle : (NodeHeader.withPrefix shared).prefixLen ≤ shared.length := Nat.mod_le _ _
  have hnew : Uniform width (.inner (.node4 (.pack 4 (.withPrefix shared) []))) depth := by
    refine .inner ⟨[],holds_pack_nil _ rfl⟩ (Nat.lt_of_le_of_lt (Nat.add_le_add_left hle depth) hi) rfl fun b child hg => ?_
    rw [Inner.getChild,he] at hg
    cases hg
  obtain ⟨hf,hcn⟩ := (KeyedNode.pack 4 (.withPrefix shared) []).hang_becomes hnew.wf (Nat.zero_lt_succ 3)
    (congrFun he b₁) child₁ values₁
  have ho := hnew.update hf fun c hc => Option.some.inj hc ▸ h₁.of_le (Nat.succ_le_succ (Nat.add_le_add_left hle depth))
  have hn : ((KeyedNode.pack 4 (.withPrefix shared) []).hang (some b₁) child₁ values₁).getChild b₂ = none := by
    rw [show KeyedNode.getChild _ = _ from hf.children,update_of_ne hne]
    exact congrFun he b₂
  obtain ⟨hs,-⟩ := KeyedNode.hang_becomes ho.wf (by rw [hcn]; exact (show 0+1 < 4 by omega)) hn child₂ values₂
  refine ho.update hs fun c hc => Option.some.inj hc ▸ h₂.of_le (Nat.succ_le_succ (Nat.add_le_add_left ?_ depth))
  rw [show NodeHeader.prefixLen _ = _ from hf.agrees.1]
  exact hle

variable {indexType : ArtIndexType} {name : String} {value : RowId} {c c' : Counters}
variable {leaf : LeafNode} {path : Bytes} {d : Nat} {total : Holdings}

theorem uniform_splitLeaf (hln : leaf.key.length = width) (hkey : key.length = width)
    (ha : SplitsApart key (.leaf leaf,depth)) (hne : leaf.key ≠ key) (value : RowId) :
    Uniform width (splitLeaf leaf key value depth) depth := by
  obtain ⟨hl,hrt⟩ := ha.resolve_left hne
  have hs := length_take_commonLen (key.drop depth) (leaf.key.drop depth)
  rw [splitLeaf,getElem?_eq_getElem hl,getElem?_eq_getElem hrt]
  refine uniform_fork ?_ (.leaf hln) (.leaf hkey) fun heq => ?_
  · rw [hs]
    omega
  · have hb : (key.drop depth)[commonLen (key.drop depth) (leaf.key.drop depth)]? =
        some key[depth + commonLen (key.drop depth) (leaf.key.drop depth)] := by
      rw [getElem?_drop]
      exact getElem?_eq_getElem hrt
    refine getElem?_commonLen_ne hb ?_
    rw [getElem?_drop,getElem?_eq_getElem hl,heq]

theorem Uniform.insertIntoNode (h : Uniform width node depth) (hkey : key.length = width)
    (ha : ∀ visit ∈ visits key node depth, SplitsApart key visit)
    (hok : insertIntoNode indexType name key value node depth c = .ok (node',c')) : Uniform width node' depth := by
  induction h generalizing node' c' with
  | @leaf leaf depth length =>
    rw [Art.insertIntoNode] at hok
    split at hok
    · cases hok
      exact .leaf length
    next hne =>
      cases hok
      exact uniform_splitLeaf length hkey (ha _ (mem_visits_self _ _ _)) hne value
  | @inner n depth wf inside values child ih =>
    have h : Uniform width (.inner n) depth := .inner wf inside values child
    rw [Art.insertIntoNode] at hok
    split at hok
    next hlt =>
      obtain ⟨remaining,oldKey,hr,hold,rfl,-⟩ := splitNode_parts hok
      have hl := length_of_mapM_ok hr
      rw [length_range'] at hl
      have hs := length_take_le (prefixMismatchPos n key depth) (key.drop depth)
      rw [getElem?_eq_getElem (show depth + prefixMismatchPos n key depth < key.length by omega)]
      refine uniform_fork (by omega) (h.reprefix (by omega)) (.leaf hkey) fun heq => prefixByte_ne hlt hold ?_
      rw [getElem?_eq_getElem (show depth + prefixMismatchPos n key depth < key.length by omega),heq]
    next hlt =>
      rw [dif_pos (by rw [hkey]; exact inside)] at hok
      dsimp only at hok
      split at hok
      next old hg =>
        obtain ⟨⟨new,c₁⟩,hch,hok⟩ := bind_eq_ok.mp hok
        cases hok
        have hnew := ih _ old hg
          (fun visit hv => ha visit (mem_visits_child hlt (by rw [hkey]; exact inside) hg hv)) hch
        exact h.update (wf.setChild hg new).1 fun c hc => Option.some.inj hc ▸ hnew
      next hg =>
        obtain ⟨c₁,-,hok⟩ := bind_eq_ok.mp hok
        cases hok
        exact h.update (wf.addChild hg _) fun c hc => Option.some.inj hc ▸ .leaf hkey

theorem Uniform.descend {β : Type} {r : Remover β} (hr : r.KeepsKeys) (h : Uniform width node depth) (hkey : key.length = width)
    {left : Option ArtNode} {removed : β} (hok : r.descend key node depth c = .ok (left,removed,c')) :
    ∀ node' ∈ left, Uniform width node' depth := by
  induction h generalizing left removed c' with
  | @leaf leaf depth length =>
    rw [Remover.descend] at hok
    split at hok
    · obtain ⟨⟨leaf',removed',c₁⟩,hl,hok⟩ := bind_eq_ok.mp hok
      cases hok
      intro node' hn
      obtain ⟨kept,rfl,rfl⟩ := Option.map_eq_some_iff.mp hn
      exact .leaf (hr leaf c kept _ _ hl ▸ length)
    · cases hok
      intro node' hn
      cases hn
      exact .leaf length
  | @inner n depth wf inside values child ih =>
    have h : Uniform width (.inner n) depth := .inner wf inside values child
    rw [Remover.descend] at hok
    split at hok
    · cases hok
      intro node' hn
      cases hn
      exact h
    · rw [dif_pos (by rw [hkey]; exact inside)] at hok
      dsimp only at hok
      split at hok
      next old hg =>
        obtain ⟨⟨new,removed',c₁⟩,hch,hok⟩ := bind_eq_ok.mp hok
        obtain ⟨⟨n',removed'',c₂⟩,hn',hok⟩ := bind_eq_ok.mp hok
        cases hn'
        obtain ⟨c₃,-,hok⟩ := bind_eq_ok.mp hok
        cases hok
        intro node' hn
        cases hn
        have hnew := ih _ old hg hch
        cases new with
        | none => exact h.update (wf.removeChild hg).1.shrink (by rintro _ ⟨⟩)
        | some new => exact h.update (wf.setChild hg new).1.shrink fun c hc => Option.some.inj hc ▸ hnew new rfl
      next hg =>
        obtain ⟨⟨n',removed',c₁⟩,hn',hok⟩ := bind_eq_ok.mp hok
        cases hn'
        obtain ⟨c₂,-,hok⟩ := bind_eq_ok.mp hok
        cases hok
        intro node' hn
        cases hn
        have hsame : n.Becomes n (Function.update n.getChild _ none) := ⟨wf,by rw [← hg,update_eq_self],rfl,rfl,rfl⟩
        exact h.update hsame.shrink (by rintro _ ⟨⟩)

theorem Uniform.of_visit (h : Uniform width node depth) : ∀ visit ∈ visits key node depth, Uniform width visit.1 visit.2 := by
  induction h with
  | @leaf leaf depth length =>
    intro visit hvisit
    rw [visits.eq_def,mem_singleton] at hvisit
    rw [hvisit]
    exact .leaf length
  | @inner n depth wf inside values child ih =>
    intro visit hvisit
    rw [visits.eq_def] at hvisit
    obtain rfl | hvisit := mem_cons.mp hvisit
    · exact .inner wf inside values child
    dsimp only at hvisit
    split at hvisit
    · exact absurd hvisit not_mem_nil
    split at hvisit
    · split at hvisit
      next old hg =>
        exact ih _ old hg visit hvisit
      · exact absurd hvisit not_mem_nil
    · exact absurd hvisit not_mem_nil

theorem Rep.shares_of_visit (h : Rep node path total) (hkey : path <+: key)
    (hvisit : (ArtNode.leaf leaf,d) ∈ visits key node path.length) : key.take d <+: leaf.key := by
  induction h using Rep.inductOn with
  | leaf leaf' path reached =>
    rw [visits.eq_def,mem_singleton] at hvisit
    cases hvisit
    obtain ⟨rest,rfl⟩ := hkey
    rw [take_left]
    exact reached
  | inner n path hidden below total h ih =>
    obtain ⟨rest,rfl⟩ := hkey
    rw [visits.eq_def] at hvisit
    replace hvisit := (mem_cons.mp hvisit).resolve_left nofun
    dsimp only at hvisit
    split at hvisit
    · exact absurd hvisit not_mem_nil
    next hmt =>
      split at hvisit
      next hm =>
        split at hvisit
        next old hg =>
          obtain ⟨tail,rfl⟩ := ((h.mismatch_cases rest).resolve_left fun hl => hmt hl.1).2
          cases tail with
          | nil =>
            rw [append_nil,length_append,h.prefixLen] at hm
            exact absurd hm (Nat.lt_irrefl _)
          | cons b tail =>
            obtain ⟨hp,hln,_,hb⟩ := h.next_byte b tail
            rw [hb] at hg
            rw [← hln] at hvisit
            exact ih b old hg hp hvisit
        · exact absurd hvisit not_mem_nil
      · exact absurd hvisit not_mem_nil

theorem Rep.splitsApart (h : Rep node path total) (hu : Uniform width node path.length)
    (hp : path <+: key) (hkey : key.length = width) : ∀ visit ∈ visits key node path.length, SplitsApart key visit := by
  rintro ⟨visited,d⟩ hv
  cases visited with
  | inner n => trivial
  | leaf leaf =>
    have hl : leaf.key.length = width := by
      cases hu.of_visit _ hv with
      | leaf length => exact length
    have hs : key.take d = leaf.key.take d := by
      have htk := prefix_iff_eq_take.mp (h.shares_of_visit hp hv)
      rw [length_take,hkey,← hl] at htk
      exact htk.trans take_eq_take_min.symm
    by_cases heq : leaf.key = key
    · exact .inl heq
    have hls : commonLen (key.drop d) (leaf.key.drop d) < (key.drop d).length := by
      by_contra ha
      refine heq ?_
      have hd := ((length_le_commonLen_iff _ _).mp (Nat.not_lt.mp ha)).eq_of_length (by rw [length_drop,length_drop,hkey,hl])
      rw [← take_append_drop d key,← take_append_drop d leaf.key,hs,hd]
    rw [length_drop] at hls
    exact .inr ⟨by omega,by omega⟩

theorem Uniform.leaves_ne_nil (h : Uniform width node depth) (hkey : key.length = width)
    (hf : (getRecursive key node depth).isSome = true) : node.leaves ≠ [] := by
  induction h with
  | @leaf leaf depth length => exact ne_nil_of_mem (mem_leaves_leaf leaf)
  | @inner n depth wf inside values child ih =>
    rw [getRecursive] at hf
    split at hf
    · cases hf
    rw [dif_pos (by rw [hkey]; exact inside)] at hf
    split at hf
    next old hg =>
      obtain ⟨leaf,hl⟩ := exists_mem_of_ne_nil _ (ih _ old hg hf)
      exact ne_nil_of_mem (wf.mem_leaves.mpr ⟨_,old,hg,hl⟩)
    · cases hf

theorem Uniform.leaf_of_visit (h : Uniform width node depth)
    (hvisit : (ArtNode.leaf leaf,d) ∈ visits key node depth) : leaf ∈ node.leaves := by
  induction h with
  | @leaf leaf' depth length =>
    rw [visits.eq_def,mem_singleton] at hvisit
    cases hvisit
    exact ArtNode.mem_leaves_leaf _
  | @inner n depth wf inside values child ih =>
    rw [visits.eq_def] at hvisit
    replace hvisit := (mem_cons.mp hvisit).resolve_left nofun
    dsimp only at hvisit
    split at hvisit
    · exact absurd hvisit not_mem_nil
    split at hvisit
    · split at hvisit
      next old hg =>
        exact wf.mem_leaves.mpr ⟨_,old,hg,ih _ old hg hvisit⟩
      · exact absurd hvisit not_mem_nil
    · exact absurd hvisit not_mem_nil

theorem Uniform.of_mem_inners (h : Uniform width node depth) : ∀ m ∈ node.inners, m.header.prefixLen < width ∧ m.header.values = [] := by
  induction h with
  | leaf length =>
    intro m hm
    rw [inners] at hm
    exact absurd hm not_mem_nil
  | inner wf inside values child ih =>
    intro m hm
    obtain rfl | ⟨b,c,hg,hmm⟩ := wf.mem_inners.mp hm
    · exact ⟨by omega,values⟩
    · exact ih b c hg m hmm

theorem Uniform.of_rangeVisit (h : Uniform width node depth) {lower upper : Bound} (keyPrefix : Bytes) :
    ∀ visit ∈ node.rangeVisits lower upper keyPrefix, ∃ d, Uniform width visit.1 d := by
  induction h generalizing keyPrefix with
  | @leaf leaf depth length =>
    intro visit hvisit
    rw [rangeVisits_eq,rangeFrames,flatMap_nil,mem_singleton] at hvisit
    rw [hvisit]
    exact ⟨depth,.leaf length⟩
  | @inner n depth wf inside values child ih =>
    intro visit hvisit
    rw [rangeVisits_eq] at hvisit
    obtain rfl | hvisit := mem_cons.mp hvisit
    · exact ⟨depth,.inner wf inside values child⟩
    obtain ⟨frame,hfr,hvisit⟩ := mem_flatMap.mp hvisit
    unfold rangeFrames at hfr
    dsimp only at hfr
    split at hfr
    · obtain ⟨⟨b,c⟩,he,rfl⟩ := mem_map.mp hfr
      have hm := (orderedChildren_perm n).mem_iff.mp (mem_filter.mp he).1
      exact ih b c ((wf.enumerates.mem b c).mpr hm) _ visit hvisit
    · exact absurd hfr not_mem_nil

end

def Op.key : Op → Bytes
  | .insert key _ => key
  | .remove key => key
  | .removeValue key _ => key

namespace AdaptiveRadixTree

/-- An index with keys of one width that is the multimap, with exact counters. -/
structure HasWidth (width : Nat) (t : AdaptiveRadixTree) (m : Multimap Bytes RowId) : Prop where
  refines : t.Refines m
  uniform : ∀ root ∈ t.root, Uniform width root 0
  counts : t.CountsExactly
  grounded : t.Grounded

section
variable {width : Nat} {t : AdaptiveRadixTree} {m : Multimap Bytes RowId} {op : Op}

variable (h : t.HasWidth width m)
include h

omit h in
theorem HasWidth.new (width : Nat) (name : String) (indexType : ArtIndexType) : (new name indexType).HasWidth width 0 :=
  ⟨.new name indexType,fun _ h => (nomatch h),countsExactly_iff.mpr rfl,grounded_new name indexType⟩

theorem HasWidth.splitsApart {key : Bytes} (hkey : key.length = width) :
    ∀ root ∈ t.root, ∀ visit ∈ visits key root 0, SplitsApart key visit := by
  intro root hr
  have hrp := h.refines.rep
  rw [hr] at hrp
  exact Rep.splitsApart hrp (h.uniform root hr) nil_prefix hkey

variable (hw : width ≤ maxPrefixLen)
include hw

variable (hkey : op.key.length = width)
include hkey

theorem HasWidth.meets : Safe t op ∧ t.Balanced (.op op) := by
  have hi : ∀ {root n d}, t.root = some root → (ArtNode.inner n,d) ∈ visits op.key root 0 →
      n.header.prefixLen ≤ maxPrefixLen ∧ d+n.header.prefixLen < width := by
    intro root n d hr hv
    have hin := ((h.uniform root hr).of_visit _ hv).inside
    exact ⟨by omega,hin⟩
  have hl : ∀ {root leaf d}, t.root = some root → (ArtNode.leaf leaf,d) ∈ visits op.key root 0 → 1 ≤ t.counters.leafCount := by
    intro root leaf d hr hv
    rw [h.counts.leafCount,hr]
    exact length_pos_of_mem ((h.uniform root hr).leaf_of_visit hv)
  cases op with
  | insert key value =>
    refine ⟨.inr (.inr fun root hr visit hv => ?_),.inr fun root hr visit hv => ⟨?_,?_⟩⟩
    · obtain ⟨node,d⟩ := visit
      cases node with
      | inner n => exact .inl (hi hr hv).1
      | leaf leaf =>
        refine .inr ((commonLen_le_left _ _).trans ?_)
        rw [length_drop,show key.length = width from hkey]
        have hs : maxPrefixLen ≤ u32Max := by decide
        omega
    · obtain ⟨node,d⟩ := visit
      cases node with
      | inner n => exact .inl (hi hr hv).1
      | leaf leaf => trivial
    · exact h.splitsApart hkey root hr visit hv
  | remove key =>
    refine ⟨⟨fun hc => ?_,fun root hr visit hv => ?_⟩,fun root hr visit hv => ?_⟩
    · rw [contains,get] at hc
      obtain ⟨root,hr⟩ : ∃ root, t.root = some root := by
        cases hr : t.root with
        | none =>
          rw [hr] at hc
          cases hc
        | some root => exact ⟨root,rfl⟩
      rw [hr] at hc
      rw [h.counts.leafCount,hr]
      exact length_pos_of_ne_nil ((h.uniform root hr).leaves_ne_nil hkey hc)
    · obtain ⟨node,d⟩ := visit
      cases node with
      | inner n => exact .inl (hi hr hv).1
      | leaf leaf => trivial
    · obtain ⟨node,d⟩ := visit
      cases node with
      | inner n =>
        refine .inr (.inl ?_)
        rw [show key.length = width from hkey]
        exact (hi hr hv).2
      | leaf leaf => trivial
  | removeValue key rowId =>
    refine ⟨fun root hr visit hv => ⟨?_,?_⟩,trivial⟩
    · obtain ⟨node,d⟩ := visit
      cases node with
      | inner n => exact .inl (hi hr hv).1
      | leaf leaf => trivial
    · obtain ⟨node,d⟩ := visit
      cases node with
      | inner n => trivial
      | leaf leaf => exact fun _ _ => hl hr hv

omit hw in
theorem HasWidth.uniform_step : ∀ root ∈ (t.step op).root, Uniform width root 0 := by
  cases op with
  | insert key value =>
    change ∀ root ∈ (t.insert key value).1.root, Uniform width root 0
    rw [insert]
    split
    · exact h.uniform
    split
    · exact h.uniform
    split
    · intro root hr
      cases hr
      exact .leaf hkey
    next root hr =>
      split
      · rintro _ ⟨⟩
      next root' c hok =>
        intro root'' hr'
        cases hr'
        exact (h.uniform root hr).insertIntoNode hkey (h.splitsApart hkey root hr) hok
  | remove key =>
    change ∀ root ∈ (t.remove key).1.root, Uniform width root 0
    rw [remove]
    split
    · exact h.uniform
    next root hr =>
      have hl := fun (left : Option ArtNode) (removed : Option RowId) (c : Counters)
          (hok : removeRecursive key root 0 t.counters = .ok (left,removed,c)) =>
        (h.uniform root hr).descend removeAll_keepsKeys hkey hok
      split
      · rintro _ ⟨⟩
      next hok =>
        exact hl _ _ _ hok
      next hok =>
        split
        · exact hl _ _ _ hok
        · split
          · exact hl _ _ _ hok
          · exact hl _ _ _ hok
  | removeValue key rowId =>
    change ∀ root ∈ (t.removeValue key rowId).1.root, Uniform width root 0
    rw [removeValue]
    split
    · exact h.uniform
    next root hr =>
      have hl := fun (left : Option ArtNode) (removed : Bool) (c : Counters)
          (hok : removeValueRecursive key rowId root 0 t.counters = .ok (left,removed,c)) =>
        (h.uniform root hr).descend (removeOne_keepsKeys rowId) hkey hok
      split
      · rintro _ ⟨⟩
      next hok =>
        exact hl _ _ _ hok
      next hok =>
        split
        · exact hl _ _ _ hok
        · exact hl _ _ _ hok

theorem HasWidth.step : (t.step op).HasWidth width (op.apply t.indexType m) := by
  obtain ⟨hs,hb⟩ := h.meets hw hkey
  exact ⟨(h.refines.call hs).1,h.uniform_step hkey,(h.counts.perform h.grounded hb).1,h.grounded.step op⟩

theorem HasWidth.reports : op.Reports t.indexType m (t.call op).2 :=
  (h.refines.call (h.meets hw hkey).1).2

omit hkey

theorem HasWidth.plain : ∀ root ∈ t.root, Plain root := by
  intro root hr n hn
  have hl := ((h.uniform root hr).of_mem_inners n hn).1
  exact .inl (by omega)

theorem HasWidth.scannable (lower upper : Bound) : t.Scannable lower upper := by
  rintro root hr ⟨node,keyPrefix⟩ hv
  obtain ⟨d,hd⟩ := (h.uniform root hr).of_rangeVisit [] _ hv
  cases node with
  | leaf leaf => trivial
  | inner n =>
    have hi := hd.inside
    exact .inl (by omega)

omit hw

omit h

theorem HasWidth.run {ops : List Op} (h : t.HasWidth width m) (hw : width ≤ maxPrefixLen) (hk : ∀ op ∈ ops, op.key.length = width) :
    (Foundation.run AdaptiveRadixTree.step t ops).HasWidth width (Foundation.run (Op.apply t.indexType) m ops) := by
  induction ops generalizing t m with
  | nil => exact h
  | cons op rest ih =>
    obtain ⟨hkey,hrest⟩ := forall_mem_cons.mp hk
    have hn := ih (h.step hw hkey) hrest
    rw [t.indexType_step op] at hn
    exact hn

end
end AdaptiveRadixTree

end HeliosNano.Storage.Art
