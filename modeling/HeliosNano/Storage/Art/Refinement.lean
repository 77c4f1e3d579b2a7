import HeliosNano.Foundation.Runs
import HeliosNano.Storage.Art.Removal

namespace HeliosNano.Storage.Art
open Foundation Foundation.Multimap List AdaptiveRadixTree Counters

section
variable {values : List RowId} {rowId : RowId}

theorem coe_eq_erase {before after values : List RowId} (h : values.Perm (before ++ after)) :
    (values : Multiset RowId) = (↑(before ++ rowId::after) : Multiset RowId).erase rowId := by
  rw [Multiset.coe_eq_coe.mpr h,Multiset.coe_eq_coe.mpr perm_middle,← Multiset.cons_coe,Multiset.erase_cons_head]

theorem swapRemove_idxOf? {pos : Nat} (h : values.idxOf? rowId = some pos) :
    rowId ∈ values ∧ (swapRemove values pos : Multiset RowId) = (values : Multiset RowId).erase rowId := by
  obtain ⟨before,after,rfl,rfl⟩ : ∃ before after, values = before ++ rowId::after ∧ before.length = pos := by
    obtain ⟨hlt,heq,-⟩ := idxOf?_eq_some_iff.mp h
    refine ⟨values.take pos,values.drop (pos+1),?_,?_⟩
    · rw [← heq,getElem_cons_drop,take_append_drop]
    · rw [length_take]
      omega
  exact ⟨mem_append_right _ mem_cons_self,coe_eq_erase (swapRemove_perm before after rowId)⟩

theorem Counters.subSize_ok {c : Counters} {m : Nat} (h : m ≤ c.size) :
    c.subSize m = .ok { c with size := c.size-m } := if_pos h

theorem Counters.subLeaf_ok {c : Counters} (h : 1 ≤ c.leafCount) :
    c.subLeaf = .ok { c with leafCount := c.leafCount-1 } := if_pos h

theorem removeAll_sound : removeAll.Sound
    (fun values left answer => left = 0 ∧ (answer.isSome = true ↔ values ≠ 0) ∧ ∀ v ∈ answer, v ∈ values)
    (fun values => values.card-1) (fun _ => true) (fun _ => false) where
  nothing := ⟨⟨rfl,by simp [removeAll],by simp [removeAll]⟩,rfl⟩
  empty _ _ h := h.1
  atLeaf leaf c hsize _ := by
    have hc : (leaf.allValues : Multiset RowId).card - 1 = leaf.valuesCount-1 := by
      simp [LeafNode.allValues,LeafNode.valuesCount,Nat.add_comm]
    rw [hc] at hsize ⊢
    refine ⟨none,some leaf.primary, { c with size := c.size-(leaf.valuesCount-1) },?_,⟨rfl,?_,?_⟩,by simp,by simp,
      fun _ => rfl,Nat.sub_add_cancel hsize,rfl⟩
    · rw [removeAll]
      dsimp only
      rw [subSize_ok hsize]
      rfl
    · simp [LeafNode.allValues]
    · simp [LeafNode.allValues]
  atInner values c hsize := by
    rw [Multiset.coe_card] at hsize ⊢
    refine ⟨[],values.head?, { c with size := c.size-(values.length-1) },?_,⟨rfl,?_,?_⟩,
      Nat.sub_add_cancel hsize,rfl,rfl⟩
    · rw [removeAll]
      dsimp only
      rw [subSize_ok hsize]
      rfl
    · rw [isSome_head?]
      exact not_congr (Multiset.coe_eq_zero _).symm
    · intro v hv
      exact mem_of_mem_head? hv

theorem LeafNode.removeValue_cases (leaf : LeafNode) (rowId : RowId) :
    (leaf.removeValue rowId = (leaf,true,true) ∧ leaf.allValues = [rowId]) ∨
      (∃ left, leaf.removeValue rowId = (left,true,false) ∧ left.key = leaf.key ∧ rowId ∈ leaf.allValues ∧
        leaf.allValues ≠ [rowId] ∧ (left.allValues : Multiset RowId) = (leaf.allValues : Multiset RowId).erase rowId) ∨
      leaf.removeValue rowId = (leaf,false,false) ∧ rowId ∉ leaf.allValues := by
  obtain ⟨key,primary,extra⟩ := leaf
  unfold LeafNode.removeValue LeafNode.allValues
  dsimp only
  by_cases hp : primary = rowId
  · subst hp
    rw [if_pos rfl]
    cases extra using List.reverseRecOn with
    | nil => exact .inl ⟨rfl,rfl⟩
    | append_singleton front last =>
      refine .inr (.inl ⟨⟨key,last,front⟩,by simp,rfl,mem_cons_self,by simp,?_⟩)
      exact @coe_eq_erase primary [] (front ++ [last]) (last::front) (perm_append_singleton last front).symm
  · rw [if_neg hp]
    cases hps : extra.idxOf? rowId with
    | none =>
      have hno := idxOf?_eq_none_iff.mp hps
      exact .inr (.inr ⟨rfl,by simp [Ne.symm hp,hno]⟩)
    | some pos =>
      obtain ⟨hm,he⟩ := swapRemove_idxOf? hps
      refine .inr (.inl ⟨_,rfl,rfl,mem_cons_of_mem _ hm,by simp [hp],?_⟩)
      dsimp only
      rw [← Multiset.cons_coe,← Multiset.cons_coe,Multiset.erase_cons_tail _ hp,he]

theorem removeOne_sound (rowId : RowId) : (removeOne rowId).Sound
    (fun values left answer => left = values.erase rowId ∧ (answer = true ↔ rowId ∈ values)) (fun _ => 0)
    (fun leaf => decide (leaf.allValues = [rowId])) (fun leaf => decide (leaf.allValues = [rowId])) where
  nothing := ⟨⟨rfl,by simp [removeOne]⟩,rfl⟩
  empty _ _ h := h.1
  atLeaf leaf c _ hcount := by
    rw [removeOne]
    dsimp only
    rcases leaf.removeValue_cases rowId with ⟨heq,ha⟩ | ⟨left,heq,hkey,hm,hne,he⟩ | ⟨heq,hno⟩
    · have hok := subLeaf_ok (hcount (by simp [ha]))
      refine ⟨none,true, { c with leafCount := c.leafCount-1 },?_,?_,by simp,by simp [ha],fun _ => rfl,rfl,rfl⟩
      · rw [heq]
        dsimp only
        rw [hok]
        rfl
      · simp [ha]
    · refine ⟨some left,true,c,by rw [heq],⟨he,by simpa using hm⟩,?_,by simp,by simp [hne],rfl,rfl⟩
      rintro _ ⟨rfl⟩
      exact hkey
    · have hne : leaf.allValues ≠ [rowId] := by
        intro ha
        rw [ha] at hno
        exact hno (mem_singleton_self rowId)
      refine ⟨some leaf,false,c,by rw [heq],⟨?_,by simpa using hno⟩,?_,by simp,by simp [hne],rfl,rfl⟩
      · exact (Multiset.erase_of_notMem (by simpa using hno)).symm
      · rintro _ ⟨rfl⟩
        rfl
  atInner values c _ := by
    rw [removeOne]
    dsimp only
    cases hp : values.idxOf? rowId with
    | none =>
      have hno := idxOf?_eq_none_iff.mp hp
      exact ⟨values,false,c,rfl,⟨(Multiset.erase_of_notMem (by simpa using hno)).symm,by simpa using hno⟩,rfl,rfl,rfl⟩
    | some pos =>
      obtain ⟨hm,he⟩ := swapRemove_idxOf? hp
      exact ⟨swapRemove values pos,true,c,rfl,⟨he,by simpa using hm⟩,rfl,rfl,rfl⟩

end

section
variable {c c' : Counters}

theorem Counters.leafCount_of_subSize {m : Nat} (h : c.subSize m = .ok c') : c'.leafCount = c.leafCount := by
  unfold subSize at h
  split at h
  · cases h
    rfl
  · cases h

theorem Counters.leafCount_of_relayout {old new : Layout} (h : c.relayout old new = .ok c') : c'.leafCount = c.leafCount := by
  unfold relayout at h
  split at h
  · cases h
    rfl
  split at h
  · cases h
    rfl
  · cases h

theorem descend_removeAll_leafCount {key : Bytes} {node : ArtNode} {depth : Nat} {node' : Option ArtNode}
    {answer : Option RowId} (h : removeAll.descend key node depth c = .ok (node',answer,c')) : c'.leafCount = c.leafCount := by
  fun_induction Remover.descend removeAll key node depth c generalizing node' answer c' with
  | case1 depth leaf hkey =>
    obtain ⟨⟨leaf',removed,c₁⟩,hl,h⟩ := bind_eq_ok.mp h
    obtain ⟨c₂,hs,hl⟩ := bind_eq_ok.mp hl
    cases h
    cases hl
    exact leafCount_of_subSize hs
  | case2 depth leaf hkey | case3 depth n hlt =>
    cases h
    rfl
  | case4 depth n hlt hm nextByte finish child =>
    rename_i hg ih
    obtain ⟨⟨child',removed,c₁⟩,hc,h⟩ := bind_eq_ok.mp h
    obtain ⟨⟨n',removed',c₂⟩,hn,h⟩ := bind_eq_ok.mp h
    cases hn
    obtain ⟨c₃,hr,h⟩ := bind_eq_ok.mp h
    cases h
    exact (leafCount_of_relayout hr).trans (ih hc)
  | case5 depth n hlt hm nextByte =>
    obtain ⟨⟨n',removed',c₂⟩,hn,h⟩ := bind_eq_ok.mp h
    cases hn
    obtain ⟨c₃,hr,h⟩ := bind_eq_ok.mp h
    cases h
    exact leafCount_of_relayout hr
  | case6 depth n hlt hm =>
    obtain ⟨⟨values,removed,c₁⟩,hv,h⟩ := bind_eq_ok.mp h
    obtain ⟨c₂,hs,hv⟩ := bind_eq_ok.mp hv
    cases h
    cases hv
    exact leafCount_of_subSize hs

end

/-- The calls that change an index. -/
inductive Op
  | insert (key : Bytes) (value : RowId)
  | remove (key : Bytes)
  | removeValue (key : Bytes) (rowId : RowId)
deriving DecidableEq

inductive Reply
  | inserted (answer : Except Failure Unit)
  | removed (answer : Except Failure (Option RowId))
  | removedValue (answer : Except Failure Bool)

def AdaptiveRadixTree.call (t : AdaptiveRadixTree) : Op → AdaptiveRadixTree × Reply
  | .insert key value => (t.insert key value).map id .inserted
  | .remove key => (t.remove key).map id .removed
  | .removeValue key rowId => (t.removeValue key rowId).map id .removedValue

def AdaptiveRadixTree.step (t : AdaptiveRadixTree) (op : Op) : AdaptiveRadixTree := (t.call op).1

def Op.apply (indexType : ArtIndexType) (m : Multimap Bytes RowId) : Op → Multimap Bytes RowId
  | .insert key value =>
    if key = [] ∧ indexType = .primaryKey ∨ indexType.isUnique ∧ valuesAt m key ≠ 0 then m else (key,value) ::ₘ m
  | .remove key => m.filter fun entry => entry.1 ≠ key
  | .removeValue key rowId => m.erase (key,rowId)

/-- The answer that the multimap before the call calls for. -/
def Op.Reports (indexType : ArtIndexType) (m : Multimap Bytes RowId) : Op → Reply → Prop
  | .insert key _, .inserted answer =>
    if key = [] ∧ indexType = .primaryKey then answer = .error (.error .nullPrimaryKey)
    else if indexType.isUnique ∧ valuesAt m key ≠ 0 then ∃ message, answer = .error (.error (.duplicateKey message))
    else answer = .ok ()
  | .remove key, .removed answer =>
    ∃ removed, answer = .ok removed ∧ (removed.isSome = true ↔ valuesAt m key ≠ 0) ∧ ∀ v ∈ removed, v ∈ valuesAt m key
  | .removeValue key rowId, .removedValue answer => answer = .ok (decide (rowId ∈ valuesAt m key))
  | _, _ => False

def Counted (c : Counters) (takes : LeafNode → Bool) (key : Bytes) : ArtNode × Nat → Prop
  | (.leaf leaf,_) => leaf.key = key → takes leaf = true → 1 ≤ c.leafCount
  | (.inner _,_) => True

instance (c : Counters) (takes : LeafNode → Bool) (key : Bytes) (visit : ArtNode × Nat) :
    Decidable (Counted c takes key visit) :=
  match visit with
  | (.leaf leaf,_) => inferInstanceAs (Decidable (leaf.key = key → takes leaf = true → 1 ≤ c.leafCount))
  | (.inner _,_) => .isTrue trivial

/-- A call that the tree carries out as a multimap: an insertion whose way down is open, and a
removal that spares the prefixes and finds the leaf counted. -/
def Safe (t : AdaptiveRadixTree) : Op → Prop
  | .insert key _ => key = [] ∧ t.indexType = .primaryKey ∨ t.indexType.isUnique ∧ t.contains key = true ∨
      ∀ root ∈ t.root, ∀ visit ∈ visits key root 0, Admits key visit
  | .remove key => (t.contains key = true → 1 ≤ t.counters.leafCount) ∧
      ∀ root ∈ t.root, ∀ visit ∈ visits key root 0, Spares (fun _ => true) key visit
  | .removeValue key rowId => ∀ root ∈ t.root, ∀ visit ∈ visits key root 0,
      Spares (fun leaf => decide (leaf.allValues = [rowId])) key visit ∧
        Counted t.counters (fun leaf => decide (leaf.allValues = [rowId])) key visit

instance (t : AdaptiveRadixTree) (op : Op) : Decidable (Safe t op) :=
  match op with
  | .insert _ _ => instDecidableOr
  | .remove _ => instDecidableAnd
  | .removeValue _ _ => Option.decidableForallMem _

/-- The tree holds the entries of the multimap. -/
structure AdaptiveRadixTree.Refines (t : AdaptiveRadixTree) (m : Multimap Bytes RowId) : Prop where
  rep : RepAt t.root [] (m,t.counters.nodeCount)
  size : t.counters.size = m.card

namespace AdaptiveRadixTree.Refines
variable {t : AdaptiveRadixTree} {m : Multimap Bytes RowId} {key : Bytes}

theorem new (name : String) (indexType : ArtIndexType) : (new name indexType).Refines 0 := ⟨rfl,rfl⟩

theorem getAll (h : t.Refines m) (key : Bytes) : (t.getAll key : Multiset RowId) = valuesAt m key := by
  have hr := h.rep
  rw [AdaptiveRadixTree.getAll]
  cases hrt : t.root with
  | none =>
    rw [hrt] at hr
    obtain ⟨rfl,-⟩ := Prod.mk.inj (show (m,t.counters.nodeCount) = (0,0) from hr)
    rfl
  | some root =>
    rw [hrt] at hr
    exact Rep.getAllRecursive hr nil_prefix

theorem get_eq_head (t : AdaptiveRadixTree) (key : Bytes) : t.get key = (t.getAll key).head? := by
  rw [AdaptiveRadixTree.get,AdaptiveRadixTree.getAll]
  cases t.root with
  | none => rfl
  | some root => exact getRecursive_eq_head key root 0

variable (h : t.Refines m)
include h

theorem isSome_get (key : Bytes) : (t.get key).isSome = true ↔ valuesAt m key ≠ 0 := by
  rw [get_eq_head,isSome_head?,← h.getAll key]
  exact not_congr (Multiset.coe_eq_zero _).symm

variable {rowId value : RowId}

theorem mem_of_get {key : Bytes} (hg : t.get key = some rowId) : rowId ∈ valuesAt m key := by
  rw [get_eq_head] at hg
  rw [← h.getAll key]
  exact mem_of_head? hg

theorem insert_new (hnl : ¬(key = [] ∧ t.indexType = .primaryKey)) (hnew : ¬(t.indexType.isUnique ∧ valuesAt m key ≠ 0))
    (hopen : ∀ root ∈ t.root, ∀ visit ∈ visits key root 0, Admits key visit) :
    ∃ t', t.insert key value = (t',.ok ()) ∧ t'.Refines ((key,value) ::ₘ m) ∧ t'.indexType = t.indexType ∧
      (∀ k, t'.getAll k = t.getAll k ++ if k = key then [value] else []) ∧
      ((∀ root ∈ t.root, Leafy root) → ∀ root ∈ t'.root, Leafy root) := by
  have hd : ¬(t.indexType.isUnique ∧ t.contains key = true) := fun hd => hnew ⟨hd.1,(h.isSome_get key).mp hd.2⟩
  rw [AdaptiveRadixTree.insert,if_neg hnl,if_neg hd]
  have hrp := h.rep
  have hs := h.size
  cases hr : t.root with
  | none =>
    rw [hr] at hrp
    obtain ⟨rfl,hn⟩ := Prod.mk.inj (show (m,t.counters.nodeCount) = (0,0) from hrp)
    refine ⟨_,rfl,⟨?_,rfl⟩,rfl,fun k => ?_,fun _ root hnew => ?_⟩
    · dsimp only
      rw [hn]
      exact @Rep.leaf (.new key value) [] nil_prefix
    · rw [AdaptiveRadixTree.getAll,AdaptiveRadixTree.getAll,hr]
      dsimp only
      rw [getAllRecursive]
      exact if_congr eq_comm rfl rfl
    · cases hnew
      exact leafy_leaf _
  | some root =>
    rw [hr] at hrp
    obtain ⟨root',total',c',hok,hr',had,hn,hsame,-,ha⟩ := Rep.insertIntoNode_ok t.name value hrp
      nil_prefix (hopen root hr) (fun hu => not_not.mp fun hno => hnew ⟨hu,hno⟩)
      (add_zero _).symm
    rw [length_nil] at hok
    simp only [hok]
    refine ⟨_,rfl,⟨?_,?_⟩,rfl,fun k => ?_,fun hl root hnew => ?_⟩
    · have htt : total' = ((key,value) ::ₘ m,c'.nodeCount) := by
        refine Prod.ext (had.trans ?_) (by rw [hn,add_zero])
        exact (add_comm _ _).trans (Multiset.singleton_add _ _)
      rw [htt] at hr'
      exact hr'
    · rw [Multiset.card_cons,← hs,← hsame]
    · rw [AdaptiveRadixTree.getAll,AdaptiveRadixTree.getAll,hr]
      exact ha.lookups k nil_prefix
    · cases hnew
      exact ha.leafy (hl _ rfl)

theorem insert (hs : Safe t (.insert key value)) : (t.insert key value).1.Refines (Op.apply t.indexType m (.insert key value)) ∧
      Op.Reports t.indexType m (.insert key value) (.inserted (t.insert key value).2) := by
  rw [Op.apply,Op.Reports]
  by_cases hn : key = [] ∧ t.indexType = .primaryKey
  · rw [AdaptiveRadixTree.insert,if_pos hn,if_pos hn,if_pos (.inl hn)]
    exact ⟨h,rfl⟩
  have hp : t.indexType.isUnique ∧ t.contains key = true ↔ t.indexType.isUnique ∧ valuesAt m key ≠ 0 :=
    and_congr Iff.rfl (h.isSome_get key)
  rw [if_neg hn]
  by_cases hd : t.indexType.isUnique ∧ t.contains key = true
  · rw [AdaptiveRadixTree.insert,if_neg hn,if_pos hd,if_pos (hp.mp hd),if_pos (.inr (hp.mp hd))]
    exact ⟨h,_,rfl⟩
  have hnew : ¬(t.indexType.isUnique ∧ valuesAt m key ≠ 0) := fun hno => hd (hp.mpr hno)
  obtain ⟨t',heq,hr,-⟩ := h.insert_new hn hnew ((hs.resolve_left hn).resolve_left hd)
  rw [heq,if_neg hnew,if_neg (not_or.mpr ⟨hn,hnew⟩)]
  exact ⟨hr,rfl⟩

theorem remove (hsf : Safe t (.remove key)) : (t.remove key).1.Refines (Op.apply t.indexType m (.remove key)) ∧
      Op.Reports t.indexType m (.remove key) (.removed (t.remove key).2) := by
  rw [AdaptiveRadixTree.remove,Op.apply,Op.Reports]
  have hrp := h.rep
  have hsz := h.size
  have hpr := h.isSome_get key
  cases hr : t.root with
  | none =>
    rw [hr] at hrp
    obtain ⟨rfl,hnd⟩ := Prod.mk.inj (show (m,t.counters.nodeCount) = (0,0) from hrp)
    exact ⟨⟨by rw [hr]; exact hrp,hsz⟩,none,rfl,by simp,by simp⟩
  | some root =>
    rw [hr] at hrp
    have hc := card_valuesAt_le m key
    obtain ⟨root',answer,c',total',hok,hrm⟩ := Rep.descend removeAll_sound hrp nil_prefix
      (hsf.2 root hr) (by simp) (add_zero _).symm (by dsimp only; omega)
    obtain ⟨_,⟨rfl,hs,hm⟩,htt⟩ := hrm.values
    have hlf : total' = (m.filter fun entry => entry.1 ≠ key,c'.nodeCount) := by
      refine Prod.ext (add_right_cancel (htt.trans ?_)) (by rw [hrm.nodes,add_zero])
      rw [entries_zero,add_zero,filter_ne_add_entries]
    have hrep' := hrm.rep
    have hsize' := hrm.size
    have hp := congrArg Multiset.card (filter_ne_add_entries m key)
    rw [hlf] at hrep'
    rw [Multiset.card_add,card_entries] at hp
    dsimp only at hsize' hs hm
    rw [length_nil] at hok
    simp only [removeRecursive,hok]
    cases answer with
    | none =>
      have hn : valuesAt m key = 0 := by simpa using hs
      rw [hn,Multiset.card_zero] at hsize' hp
      exact ⟨⟨hrep',by dsimp only; omega⟩,none,rfl,hs,hm⟩
    | some removed =>
      have hps : 1 ≤ (valuesAt m key).card := Multiset.card_pos.mpr (hs.mp rfl)
      have hl : 1 ≤ c'.leafCount := by
        rw [descend_removeAll_leafCount hok]
        exact hsf.1 (hpr.mpr (hs.mp rfl))
      simp only [subSize_ok (show 1 ≤ c'.size by omega),subLeaf_ok (c := { c' with size := c'.size-1 }) hl]
      exact ⟨⟨hrep',by dsimp only; omega⟩,some removed,rfl,hs,hm⟩

theorem removeValue (hs : Safe t (.removeValue key rowId)) :
    (t.removeValue key rowId).1.Refines (Op.apply t.indexType m (.removeValue key rowId)) ∧
      Op.Reports t.indexType m (.removeValue key rowId) (.removedValue (t.removeValue key rowId).2) := by
  rw [AdaptiveRadixTree.removeValue,Op.apply,Op.Reports]
  have hrp := h.rep
  have hsz := h.size
  cases hr : t.root with
  | none =>
    rw [hr] at hrp
    obtain ⟨rfl,hn⟩ := Prod.mk.inj (show (m,t.counters.nodeCount) = (0,0) from hrp)
    exact ⟨⟨by rw [hr]; exact hrp,hsz⟩,by simp⟩
  | some root =>
    rw [hr] at hrp
    obtain ⟨root',answer,c',total',hok,hrm⟩ := Rep.descend (removeOne_sound rowId) hrp nil_prefix
      (fun visit hv => (hs root hr visit hv).1)
      (fun leaf depth hv => (hs root hr _ hv).2) (add_zero _).symm (Nat.zero_le _)
    obtain ⟨_,⟨rfl,hf⟩,htt⟩ := hrm.values
    have hl : total' = (m.erase (key,rowId),c'.nodeCount) := by
      refine Prod.ext (add_right_cancel (htt.trans ?_)) (by rw [hrm.nodes,add_zero])
      exact (add_entries_erase m key rowId).symm
    have hrep' := hrm.rep
    have hsize' := hrm.size
    rw [hl] at hrep'
    dsimp only at hsize' hf
    rw [length_nil] at hok
    simp only [removeValueRecursive,hok]
    cases answer with
    | false =>
      have hno : rowId ∉ valuesAt m key := by simpa using hf
      refine ⟨⟨hrep',?_⟩,by simp [hno]⟩
      rw [Multiset.erase_of_notMem fun he => hno (mem_valuesAt.mpr he)]
      dsimp only
      omega
    | true =>
      have hy : rowId ∈ valuesAt m key := hf.mp rfl
      have hp := Multiset.card_pos_iff_exists_mem.mpr ⟨_,mem_valuesAt.mp hy⟩
      simp only [subSize_ok (show 1 ≤ c'.size by omega)]
      refine ⟨⟨hrep',?_⟩,by simp [hy]⟩
      rw [Multiset.card_erase_of_mem (mem_valuesAt.mp hy),Nat.pred_eq_sub_one]
      dsimp only
      omega

theorem call {op : Op} (hs : Safe t op) :
    (t.step op).Refines (op.apply t.indexType m) ∧ op.Reports t.indexType m (t.call op).2 := by
  cases op with
  | insert key value => exact h.insert hs
  | remove key => exact h.remove hs
  | removeValue key rowId => exact h.removeValue hs

end AdaptiveRadixTree.Refines

theorem AdaptiveRadixTree.indexType_step (t : AdaptiveRadixTree) (op : Op) : (t.step op).indexType = t.indexType := by
  cases op with
  | insert key value =>
    change (t.insert key value).1.indexType = t.indexType
    rw [insert]
    repeat' split
    all_goals rfl
  | remove key =>
    change (t.remove key).1.indexType = t.indexType
    rw [remove]
    repeat' split
    all_goals rfl
  | removeValue key rowId =>
    change (t.removeValue key rowId).1.indexType = t.indexType
    rw [removeValue]
    repeat' split
    all_goals rfl

theorem AdaptiveRadixTree.Refines.run {t : AdaptiveRadixTree} {m : Multimap Bytes RowId} {ops : List Op}
    (h : t.Refines m) (hs : Guarded step Safe t ops) :
    (Foundation.run step t ops).Refines (Foundation.run (Op.apply t.indexType) m ops) ∧
      (Foundation.run step t ops).indexType = t.indexType := by
  induction ops generalizing t m with
  | nil => exact ⟨h,rfl⟩
  | cons op rest ih =>
    obtain ⟨hrest,hty⟩ := ih (h.call hs.1).1 hs.2
    rw [t.indexType_step op] at hrest hty
    exact ⟨hrest,hty⟩

/-- Along a run of safe calls from a new index the tree is the multimap: lookups find its row
ids, and every call reports what it does to it. -/
theorem art_refines_multimap (name : String) (indexType : ArtIndexType) {ops before rest : List Op}
    (hsafe : Guarded AdaptiveRadixTree.step Safe (AdaptiveRadixTree.new name indexType) ops)
    (hops : ops = before ++ rest) :
    let t := run AdaptiveRadixTree.step (AdaptiveRadixTree.new name indexType) before
    let m := run (Op.apply indexType) 0 before
    (∀ key, (t.getAll key : Multiset RowId) = valuesAt m key ∧ ((t.get key).isSome = true ↔ valuesAt m key ≠ 0)) ∧
      ∀ op ∈ rest.head?, op.Reports indexType m (t.call op).2 := by
  intro t m
  subst hops
  obtain ⟨hbefore,hrest⟩ := (guarded_append _).mp hsafe
  obtain ⟨h,htype⟩ := (AdaptiveRadixTree.Refines.new name indexType).run hbefore
  refine ⟨fun key => ⟨h.getAll key,h.isSome_get key⟩,fun op hop => ?_⟩
  obtain ⟨after,rfl⟩ := head?_eq_some_iff.mp hop
  have hreports := (h.call hrest.1).2
  rw [htype] at hreports
  exact hreports

/-- Eleven bytes, one more than a header stores. -/
def longKey : Bytes := List.replicate 11 7

theorem art_refines_multimap_longKey :
    let ops := [.insert longKey 1,.insert (longKey ++ [1]) 2,.insert (longKey ++ [2]) 3,.remove (longKey ++ [1])]
    let t := run AdaptiveRadixTree.step (AdaptiveRadixTree.new "idx" .unique) ops
    Guarded AdaptiveRadixTree.step Safe (AdaptiveRadixTree.new "idx" .unique) (ops ++ [.insert longKey 4]) ∧
      ∃ message, (t.insert longKey 4).2 = .error (.error (.duplicateKey message)) := by
  intro ops t
  have hsafe : Guarded AdaptiveRadixTree.step Safe (AdaptiveRadixTree.new "idx" .unique) (ops ++ [.insert longKey 4]) := by
    decide +kernel
  refine ⟨hsafe,?_⟩
  have hreports := (art_refines_multimap "idx" .unique hsafe rfl).2 _ rfl
  exact hreports

/-- Without its last leaf a long prefix hides the key that ends at it, and an insertion that
meets the prefix fails. -/
theorem last_leaf_hides_key :
    let ops := [.insert longKey 1,.insert (longKey ++ [1]) 2,.remove (longKey ++ [1])]
    let t := run AdaptiveRadixTree.step (AdaptiveRadixTree.new "idx" .manual) ops
    (t.getAll longKey : Multiset RowId) ≠ valuesAt (run (Op.apply .manual) 0 ops) longKey ∧
      (t.insert longKey 3).2 = .error (.error (.internal "Cannot recover hidden ART prefix byte")) := by
  decide +kernel

end HeliosNano.Storage.Art
