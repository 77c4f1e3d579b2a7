import HeliosNano.Storage.Art.Refinement

namespace HeliosNano.Storage.Art
open Foundation Foundation.Multimap List ArtNode

/-- The smaller layouts keep their children in the order of insertion and are sorted first. -/
def Inner.sortedChildren (n : Inner ArtNode) : List (Byte × ArtNode) :=
  match n with
  | .node4 _ | .node16 _ => n.iterChildren.insertionSort fun a b => a.1 ≤ b.1
  | .node48 _ | .node256 _ => n.iterChildren

theorem Inner.sortedChildren_perm (n : Inner ArtNode) : n.sortedChildren.Perm n.iterChildren := by
  cases n with
  | node4 n | node16 n => exact perm_insertionSort _ _
  | node48 n | node256 n => exact List.Perm.refl _

namespace ArtNode

variable (keyPrefix : Bytes)

def nodeKey (n : Inner ArtNode) : Bytes := keyPrefix ++ n.header.getPrefix

def ownItems : ArtNode → List (Bytes × RowId)
  | .leaf node => node.allValues.map fun v => (node.key,v)
  | .inner n => n.header.values.map fun v => (nodeKey keyPrefix n,v)

def frames : ArtNode → List (ArtNode × Bytes)
  | .leaf _ => []
  | .inner n => n.sortedChildren.map fun entry => (entry.2,nodeKey keyPrefix n ++ [entry.1])

def weight : ArtNode → Nat
  | .leaf node => node.allValues.length+1
  | .inner n => n.header.values.length+1 + (n.iterChildren.attach.map fun entry => weight entry.1.2).sum
termination_by node => sizeOf node
decreasing_by exact sizeOf_child_lt entry.2

/-- The entries at and below a node, depth first. -/
def traverse (keyPrefix : Bytes) (node : ArtNode) : List (Bytes × RowId) :=
  node.ownItems keyPrefix ++ match node with
    | .leaf _ => []
    | .inner n => n.sortedChildren.attach.flatMap fun entry => traverse (nodeKey keyPrefix n ++ [entry.1.1]) entry.1.2
termination_by sizeOf node
decreasing_by exact sizeOf_child_lt (n.sortedChildren_perm.mem_iff.mp entry.2)

theorem traverse_eq (node : ArtNode) : node.traverse keyPrefix = node.ownItems keyPrefix ++
      (node.frames keyPrefix).flatMap fun frame => frame.1.traverse frame.2 := by
  rw [traverse.eq_def]
  cases node with
  | leaf leaf => rfl
  | inner n =>
    rw [frames,flatMap_map]
    conv_rhs => rw [← attach_map_subtype_val n.sortedChildren,flatMap_map]

end ArtNode

structure ArtIterator where
  stack : List (ArtNode × Bytes)
  pendingValues : List (Bytes × RowId)

namespace ArtIterator

def stackWeight (stack : List (ArtNode × Bytes)) : Nat := (stack.map fun frame => frame.1.weight).sum

theorem stackWeight_append (a b : List (ArtNode × Bytes)) : stackWeight (a ++ b) = stackWeight a + stackWeight b := by
  rw [stackWeight,map_append,sum_append]
  rfl

theorem weight_eq (keyPrefix : Bytes) (node : ArtNode) :
    node.weight = (node.ownItems keyPrefix).length + 1 + stackWeight (node.frames keyPrefix) := by
  rw [weight.eq_def]
  cases node with
  | leaf leaf => simp [ownItems,frames,stackWeight]
  | inner n =>
    have hs : (n.iterChildren.attach.map fun entry => entry.1.2.weight).sum =
        stackWeight ((inner n).frames keyPrefix) := by
      rw [stackWeight,frames,map_map]
      conv_lhs => rw [attach_map_val (l := n.iterChildren) (f := fun entry => entry.2.weight)]
      exact ((n.sortedChildren_perm.map _).sum_eq).symm
    simp only [ownItems,length_map]
    rw [hs]

/-- The loop of `next` over the stack. -/
def popStack : List (ArtNode × Bytes) → Option ((Bytes × RowId) × ArtIterator)
  | [] => none
  | (node,keyPrefix)::stack =>
    match node.ownItems keyPrefix with
    | item::pending => some (item,⟨node.frames keyPrefix ++ stack,pending⟩)
    | [] => popStack (node.frames keyPrefix ++ stack)
termination_by stack => stackWeight stack
decreasing_by
  have hcons : stackWeight ((node,keyPrefix)::stack) = node.weight + stackWeight stack := by
    rw [stackWeight,map_cons,sum_cons]
    rfl
  rw [stackWeight_append,hcons,weight_eq keyPrefix]
  omega

def next (it : ArtIterator) : Option ((Bytes × RowId) × ArtIterator) :=
  match it.pendingValues with
  | item::pending => some (item,{ it with pendingValues := pending })
  | [] => popStack it.stack

variable (it : ArtIterator)

/-- What is still to come. -/
def items : List (Bytes × RowId) :=
  it.pendingValues ++ it.stack.flatMap fun frame => frame.1.traverse frame.2

def weight : Nat := it.pendingValues.length + stackWeight it.stack

theorem stackWeight_cons (node : ArtNode) (keyPrefix : Bytes) (stack : List (ArtNode × Bytes)) :
    stackWeight ((node,keyPrefix)::stack) =
      (node.ownItems keyPrefix).length + 1 + stackWeight (node.frames keyPrefix ++ stack) := by
  rw [stackWeight_append,← Nat.add_assoc,← weight_eq,stackWeight,map_cons,sum_cons]
  rfl

theorem popStack_items (stack : List (ArtNode × Bytes)) : (popStack stack = none → items ⟨stack,[]⟩ = []) ∧
      ∀ item it, popStack stack = some (item,it) → items ⟨stack,[]⟩ = item::it.items ∧ it.weight < stackWeight stack := by
  fun_induction popStack stack with
  | case1 => exact ⟨fun _ => rfl,nofun⟩
  | case2 node keyPrefix stack item pending ho =>
    refine ⟨fun h => (nomatch h),?_⟩
    rintro _ _ ⟨rfl,rfl⟩
    constructor
    · simp [items,node.traverse_eq keyPrefix,ho]
    · rw [stackWeight_cons,ho,weight,length_cons]
      dsimp only
      omega
  | case3 node keyPrefix stack ho ih =>
    have hits : items ⟨(node,keyPrefix)::stack,[]⟩ = items ⟨node.frames keyPrefix ++ stack,[]⟩ := by
      simp [items,node.traverse_eq keyPrefix,ho]
    have hw := stackWeight_cons node keyPrefix stack
    rw [hits]
    refine ⟨ih.1,fun item it h => ?_⟩
    obtain ⟨hn,hl⟩ := ih.2 item it h
    exact ⟨hn,by omega⟩

theorem next_items : (it.next = none → it.items = []) ∧
      ∀ item it', it.next = some (item,it') → it.items = item::it'.items ∧ it'.weight < it.weight := by
  obtain ⟨stack,pending⟩ := it
  cases pending with
  | nil =>
    obtain ⟨hn,hs⟩ := popStack_items stack
    refine ⟨hn,fun item it' h => ?_⟩
    obtain ⟨hits,hl⟩ := hs item it' h
    exact ⟨hits,Nat.lt_of_lt_of_eq hl (Nat.zero_add _).symm⟩
  | cons item pending =>
    refine ⟨fun h => (nomatch h),?_⟩
    rintro _ _ ⟨rfl,rfl⟩
    exact ⟨rfl,by simp [weight]⟩

/-- The entries that a `for` loop over the iterator sees. -/
def collect (it : ArtIterator) : List (Bytes × RowId) :=
  match _hnext : it.next with
  | none => []
  | some (item,it') => item::it'.collect
termination_by it.weight
decreasing_by exact (it.next_items.2 item it' _hnext).2

theorem collect_eq_items : it.collect = it.items := by
  fun_induction collect it with
  | case1 it h => exact (it.next_items.1 h).symm
  | case2 it item it' h ih => rw [ih,(it.next_items.2 item it' h).1]

end ArtIterator

def AdaptiveRadixTree.iter (t : AdaptiveRadixTree) : ArtIterator := ⟨t.root.toList.map fun root => (root,[]),[]⟩

theorem AdaptiveRadixTree.collect_iter (t : AdaptiveRadixTree) :
    t.iter.collect = t.root.elim [] fun root => root.traverse [] := by
  rw [ArtIterator.collect_eq_items]
  cases hr : t.root with
  | none | some root => simp [AdaptiveRadixTree.iter,ArtIterator.items,hr]

/-- No key ends at an inner node at or below a prefix that is longer than its stored bytes. -/
def Plain (node : ArtNode) : Prop :=
  ∀ n ∈ node.inners, n.header.prefixLen ≤ maxPrefixLen ∨ ∀ m ∈ (inner n).inners, m.header.values = []
deriving Decidable

section
variable {node : ArtNode} {n : Inner ArtNode} {path hidden : Bytes} {below : Byte → Holdings} {total : Holdings}
variable {α : Type} {g : Byte → Option α} {entries : List (Byte × α)}

theorem Enumerates.of_perm {entries' : List (Byte × α)}
    (h : Enumerates entries g) (hp : entries'.Perm entries) : Enumerates entries' g := by
  refine ⟨(hp.map _).nodup_iff.mpr h.distinct,fun b child => ?_⟩
  rw [h.mem,hp.mem_iff]

theorem Enumerates.flatMap_single {β : Type}
    (h : Enumerates entries g) {f : Byte × α → List β} {b : Byte} (hf : ∀ entry ∈ entries, entry.1 ≠ b → f entry = []) :
    entries.flatMap f = (g b).elim [] fun child => f (b,child) := by
  cases hg : g b with
  | none =>
    have hno := h.eq_none_iff.mp hg
    refine flatMap_eq_nil_iff.mpr fun entry hm => hf entry hm fun heq => hno ?_
    exact heq ▸ mem_map_of_mem hm
  | some child =>
    obtain ⟨before,after,rfl,hb,ha⟩ := exists_split_of_nodup_keys h.distinct ((h.mem _ _).mp hg)
    have hl : before.flatMap f = [] := flatMap_eq_nil_iff.mpr fun entry hm =>
      hf entry (mem_append_left _ hm) (hb entry hm)
    have hrt : after.flatMap f = [] := flatMap_eq_nil_iff.mpr fun entry hm =>
      hf entry (mem_append_right _ (mem_cons_of_mem _ hm)) (ha entry hm)
    rw [flatMap_append,flatMap_cons,hl,hrt,nil_append,append_nil]
    rfl

/-- What the node and its children yield for a key, each of them below its path. -/
def yields (n : Inner ArtNode) (path hidden k : Bytes) : List RowId :=
  (if k = path ++ hidden then n.header.values else []) ++ n.sortedChildren.flatMap fun entry =>
    if path ++ hidden ++ [entry.1] <+: k then getAllRecursive k entry.2 (path ++ hidden ++ [entry.1]).length else []

theorem yields_elsewhere {k : Bytes} (hno : ¬path ++ hidden <+: k) : yields n path hidden k = [] := by
  rw [yields,if_neg fun heq : k = path ++ hidden => hno (heq ▸ prefix_rfl),nil_append]
  refine flatMap_eq_nil_iff.mpr fun entry _ => if_neg fun hp => hno ?_
  exact (prefix_append _ _).trans hp

theorem InnerRep.yields_of_empty (h : InnerRep n path hidden below total) (hz : total.1 = 0) (k : Bytes) :
    yields n path hidden k = [] := by
  have he : ∀ k, valuesAt total.1 k = 0 := fun k => by rw [hz,valuesAt_zero]
  have hv : n.header.values = [] := by
    rw [← Multiset.coe_eq_zero,← h.valuesAt_end]
    exact he _
  rw [yields,hv,ite_self,nil_append]
  refine flatMap_eq_nil_iff.mpr fun entry hen => ?_
  obtain ⟨b,child⟩ := entry
  have hg := (h.wf.enumerates.mem b child).mpr (n.sortedChildren_perm.mem_iff.mp hen)
  by_cases hp : path ++ hidden ++ [b] <+: k
  · rw [if_pos hp,← Multiset.coe_eq_zero,(h.child b child hg).getAllRecursive hp,← h.valuesAt_child hp]
    exact he k
  · exact if_neg hp

theorem InnerRep.yields_eq (h : InnerRep n path hidden below total) (k : Bytes) :
    yields n path hidden k = if path <+: k then getAllRecursive k (.inner n) path.length else [] := by
  by_cases hpt : path <+: k
  · obtain ⟨rest,rfl⟩ := hpt
    rw [if_pos (prefix_append path rest)]
    by_cases hr : hidden.length ≤ maxPrefixLen ∨ (inner n).leaves ≠ []
    · by_cases hp : hidden <+: rest
      · obtain ⟨tail,rfl⟩ := hp
        cases tail with
        | nil =>
          rw [append_nil,h.getAll_end hr,yields,if_pos rfl]
          have hn : (n.sortedChildren.flatMap fun entry => if path ++ hidden ++ [entry.1] <+: path ++ hidden then
              getAllRecursive (path ++ hidden) entry.2 (path ++ hidden ++ [entry.1]).length else []) = [] :=
            flatMap_eq_nil_iff.mpr fun entry _ => if_neg fun hp => absurd hp.length_le (by simp)
          rw [hn,append_nil]
        | cons b tail =>
          have hkey := (h.next_byte b tail).1
          have hne : path ++ (hidden ++ b::tail) ≠ path ++ hidden := fun heq => absurd (congrArg List.length heq) (by simp)
          rw [h.getAll_child hr,yields,if_neg hne,nil_append]
          rw [(h.wf.enumerates.of_perm n.sortedChildren_perm).flatMap_single (b := b)]
          · cases n.getChild b with
            | none => rfl
            | some child => exact if_pos hkey
          · intro entry _ ho
            refine if_neg fun hp => ho ?_
            exact Option.some.inj ((getElem?_of_snoc hp).symm.trans (getElem?_of_snoc hkey))
      · rw [h.getAll_elsewhere hr hp,yields_elsewhere fun hpr => hp ((prefix_append_right_inj path).mp hpr)]
    · rw [not_or,Nat.not_le,not_not] at hr
      have hz : total.1 = 0 := (h.recoverable.resolve_left (Nat.not_le.mpr hr.1)).resolve_left fun hno => hno hr.2
      rw [h.yields_of_empty hz,getAllRecursive,if_pos (h.mismatch_of_lost hr.1 hr.2 _ _)]
  · rw [if_neg hpt,yields_elsewhere fun hp => hpt ((prefix_append _ _).trans hp)]

theorem Rep.listAt_traverse (h : Rep node path total) {keyPrefix : Bytes}
    (hp : keyPrefix = path ∧ Plain node ∨ ∀ m ∈ node.inners, m.header.values = []) (k : Bytes) :
    listAt (node.traverse keyPrefix) k = if path <+: k then Art.getAllRecursive k node path.length else [] := by
  induction h using Rep.inductOn generalizing keyPrefix with
  | leaf leaf path reached =>
    rw [ArtNode.traverse.eq_def,append_nil,ArtNode.ownItems,listAt_map_mk,Art.getAllRecursive]
    by_cases hk : k = leaf.key
    · rw [if_pos hk,if_pos (hk ▸ reached),if_pos hk.symm]
    · rw [if_neg hk,if_neg (Ne.symm hk),ite_self]
  | inner n path hidden below total h ih =>
    have hs : n ∈ (ArtNode.inner n).inners := h.wf.mem_inners.mpr (.inl rfl)
    have hb : ∀ b child, n.getChild b = some child → ∀ m ∈ child.inners, m ∈ (ArtNode.inner n).inners :=
      fun b child hg m hm => h.wf.mem_inners.mpr (.inr ⟨b,child,hg,hm⟩)
    -- Either the key of the node is rebuilt in full, or it is not needed here and below.
    have hc : ArtNode.nodeKey keyPrefix n = path ++ hidden ∧ Plain (.inner n) ∨
        ∀ m ∈ (ArtNode.inner n).inners, m.header.values = [] := by
      obtain ⟨rfl,hp⟩ | hempty := hp
      · refine (hp n hs).imp (fun hsh => ⟨?_,hp⟩) id
        rw [ArtNode.nodeKey,h.stored,take_of_length_le (h.prefixLen ▸ hsh)]
      · exact .inr hempty
    have ho : listAt ((ArtNode.inner n).ownItems keyPrefix) k = if k = path ++ hidden then n.header.values else [] := by
      rw [ArtNode.ownItems,listAt_map_mk]
      obtain ⟨hkey,-⟩ | hempty := hc
      · rw [hkey]
      · rw [hempty n hs,ite_self,ite_self]
    rw [ArtNode.traverse_eq,listAt_append,ho,← h.yields_eq,yields,ArtNode.frames,flatMap_map,listAt_flatMap]
    refine congrArg (_ ++ ·) (flatMap_congr fun entry he => ?_)
    obtain ⟨b,child⟩ := entry
    have hg := (h.wf.enumerates.mem b child).mpr (n.sortedChildren_perm.mem_iff.mp he)
    refine ih b child hg ?_
    refine hc.imp ?_ fun hempty m hm => hempty m (hb b child hg m hm)
    rintro ⟨hkey,hp⟩
    exact ⟨congrArg (· ++ [b]) hkey,fun m hm => hp m (hb b child hg m hm)⟩

end

end HeliosNano.Storage.Art
