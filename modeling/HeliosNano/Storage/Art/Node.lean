import HeliosNano.Storage.Art.IndexedSpec

namespace HeliosNano.Storage.Art
open Foundation

inductive Layout
  | node4
  | node16
  | node48
  | node256
deriving DecidableEq

inductive Inner (α : Type)
  | node4 (n : KeyedNode α)
  | node16 (n : KeyedNode α)
  | node48 (n : Node48 α)
  | node256 (n : Node256 α)

namespace Inner
variable {α : Type}

def layout : Inner α → Layout
  | node4 _ => .node4
  | node16 _ => .node16
  | node48 _ => .node48
  | node256 _ => .node256

def header : Inner α → NodeHeader
  | node4 n | node16 n => n.header
  | node48 n => n.header
  | node256 n => n.header

/-- A change through `header_mut`. -/
def modifyHeader (f : NodeHeader → NodeHeader) : Inner α → Inner α
  | node4 n => node4 { n with header := f n.header }
  | node16 n => node16 { n with header := f n.header }
  | node48 n => node48 { n with header := f n.header }
  | node256 n => node256 { n with header := f n.header }

def getChild : Inner α → Byte → Option α
  | node4 n | node16 n => n.getChild
  | node48 n => n.getChild
  | node256 n => n.getChild

def setChild (key : Byte) (child : α) : Inner α → Inner α
  | node4 n => node4 (n.setChild key child)
  | node16 n => node16 (n.setChild key child)
  | node48 n => node48 (n.setChild key child)
  | node256 n => node256 (n.setChild key child)

/-- A full node grows first. -/
def addChild (key : Byte) (child : α) : Inner α → Inner α
  | node4 n =>
    if n.isFull 4 then node16 (n.grow16.addChild 16 key child).1 else node4 (n.addChild 4 key child).1
  | node16 n =>
    if n.isFull 16 then node48 (n.grow48.addChild key child).1 else node16 (n.addChild 16 key child).1
  | node48 n => if n.isFull then node256 (n.grow256.addChild key child).1 else node48 (n.addChild key child).1
  | node256 n => node256 (n.addChild key child).1

/-- A `Node256` has a slot for every byte. -/
def isFull : Inner α → Bool
  | node4 n => n.isFull 4
  | node16 n => n.isFull 16
  | node48 n => n.isFull
  | node256 _ => false

/-- `add_child` of the layout itself, and whether there was room. -/
def addInPlace (key : Byte) (child : α) : Inner α → Inner α × Bool
  | node4 n => (n.addChild 4 key child).map node4 id
  | node16 n => (n.addChild 16 key child).map node16 id
  | node48 n => (n.addChild key child).map node48 id
  | node256 n => (n.addChild key child).map node256 id

def grow : Inner α → Option (Inner α)
  | node4 n => some (node16 n.grow16)
  | node16 n => some (node48 n.grow48)
  | node48 n => some (node256 n.grow256)
  | node256 _ => none

def removeChild (key : Byte) : Inner α → Inner α
  | node4 n => node4 (n.removeChild key)
  | node16 n => node16 (n.removeChild key)
  | node48 n => node48 (n.removeChild key)
  | node256 n => node256 (n.removeChild key)

/-- A `Node4` never shrinks. -/
def maybeShrink : Inner α → Inner α
  | node4 n => node4 n
  | node16 n => if n.header.numChildren ≤ 4 then node4 n.shrink4 else node16 n
  | node48 n => if n.header.numChildren ≤ 16 then node16 n.shrink16 else node48 n
  | node256 n => if n.header.numChildren ≤ 48 then node48 n.shrink48 else node256 n

def shouldShrink : Inner α → Bool
  | node4 _ => false
  | node16 n => n.header.numChildren ≤ 4
  | node48 n => n.header.numChildren ≤ 16
  | node256 n => n.header.numChildren ≤ 48

def shrink : Inner α → Option (Inner α)
  | node4 _ => none
  | node16 n => some (node4 n.shrink4)
  | node48 n => some (node16 n.shrink16)
  | node256 n => some (node48 n.shrink48)

def iterChildren : Inner α → List (Byte × α)
  | node4 n | node16 n => n.iterChildren
  | node48 n => n.iterChildren
  | node256 n => n.iterChildren

end Inner

/-- The first row id is stored inline. -/
structure LeafNode where
  key : Bytes
  primary : RowId
  extra : List RowId
deriving DecidableEq

namespace LeafNode

def new (key : Bytes) (value : RowId) : LeafNode := ⟨key,value,[]⟩

def allValues (leaf : LeafNode) : List RowId := leaf.primary::leaf.extra

def valuesCount (leaf : LeafNode) : Nat := 1+leaf.extra.length

def pushValue (leaf : LeafNode) (value : RowId) : LeafNode := { leaf with extra := leaf.extra ++ [value] }

/-- The leaf without the row id, whether it was found, and whether no row id is left. -/
def removeValue (leaf : LeafNode) (rowId : RowId) : LeafNode × Bool × Bool :=
  if leaf.primary = rowId then
    match leaf.extra.getLast? with
    | some replacement => ({ leaf with primary := replacement, extra := leaf.extra.dropLast },true,false)
    | none => (leaf,true,true)
  else match leaf.extra.idxOf? rowId with
    | some pos => ({ leaf with extra := swapRemove leaf.extra pos },true,false)
    | none => (leaf,false,false)

end LeafNode

inductive ArtNode
  | inner (node : Inner ArtNode)
  | leaf (leaf : LeafNode)

def NodeHeader.Agrees (h h' : NodeHeader) : Prop :=
  h'.prefixLen = h.prefixLen ∧ h'.getPrefix = h.getPrefix ∧ h'.values = h.values

section
variable {α : Type} {n n' : Inner α} {key : Byte} {old : α}

def Inner.Wf : Inner α → Prop
  | .node4 n => ∃ entries, n.Holds 4 entries
  | .node16 n => ∃ entries, n.Holds 16 entries
  | .node48 n => n.Wf
  | .node256 n => n.Wf

theorem Inner.Wf.enumerates (h : n.Wf) : Enumerates n.iterChildren n.getChild := by
  cases n with
  | node4 n | node16 n =>
    obtain ⟨entries,h⟩ := h
    rw [Inner.iterChildren,h.iterChildren]
    exact h.enumerates
  | node48 n | node256 n => exact enumerates_iterBytes n.getChild

theorem NodeHeader.Agrees.trans {h h' h'' : NodeHeader} (h₁ : h.Agrees h') (h₂ : h'.Agrees h'') : h.Agrees h'' :=
  ⟨h₂.1.trans h₁.1,h₂.2.1.trans h₁.2.1,h₂.2.2.trans h₁.2.2⟩

theorem NodeHeader.Agrees.of_eq {h h' : NodeHeader} (heq : h' = h) : h.Agrees h' := by
  subst heq
  exact ⟨rfl,rfl,rfl⟩

theorem NodeHeader.Agrees.of_count {h h' : NodeHeader} {m : Nat} (heq : h' = { h with numChildren := m }) : h.Agrees h' := by
  subst heq
  exact ⟨rfl,rfl,rfl⟩

theorem NodeHeader.agrees_resized (h : NodeHeader) (m : Nat) : h.Agrees (h.resized m) :=
  ⟨rfl,h.getPrefix_resized m,rfl⟩

/-- A new node with the same prefix and row ids, and other children. -/
structure Inner.Becomes (n n' : Inner α) (g : Byte → Option α) : Prop where
  wf : n'.Wf
  children : n'.getChild = g
  agrees : n.header.Agrees n'.header

variable {entries : List (Byte × α)} {capacity : Nat}

theorem KeyedNode.Holds.setChild_becomes {n : KeyedNode α}
    (h : n.Holds capacity entries) (hold : n.getChild key = some old) (child : α) :
    (∃ entries', (n.setChild key child).Holds capacity entries') ∧
      (n.setChild key child).getChild = Function.update n.getChild key (some child) ∧
      (n.setChild key child).header = n.header := by
  obtain ⟨before,after,rfl,-⟩ := exists_split_of_nodup_keys h.distinct ((h.enumerates.mem _ _).mp hold)
  have hs := h.setChild child
  refine ⟨⟨_,hs⟩,hs.enumerates.eq_of_perm (h.enumerates.replace child) (List.Perm.refl _),?_⟩
  rw [KeyedNode.setChild,h.findChildIndex_split]

theorem KeyedNode.Holds.addChild_becomes {n : KeyedNode α}
    (h : n.Holds capacity entries) (hr : entries.length < capacity) (hno : n.getChild key = none) (child : α) :
    (∃ entries', (n.addChild capacity key child).1.Holds capacity entries') ∧
      (n.addChild capacity key child).1.getChild = Function.update n.getChild key (some child) ∧
      (n.addChild capacity key child).1.header = { n.header with numChildren := n.header.numChildren+1 } := by
  have ha := h.addChild hr (h.enumerates.eq_none_iff.mp hno) child
  refine ⟨⟨_,ha⟩,ha.enumerates.eq_of_perm (h.enumerates.concat hno child) (List.Perm.refl _),?_⟩
  rw [KeyedNode.addChild,if_neg (by simpa [KeyedNode.isFull,h.count] using hr)]

theorem KeyedNode.Holds.removeChild_becomes {n : KeyedNode α}
    (h : n.Holds capacity entries) (hold : n.getChild key = some old) :
    (∃ entries', (n.removeChild key).Holds capacity entries') ∧
      (n.removeChild key).getChild = Function.update n.getChild key none ∧
      (n.removeChild key).header = { n.header with numChildren := n.header.numChildren-1 } := by
  obtain ⟨before,after,rfl,-⟩ := exists_split_of_nodup_keys h.distinct ((h.enumerates.mem _ _).mp hold)
  obtain ⟨entries',hp,hr⟩ := h.removeChild
  refine ⟨⟨_,hr⟩,hr.enumerates.eq_of_perm h.enumerates.erase hp,?_⟩
  rw [KeyedNode.removeChild,h.findChildIndex_split]

variable (h : n.Wf)
include h

theorem Inner.Wf.setChild (hold : n.getChild key = some old) (child : α) :
    n.Becomes (n.setChild key child) (Function.update n.getChild key (some child)) ∧
      (n.setChild key child).layout = n.layout := by
  cases n with
  | node4 n | node16 n =>
    obtain ⟨entries,h⟩ := h
    obtain ⟨hwf,hg,hh⟩ := h.setChild_becomes hold child
    exact ⟨⟨hwf,hg,.of_eq hh⟩,rfl⟩
  | node48 n | node256 n =>
    obtain ⟨hwf,hg,hh⟩ := h.setChild hold child
    exact ⟨⟨hwf,hg,.of_eq hh⟩,rfl⟩

theorem Inner.Wf.removeChild (hold : n.getChild key = some old) :
    n.Becomes (n.removeChild key) (Function.update n.getChild key none) ∧ (n.removeChild key).layout = n.layout := by
  cases n with
  | node4 n | node16 n =>
    obtain ⟨entries,h⟩ := h
    obtain ⟨hwf,hg,hh⟩ := h.removeChild_becomes hold
    exact ⟨⟨hwf,hg,.of_count hh⟩,rfl⟩
  | node48 n | node256 n =>
    obtain ⟨hwf,hg,hh⟩ := h.removeChild hold
    exact ⟨⟨hwf,hg,.of_count hh⟩,rfl⟩

theorem Inner.Wf.grow (hn : n.grow = some n') : n.Becomes n' n.getChild := by
  cases n with
  | node4 n =>
    cases hn
    obtain ⟨entries,h⟩ := h
    exact ⟨⟨_,h.grow16⟩,h.grow16.enumerates.eq_of_perm h.enumerates (List.Perm.refl _),n.header.agrees_resized _⟩
  | node16 n =>
    cases hn
    obtain ⟨entries,h⟩ := h
    obtain ⟨hwf,he⟩ := h.grow48
    exact ⟨hwf,he.eq_of_perm h.enumerates (List.Perm.refl _),n.header.agrees_resized _⟩
  | node48 n =>
    cases hn
    obtain ⟨hwf,hg⟩ := Node48.Wf.grow256 h
    exact ⟨hwf,hg,n.header.agrees_resized _⟩
  | node256 n => cases hn

theorem Inner.Wf.isFull_grow (hn : n.grow = some n') : n'.isFull = false := by
  cases n with
  | node4 n | node16 n =>
    cases hn
    obtain ⟨entries,h⟩ := h
    have hc : n.header.numChildren ≤ _ := h.count.trans_le h.fits
    refine decide_eq_false ?_
    change ¬_ ≤ n.header.numChildren
    omega
  | node48 n =>
    cases hn
    rfl
  | node256 n => cases hn

theorem Inner.Wf.addInPlace (hno : n.getChild key = none) (child : α) : if n.isFull then n.addInPlace key child = (n,false)
    else (n.addInPlace key child).2 = true ∧
      n.Becomes (n.addInPlace key child).1 (Function.update n.getChild key (some child)) := by
  cases n with
  | node4 n | node16 n =>
    obtain ⟨entries,h⟩ := h
    rw [Inner.isFull]
    split
    next hf =>
      rw [Inner.addInPlace,KeyedNode.addChild,if_pos hf]
      rfl
    next hf =>
      obtain ⟨hwf,hg,hh⟩ := h.addChild_becomes (by simpa [KeyedNode.isFull,h.count] using hf) hno child
      refine ⟨?_,hwf,hg,.of_count hh⟩
      rw [Inner.addInPlace,KeyedNode.addChild,if_neg hf]
      rfl
  | node48 n =>
    rw [Inner.isFull]
    split
    next hf =>
      rw [Inner.addInPlace,Node48.addChild,if_pos hf]
      rfl
    next hf =>
      have hr : n.header.numChildren < 48 := by simpa [Node48.isFull] using hf
      obtain ⟨i,hi,-⟩ := Node48.Wf.exists_free h hr
      obtain ⟨hwf,hg,hh⟩ := Node48.Wf.addChild h hr hno child
      refine ⟨?_,hwf,hg,.of_count hh⟩
      rw [Inner.addInPlace,Node48.addChild,if_neg hf,hi]
      rfl
  | node256 n =>
    obtain ⟨hwf,hg,hh⟩ := Node256.Wf.addChild h hno child
    exact ⟨rfl,hwf,hg,.of_count hh⟩

omit h

theorem Inner.addChild_eq (n : Inner α) (key : Byte) (child : α) :
    n.addChild key child = (((if n.isFull then n.grow else none).getD n).addInPlace key child).1 := by
  cases n with
  | node4 n | node16 n | node48 n =>
    rw [Inner.addChild,Inner.isFull]
    split <;> rfl
  | node256 n => rfl

theorem Inner.Wf.addChild (h : n.Wf) (hno : n.getChild key = none) (child : α) :
    n.Becomes (n.addChild key child) (Function.update n.getChild key (some child)) := by
  rw [Inner.addChild_eq]
  have ha := h.addInPlace hno child
  by_cases hf : n.isFull
  · cases hg : n.grow with
    | none =>
      cases n with
      | node4 n | node16 n | node48 n => cases hg
      | node256 n => cases hf
    | some n' =>
      have hb := h.grow hg
      have ha := hb.wf.addInPlace (by rw [hb.children]; exact hno) child
      rw [if_neg (by simp [h.isFull_grow hg]),hb.children] at ha
      rw [if_pos hf]
      exact ⟨ha.2.wf,ha.2.children,hb.agrees.trans ha.2.agrees⟩
  · rw [if_neg hf] at ha ⊢
    exact ha.2

theorem Inner.Wf.shrink (h : n.Wf) (hs : n.shouldShrink) (hn : n.shrink = some n') : n.Becomes n' n.getChild := by
  cases n with
  | node4 n => cases hs
  | node16 n =>
    cases hn
    obtain ⟨entries,h⟩ := h
    have hs := h.shrink4 (by rw [← h.count]; exact of_decide_eq_true hs)
    exact ⟨⟨_,hs⟩,hs.enumerates.eq_of_perm h.enumerates (List.Perm.refl _),n.header.agrees_resized _⟩
  | node48 n =>
    cases hn
    have hs := Node48.Wf.shrink16 h (of_decide_eq_true hs)
    exact ⟨⟨_,hs⟩,hs.enumerates.eq_of_perm (enumerates_iterBytes n.getChild) (List.Perm.refl _),
      n.header.agrees_resized _⟩
  | node256 n =>
    cases hn
    obtain ⟨hwf,hg⟩ := Node256.Wf.shrink48 h (of_decide_eq_true hs)
    exact ⟨hwf,hg,n.header.agrees_resized _⟩

theorem Inner.maybeShrink_eq (n : Inner α) : n.maybeShrink = (if n.shouldShrink then n.shrink else none).getD n := by
  cases n with
  | node4 n => rfl
  | node16 n | node48 n | node256 n =>
    rw [Inner.maybeShrink,Inner.shouldShrink]
    simp only [decide_eq_true_eq]
    split <;> rfl

theorem Inner.Wf.maybeShrink (h : n.Wf) : n.Becomes n.maybeShrink n.getChild := by
  rw [Inner.maybeShrink_eq]
  by_cases hs : n.shouldShrink
  · rw [if_pos hs]
    cases hn : n.shrink with
    | none => exact ⟨h,rfl,rfl,rfl,rfl⟩
    | some n' => exact h.shrink hs hn
  · rw [if_neg hs]
    exact ⟨h,rfl,rfl,rfl,rfl⟩

theorem Inner.Wf.removeChild_absent (h : n.Wf) (hno : n.getChild key = none) : n.removeChild key = n := by
  cases n with
  | node4 n | node16 n =>
    obtain ⟨entries,h⟩ := h
    rw [Inner.removeChild,KeyedNode.removeChild,h.findChildIndex_none (h.enumerates.eq_none_iff.mp hno)]
  | node48 n =>
    have hs := (Node48.Wf.getChild_eq_none_iff h).mp hno
    rw [Inner.removeChild,Node48.removeChild,if_neg (by simp [hs])]
  | node256 n =>
    have hlt : key.val < n.children.length := h.slotsLength.symm ▸ key.isLt
    have hv : n.children[key.val] = none := by simpa [Inner.getChild,Node256.getChild,hlt] using hno
    have hs : n.children.set key.val none = n.children := by rw [← hv,List.set_getElem_self]
    have hno : n.getChild key = none := hno
    rw [Inner.removeChild,Node256.removeChild,hno,hs]
    rfl

theorem Inner.Wf.modifyHeader (h : n.Wf) {f : NodeHeader → NodeHeader}
    (hf : ∀ header, (f header).numChildren = header.numChildren) :
    (n.modifyHeader f).Wf ∧ (n.modifyHeader f).getChild = n.getChild ∧ (n.modifyHeader f).header = f n.header ∧
      (n.modifyHeader f).layout = n.layout := by
  cases n with
  | node4 n | node16 n =>
    obtain ⟨entries,h⟩ := h
    have hg : KeyedNode.getChild { n with header := f n.header } = n.getChild := by
      funext key
      rw [KeyedNode.getChild,KeyedNode.findChildIndex,hf]
      rfl
    exact ⟨⟨entries,h.fits,h.distinct,(hf _).trans h.count,h.keys,h.children⟩,hg,rfl,rfl⟩
  | node48 n =>
    exact ⟨⟨h.indexLength,h.slotsLength,h.filled,h.injective,h.countSlots.trans (hf _).symm,
      (hf _).trans h.count⟩,rfl,rfl,rfl⟩
  | node256 n => exact ⟨⟨h.slotsLength,(hf _).trans h.count⟩,rfl,rfl,rfl⟩

end
end HeliosNano.Storage.Art
