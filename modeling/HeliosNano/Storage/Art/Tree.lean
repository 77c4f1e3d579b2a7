import HeliosNano.Foundation.CommonPrefix
import HeliosNano.Storage.Art.Node

/-! `AdaptiveRadixTree`: lookup along compressed paths, insertion that splits leaves and
prefixes, and removal. Keys that end inside the tree keep their row ids in a header. -/
namespace HeliosNano.Storage.Art
open Foundation List Option

inductive ArtIndexType
  | primaryKey
  | foreignKey
  | unique
  | manual
deriving DecidableEq

def ArtIndexType.display : ArtIndexType → String
  | primaryKey => "PRIMARY KEY"
  | foreignKey => "FOREIGN KEY"
  | unique => "UNIQUE"
  | manual => "MANUAL"

def ArtIndexType.isUnique (indexType : ArtIndexType) : Prop := indexType = .primaryKey ∨ indexType = .unique
deriving Decidable

inductive ArtIndexError
  | duplicateKey (message : String)
  | nullPrimaryKey
  | internal (message : String)
deriving DecidableEq

/-- A call that does not return a value: an error, or a panic on a counter that would go below zero. -/
inductive Failure
  | error (e : ArtIndexError)
  | panicked
deriving DecidableEq

/-- `size` and the counters of `stats` that removals decrement. -/
structure Counters where
  size : Nat
  leafCount : Nat
  nodeCount : Layout → Nat

namespace Counters

variable (c : Counters)

def subSize (m : Nat) : Except Failure Counters :=
  if m ≤ c.size then .ok { c with size := c.size-m } else .error .panicked

def subLeaf : Except Failure Counters :=
  if 1 ≤ c.leafCount then .ok { c with leafCount := c.leafCount-1 } else .error .panicked

def addNode (layout : Layout) : Counters :=
  { c with nodeCount := Function.update c.nodeCount layout (c.nodeCount layout + 1) }

/-- A node that changed its layout is counted under the new one. -/
def relayout (old new : Layout) : Except Failure Counters :=
  if old = new then .ok c
  else if 1 ≤ c.nodeCount old then
    .ok (addNode { c with nodeCount := Function.update c.nodeCount old (c.nodeCount old - 1) } new)
  else .error .panicked

end Counters

variable {α : Type} {entry : Byte × α}

theorem sizeOf_lt_of_mem_iterBytes [SizeOf α] (children : List (Option α)) {g : Byte → Option α}
    (hg : ∀ b child, g b = some child → some child ∈ children) (h : entry ∈ iterBytes g) : sizeOf entry.2 < sizeOf children := by
  obtain ⟨b,child⟩ := entry
  have hlt := sizeOf_lt_of_mem (hg b child (((enumerates_iterBytes g).mem b child).mpr h))
  rw [some.sizeOf_spec] at hlt
  exact Nat.lt_of_le_of_lt (Nat.le_add_left _ _) hlt

theorem Inner.sizeOf_lt_of_mem_iterChildren [SizeOf α] {n : Inner α}
    (h : entry ∈ n.iterChildren) : sizeOf entry.2 < sizeOf n := by
  have hk : ∀ n : KeyedNode α, entry ∈ n.iterChildren → sizeOf entry.2 < sizeOf n := by
    intro n hm
    obtain ⟨slot,hs,he⟩ := mem_filterMap.mp hm
    obtain ⟨child,hc,rfl⟩ := map_eq_some_iff.mp he
    have hlt := sizeOf_lt_of_mem (of_mem_zip (mem_of_mem_take hs)).2
    rw [hc,some.sizeOf_spec] at hlt
    rw [KeyedNode.mk.sizeOf_spec]
    dsimp only
    omega
  cases n with
  | node4 n =>
    rw [Inner.node4.sizeOf_spec]
    have := hk n h
    omega
  | node16 n =>
    rw [Inner.node16.sizeOf_spec]
    have := hk n h
    omega
  | node48 n =>
    have hlt := sizeOf_lt_of_mem_iterBytes n.children (fun b child hg => by
      rw [Node48.getChild] at hg
      split at hg
      · exact mem_of_getElem? (join_eq_some_iff.mp hg)
      · cases hg) h
    rw [Inner.node48.sizeOf_spec,Node48.mk.sizeOf_spec]
    omega
  | node256 n =>
    have hlt := sizeOf_lt_of_mem_iterBytes n.children (fun b child hg =>
      mem_of_getElem? (join_eq_some_iff.mp hg)) h
    rw [Inner.node256.sizeOf_spec,Node256.mk.sizeOf_spec]
    omega

theorem ArtNode.sizeOf_child_lt {n : Inner ArtNode} {entry : Byte × ArtNode} (h : entry ∈ n.iterChildren) :
    sizeOf entry.2 < sizeOf (ArtNode.inner n) := by
  have := Inner.sizeOf_lt_of_mem_iterChildren h
  rw [ArtNode.inner.sizeOf_spec]
  omega

namespace ArtNode

def firstLeafKey : ArtNode → Option Bytes
  | .leaf node => some node.key
  | .inner n => n.iterChildren.attach.findSome? fun entry => firstLeafKey entry.1.2
termination_by node => sizeOf node
decreasing_by exact sizeOf_child_lt entry.2

def leaves : ArtNode → List LeafNode
  | .leaf node => [node]
  | .inner n => n.iterChildren.attach.flatMap fun entry => leaves entry.1.2
termination_by node => sizeOf node
decreasing_by exact sizeOf_child_lt entry.2

def inners : ArtNode → List (Inner ArtNode)
  | .leaf _ => []
  | .inner n => n :: n.iterChildren.attach.flatMap fun entry => inners entry.1.2
termination_by node => sizeOf node
decreasing_by exact sizeOf_child_lt entry.2

end ArtNode

/-- Bytes of the prefix beyond the stored ones are read off the first leaf below. -/
def prefixMismatchPos (n : Inner ArtNode) (key : Bytes) (depth : Nat) : Nat :=
  let stored := n.header.getPrefix
  let pos := commonLen stored (key.drop depth)
  if pos < stored.length ∨ n.header.prefixLen ≤ pos then pos
  else match (ArtNode.inner n).firstLeafKey with
    | none => pos
    | some representative =>
      pos + commonLen ((representative.drop (depth+pos)).take (n.header.prefixLen-pos)) (key.drop (depth+pos))

def prefixByteForSplit (depth pos : Nat) (stored : Bytes) (representative : Option Bytes) : Except Failure Byte :=
  match stored[pos]? with
  | some byte => .ok byte
  | none =>
    match representative.bind fun key => key[depth+pos]? with
    | some byte => .ok byte
    | none => .error (.error (.internal "Cannot recover hidden ART prefix byte"))

def prefixBytesForSplit (depth start oldLen : Nat) (stored : Bytes) (representative : Option Bytes) :
    Except Failure Bytes :=
  (List.range' start (oldLen-start)).mapM fun pos => prefixByteForSplit depth pos stored representative

def NodeHeader.pushValue (h : NodeHeader) (value : RowId) : NodeHeader := { h with values := h.values ++ [value] }

/-- A new `Node4` takes a subtree under a byte, or the row ids of a key that ends at the node. -/
def KeyedNode.hang (n : KeyedNode ArtNode) (byte : Option Byte) (child : ArtNode) (values : List RowId) :
    KeyedNode ArtNode :=
  match byte with
  | some byte => (n.addChild 4 byte child).1
  | none => { n with header := { n.header with values := n.header.values ++ values } }

/-- A leaf that meets another key becomes an inner node over the bytes they share. -/
def splitLeaf (leaf : LeafNode) (key : Bytes) (value : RowId) (depth : Nat) : ArtNode :=
  let shared := commonLen (key.drop depth) (leaf.key.drop depth)
  let newNode : KeyedNode ArtNode := .pack 4 (.withPrefix ((key.drop depth).take shared)) []
  let newNode := newNode.hang leaf.key[depth+shared]? (.leaf leaf) leaf.allValues
  .inner (.node4 (newNode.hang key[depth+shared]? (.leaf (.new key value)) [value]))

def splitNode (n : Inner ArtNode) (key : Bytes) (value : RowId) (depth mismatchPos : Nat) (c : Counters) :
    Except Failure (ArtNode × Counters) := do
  let representative := (ArtNode.inner n).firstLeafKey
  if key.length < depth+mismatchPos then throw (.error (.internal "Invalid ART split prefix range"))
  let newParent : KeyedNode ArtNode := .pack 4 (.withPrefix ((key.drop depth).take mismatchPos)) []
  let remaining ← prefixBytesForSplit depth (mismatchPos+1) n.header.prefixLen n.header.getPrefix representative
  let oldKey ← prefixByteForSplit depth mismatchPos n.header.getPrefix representative
  let newParent := (newParent.addChild 4 oldKey (.inner (n.modifyHeader fun h => h.setPrefix remaining))).1
  let newKey := key[depth+mismatchPos]?
  return (.inner (.node4 (newParent.hang newKey (.leaf (.new key value)) [value])),
    { c.addNode .node4 with leafCount := if newKey.isSome then c.leafCount+1 else c.leafCount })

def insertIntoNode (indexType : ArtIndexType) (name : String) (key : Bytes) (value : RowId) (node : ArtNode)
    (depth : Nat) (c : Counters) : Except Failure (ArtNode × Counters) :=
  match node with
  | .leaf leaf =>
    if leaf.key = key then .ok (.leaf (leaf.pushValue value),c)
    -- counted as a new leaf even when one of the keys ends at the new node
    else .ok (splitLeaf leaf key value depth,{ c.addNode .node4 with leafCount := c.leafCount+1 })
  | .inner n =>
    let mismatchPos := prefixMismatchPos n key depth
    if mismatchPos < n.header.prefixLen then splitNode n key value depth mismatchPos c
    else if hmore : depth+n.header.prefixLen < key.length then
      let nextByte := key[depth+n.header.prefixLen]
      match n.getChild nextByte with
      | some child => do
        let (child,c) ← insertIntoNode indexType name key value child (depth+n.header.prefixLen+1) c
        return (.inner (n.setChild nextByte child),c)
      | none => do
        let grown := n.addChild nextByte (.leaf (.new key value))
        let c ← { c with leafCount := c.leafCount+1 }.relayout n.layout grown.layout
        return (.inner grown,c)
    else if indexType.isUnique ∧ n.header.values ≠ [] then
      let kind := if indexType = .primaryKey then "primary key" else "unique"
      .error (.error (.duplicateKey ("Key already exists in " ++ kind ++ " index '" ++ name ++ "'")))
    else .ok (.inner (n.modifyHeader fun h => h.pushValue value),c)
termination_by key.length - depth

def getRecursive (key : Bytes) (node : ArtNode) (depth : Nat) : Option RowId :=
  match node with
  | .leaf leaf => if leaf.key = key then some leaf.primary else none
  | .inner n =>
    if prefixMismatchPos n key depth < n.header.prefixLen then none
    else if hmore : depth+n.header.prefixLen < key.length then
      match n.getChild key[depth+n.header.prefixLen] with
      | some child => getRecursive key child (depth+n.header.prefixLen+1)
      | none => none
    else n.header.values.head?
termination_by key.length - depth

def getAllRecursive (key : Bytes) (node : ArtNode) (depth : Nat) : List RowId :=
  match node with
  | .leaf leaf => if leaf.key = key then leaf.allValues else []
  | .inner n =>
    if prefixMismatchPos n key depth < n.header.prefixLen then []
    else if hmore : depth+n.header.prefixLen < key.length then
      match n.getChild key[depth+n.header.prefixLen] with
      | some child => getAllRecursive key child (depth+n.header.prefixLen+1)
      | none => []
    else n.header.values
termination_by key.length - depth

/-- What the two removals do where the key is found: on its leaf, which may go away, or on
the row ids of the inner node where it ends. -/
structure Remover (β : Type) where
  nothing : β
  atLeaf : LeafNode → Counters → Except Failure (Option LeafNode × β × Counters)
  atInner : List RowId → Counters → Except Failure (List RowId × β × Counters)

def Remover.descend {β : Type} (r : Remover β) (key : Bytes) (node : ArtNode) (depth : Nat) (c : Counters) :
    Except Failure (Option ArtNode × β × Counters) :=
  match node with
  | .leaf leaf =>
    if leaf.key = key then do
      let (leaf,removed,c) ← r.atLeaf leaf c
      return (leaf.map .leaf,removed,c)
    else .ok (some (.leaf leaf),r.nothing,c)
  | .inner n =>
    if prefixMismatchPos n key depth < n.header.prefixLen then .ok (some (.inner n),r.nothing,c)
    else if hmore : depth+n.header.prefixLen < key.length then do
      let nextByte := key[depth+n.header.prefixLen]
      let (n,removed,c) ← match n.getChild nextByte with
        | some child => do
          let (child,removed,c) ← r.descend key child (depth+n.header.prefixLen+1) c
          pure (match child with
            | some child => n.setChild nextByte child
            | none => n.removeChild nextByte, removed, c)
        | none => pure (n,r.nothing,c)
      let c ← c.relayout n.layout n.maybeShrink.layout
      return (some (.inner n.maybeShrink),removed,c)
    else do
      let (values,removed,c) ← r.atInner n.header.values c
      return (some (.inner (n.modifyHeader fun h => { h with values := values })),removed,c)
termination_by key.length - depth

/-- All row ids of the key go; the caller counts the first of them. -/
def removeAll : Remover (Option RowId) where
  nothing := none
  atLeaf leaf c := do
    let c ← c.subSize (leaf.valuesCount-1)
    return (none,some leaf.primary,c)
  atInner values c := do
    let c ← c.subSize (values.length-1)
    return ([],values.head?,c)

def removeRecursive (key : Bytes) : ArtNode → Nat → Counters → Except Failure (Option ArtNode × Option RowId × Counters) :=
  removeAll.descend key

def removeOne (rowId : RowId) : Remover Bool where
  nothing := false
  atLeaf leaf c :=
    match leaf.removeValue rowId with
    | (_,true,true) => do
      let c ← c.subLeaf
      return (none,true,c)
    | (leaf,removed,_) => .ok (some leaf,removed,c)
  atInner values c :=
    match values.idxOf? rowId with
    | some pos => .ok (swapRemove values pos,true,c)
    | none => .ok (values,false,c)

def removeValueRecursive (key : Bytes) (rowId : RowId) :
    ArtNode → Nat → Counters → Except Failure (Option ArtNode × Bool × Counters) :=
  (removeOne rowId).descend key

structure AdaptiveRadixTree where
  root : Option ArtNode
  name : String
  indexType : ArtIndexType
  counters : Counters

namespace AdaptiveRadixTree

def new (name : String) (indexType : ArtIndexType) : AdaptiveRadixTree :=
  ⟨none,name,indexType,⟨0,0,fun _ => 0⟩⟩

variable (t : AdaptiveRadixTree) (key : Bytes)

def get : Option RowId := t.root.bind fun root => getRecursive key root 0

def getAll : List RowId :=
  match t.root with
  | none => []
  | some root => getAllRecursive key root 0

def contains : Bool := (t.get key).isSome

/-- An insertion that fails below the root has taken the root out. -/
def insert (value : RowId) : AdaptiveRadixTree × Except Failure Unit :=
  if key = [] ∧ t.indexType = .primaryKey then (t,.error (.error .nullPrimaryKey))
  else if t.indexType.isUnique ∧ t.contains key then
    (t,.error (.error (.duplicateKey ("Key already exists in " ++ t.indexType.display ++ " index"))))
  else match t.root with
    | none =>
      ({ t with root := some (.leaf (.new key value)), counters := { t.counters with size := 1, leafCount := 1 } },.ok ())
    | some root =>
      match insertIntoNode t.indexType t.name key value root 0 t.counters with
      | .error e => ({ t with root := none },.error e)
      | .ok (root,c) => ({ t with root := some root, counters := { c with size := c.size+1 } },.ok ())

/-- Every key found counts as a leaf, also one that ended at an inner node. -/
def remove : AdaptiveRadixTree × Except Failure (Option RowId) :=
  match t.root with
  | none => (t,.ok none)
  | some root =>
    match removeRecursive key root 0 t.counters with
    | .error e => ({ t with root := none },.error e)
    | .ok (root,none,c) => ({ t with root := root, counters := c },.ok none)
    | .ok (root,some removed,c) =>
      match c.subSize 1 with
      | .error e => ({ t with root := root, counters := c },.error e)
      | .ok c =>
        match c.subLeaf with
        | .error e => ({ t with root := root, counters := c },.error e)
        | .ok c => ({ t with root := root, counters := c },.ok (some removed))

def removeValue (rowId : RowId) : AdaptiveRadixTree × Except Failure Bool :=
  match t.root with
  | none => (t,.ok false)
  | some root =>
    match removeValueRecursive key rowId root 0 t.counters with
    | .error e => ({ t with root := none },.error e)
    | .ok (root,false,c) => ({ t with root := root, counters := c },.ok false)
    | .ok (root,true,c) =>
      match c.subSize 1 with
      | .error e => ({ t with root := root, counters := c },.error e)
      | .ok c => ({ t with root := root, counters := c },.ok true)

end AdaptiveRadixTree
end HeliosNano.Storage.Art
