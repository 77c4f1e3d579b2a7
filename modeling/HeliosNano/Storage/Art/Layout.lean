import HeliosNano.Foundation.Maps
import HeliosNano.Storage.Basics
import Mathlib.Data.List.Perm.Basic

namespace HeliosNano.Storage.Art
open Foundation List

def maxPrefixLen : Nat := 10

/-- The stored prefix is an array of `maxPrefixLen` bytes; a longer prefix is cut there. -/
structure NodeHeader where
  numChildren : Nat
  prefixLen : Nat
  stored : Bytes
  values : List RowId
  stored_length : stored.length = maxPrefixLen
deriving DecidableEq

namespace NodeHeader

def new : NodeHeader := ⟨0,0,List.replicate maxPrefixLen 0,[],length_replicate⟩

variable (h : NodeHeader)

/-- The length is cast to `u32`. -/
def setPrefix (bytes : Bytes) : NodeHeader :=
  { h with
    prefixLen := bytes.length%(u32Max+1)
    stored := bytes.take maxPrefixLen ++ h.stored.drop (min bytes.length maxPrefixLen)
    stored_length := by
      rw [length_append,length_take,length_drop,h.stored_length]
      omega }

def withPrefix (bytes : Bytes) : NodeHeader := new.setPrefix bytes

def getPrefix : Bytes := h.stored.take (min h.prefixLen maxPrefixLen)

def resized (numChildren : Nat) : NodeHeader :=
  { withPrefix h.getPrefix with numChildren := numChildren, prefixLen := h.prefixLen, values := h.values }

end NodeHeader

/-- `Node4` and `Node16`: key bytes and children in parallel slots. -/
structure KeyedNode (α : Type) where
  header : NodeHeader
  keys : List Byte
  children : List (Option α)
deriving DecidableEq

/-- `Node48`: a slot for each byte that has one; 255 stands for none. -/
structure Node48 (α : Type) where
  header : NodeHeader
  childIndex : List Nat
  children : List (Option α)
deriving DecidableEq

structure Node256 (α : Type) where
  header : NodeHeader
  children : List (Option α)
deriving DecidableEq

variable {α : Type}

def iterBytes (getChild : Byte → Option α) : List (Byte × α) :=
  (List.finRange 256).filterMap fun byte => (getChild byte).map fun child => (byte,child)

/-- The last element takes the place of the removed one. -/
def swapRemove {β : Type} (xs : List β) (i : Nat) : List β :=
  match xs.getLast? with
  | some last => (xs.set i last).dropLast
  | none => xs

namespace KeyedNode

variable (capacity : Nat) (n : KeyedNode α) (key : Byte)

def pack (header : NodeHeader) (entries : List (Byte × α)) : KeyedNode α where
  header := header
  keys := entries.map (·.1) ++ List.replicate (capacity-entries.length) 0
  children := entries.map (fun entry => some entry.2) ++ List.replicate (capacity-entries.length) none

def isFull : Bool := decide (capacity ≤ n.header.numChildren)

def findChildIndex : Option Nat := (n.keys.take n.header.numChildren).idxOf? key

def getChild : Option α :=
  (n.findChildIndex key).bind fun i => (n.children[i]?).join

def setChild (child : α) : KeyedNode α :=
  match n.findChildIndex key with
  | some i => { n with children := n.children.set i (some child) }
  | none => n

/-- A full node stays as it is. -/
def addChild (child : α) : KeyedNode α × Bool :=
  if n.isFull capacity then (n,false)
  else ({ header := { n.header with numChildren := n.header.numChildren+1 }
          keys := n.keys.set n.header.numChildren key
          children := n.children.set n.header.numChildren (some child) },true)

/-- The last child moves into the slot of the removed one. -/
def removeChild : KeyedNode α :=
  match n.findChildIndex key with
  | none => n
  | some i =>
    let last := n.header.numChildren-1
    { header := { n.header with numChildren := last }
      keys := if i = last then n.keys else n.keys.set i ((n.keys[last]?).getD 0)
      children :=
        if i = last then n.children.set i none else (n.children.set i (n.children[last]?).join).set last none }

def slots : List (Byte × Option α) := n.keys.zip n.children

def iterChildren : List (Byte × α) :=
  (n.slots.take n.header.numChildren).filterMap fun slot => slot.2.map fun child => (slot.1,child)

/-- `Node4` to `Node16`: every slot keeps its place. -/
def grow16 : KeyedNode α where
  header := n.header.resized n.header.numChildren
  keys := n.slots.map (fun slot => if slot.2.isSome then slot.1 else 0) ++ List.replicate 12 0
  children := n.children ++ List.replicate 12 none

/-- `Node16` to `Node48`: every slot keeps its place. -/
def grow48 : Node48 α where
  header := n.header.resized n.header.numChildren
  childIndex := n.slots.zipIdx.foldl (fun index slot => if slot.1.2.isSome then index.set slot.1.1.val slot.2 else index)
    (List.replicate 256 255)
  children := n.children ++ List.replicate 32 none

/-- `Node16` to `Node4`: the first four children. -/
def shrink4 : KeyedNode α :=
  let entries := (n.slots.filterMap fun slot => slot.2.map fun child => (slot.1,child)).take 4
  pack 4 (n.header.resized entries.length) entries

end KeyedNode

namespace Node48

variable (n : Node48 α) (key : Byte)

def slot : Nat := (n.childIndex[key.val]?).getD 255

def getChild : Option α :=
  if n.slot key ≠ 255 then (n.children[n.slot key]?).join else none

def setChild (child : α) : Node48 α :=
  if n.slot key ≠ 255 then { n with children := n.children.set (n.slot key) (some child) } else n

def isFull : Bool := decide (48 ≤ n.header.numChildren)

def findFreeSlot : Option Nat := n.children.findIdx? (·.isNone)

def addChild (child : α) : Node48 α × Bool :=
  if n.isFull then (n,false)
  else match n.findFreeSlot with
    | some slot =>
      ({ header := { n.header with numChildren := n.header.numChildren+1 }
         childIndex := n.childIndex.set key.val slot
         children := n.children.set slot (some child) },true)
    | none => (n,false)

def removeChild : Node48 α :=
  if n.slot key ≠ 255 then
    { header := { n.header with numChildren := n.header.numChildren-1 }
      childIndex := n.childIndex.set key.val 255
      children := n.children.set (n.slot key) none }
  else n

def iterChildren : List (Byte × α) := iterBytes n.getChild

def grow256 : Node256 α where
  header := n.header.resized n.header.numChildren
  children := (List.finRange 256).map n.getChild

/-- To `Node16`: the first sixteen children in byte order. -/
def shrink16 : KeyedNode α :=
  let entries := n.iterChildren.take 16
  .pack 16 (n.header.resized entries.length) entries

end Node48

namespace Node256

variable (n : Node256 α) (key : Byte)

def getChild : Option α := (n.children[key.val]?).join

def setChild (child : α) : Node256 α :=
  { n with children := n.children.set key.val (some child) }

def addChild (child : α) : Node256 α × Bool :=
  ({ header := if (n.getChild key).isNone then { n.header with numChildren := n.header.numChildren+1 } else n.header
     children := n.children.set key.val (some child) },true)

def removeChild : Node256 α where
  header := if (n.getChild key).isSome then { n.header with numChildren := n.header.numChildren-1 } else n.header
  children := n.children.set key.val none

def iterChildren : List (Byte × α) := iterBytes n.getChild

/-- To `Node48`: the first 48 children in byte order. -/
def shrink48 : Node48 α :=
  let entries := n.iterChildren.take 48
  { header := n.header.resized entries.length
    childIndex := entries.zipIdx.foldl (fun index entry => index.set entry.1.1.val entry.2) (List.replicate 256 255)
    children := entries.map (fun entry => some entry.2) ++ List.replicate (48-entries.length) none }

end Node256
end HeliosNano.Storage.Art
