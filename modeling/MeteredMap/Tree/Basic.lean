import MeteredMap.Arena.Growth
import MeteredMap.Comparator
import MeteredMap.Tree.Node

/-!
# Trees

A map of blobs: a red-black tree whose nodes lie in an arena and name each other by handles. All
keys of a tree have one length and all values have one length, fixed when it is made.

This module holds the type, its constructors and access to single nodes. The operations of a map
are in the modules below `MeteredMap.Tree`.

## Main definitions

* `MeteredMap.Tree` : the tree.
* `MeteredMap.Tree.create`, `MeteredMap.Tree.withCapacity` : empty trees.
* `MeteredMap.Tree.checkKey`, `MeteredMap.Tree.checkValue` : the length rules.
* `MeteredMap.Tree.node`, `MeteredMap.Tree.update` : one node, read and changed.
-/

namespace MeteredMap

/-- A red-black tree over blobs of fixed lengths. -/
structure Tree where
  /-- The nodes. -/
  nodes : Arena Node
  /-- The node that all others are below. -/
  root : Option Handle
  /-- The layout of every key block. -/
  keyLayout : Layout
  /-- The layout of every value block. -/
  valueLayout : Layout
  /-- The order of the keys. -/
  comparator : Comparator

namespace Tree

/-! ### Construction -/

/-- The layouts of key and value blocks, where both lengths are usable. -/
def layouts (keySize valueSize : Nat) : Except MapError (Layout × Layout) := do
  if keySize = 0 then
    throw (.invalidArgument .zeroKeySize)
  if valueSize = 0 then
    throw (.invalidArgument .zeroValueSize)
  return (← Layout.block keySize, ← Layout.block valueSize)

/-- An empty tree. It asks for no memory before its first entry. -/
def create (keySize valueSize : Nat) (comparator : Comparator) : Except MapError Tree := do
  let (keyLayout, valueLayout) ← layouts keySize valueSize
  return { nodes := Arena.empty Node.footprint, root := none, keyLayout, valueLayout, comparator }

/-- An empty tree with room for `capacity` nodes, and the memory after asking for that room. -/
def withCapacity {α : Type} [Allocator α] (keySize valueSize capacity : Nat)
    (comparator : Comparator) (memory : α) : Except MapError Tree × α :=
  match layouts keySize valueSize with
  | .error e => (.error e, memory)
  | .ok (keyLayout, valueLayout) =>
    if Handle.maxIndex + 1 < capacity then
      (.error (.invalidArgument .capacityTooLarge), memory)
    else
      match Arena.withCapacity Node.footprint capacity memory with
      | (.error e, memory) => (.error e, memory)
      | (.ok nodes, memory) =>
        (.ok { nodes, root := none, keyLayout, valueLayout, comparator }, memory)

/-! ### Sizes -/

/-- The number of entries. -/
def size (tree : Tree) : Nat :=
  tree.nodes.live

/-- Whether there is no entry. -/
def isEmpty (tree : Tree) : Bool :=
  tree.nodes.isEmpty

/-- The number of nodes there is memory for. -/
def capacity (tree : Tree) : Nat :=
  tree.nodes.capacity

/-- The length of every key. -/
def keySize (tree : Tree) : Nat :=
  tree.keyLayout.size

/-- The length of every value. -/
def valueSize (tree : Tree) : Nat :=
  tree.valueLayout.size

/-- Refuses a key of the wrong length. -/
def checkKey (tree : Tree) (key : Blob) : Except MapError Unit :=
  if key.length = tree.keySize then .ok () else .error (.keySize tree.keySize key.length)

/-- Refuses a value, or a buffer for one, of the wrong length. -/
def checkValue (tree : Tree) (value : Blob) : Except MapError Unit :=
  if value.length = tree.valueSize then .ok () else .error (.valueSize tree.valueSize value.length)

/-! ### Single nodes -/

/-- The node at a handle. -/
def node (tree : Tree) (handle : Handle) : Except Fault Node :=
  tree.nodes.get handle

/-- The tree with the node at a handle changed. -/
def update (tree : Tree) (handle : Handle) (change : Node → Node) : Except Fault Tree := do
  return { tree with nodes := ← tree.nodes.modify handle change }

/-- The tree with the child of a node on a side replaced. -/
def setChild (tree : Tree) (handle : Handle) (side : Side) (child : Option Handle) :
    Except Fault Tree :=
  tree.update handle (·.withChild side child)

/-- The tree with the parent link of a node replaced. -/
def setParent (tree : Tree) (handle : Handle) (parent : Option Handle) : Except Fault Tree :=
  tree.update handle ({ · with parent })

/-- The tree with a node recoloured. -/
def setColor (tree : Tree) (handle : Handle) (color : Color) : Except Fault Tree :=
  tree.update handle ({ · with color })

/-- The colour of a node that may be absent. What is absent counts as black. -/
def colorAt (tree : Tree) : Option Handle → Except Fault Color
  | none => return .black
  | some handle => return (← tree.node handle).color

/-- A bound on the steps of every walk that follows links and meets no node twice. -/
def walkBound (tree : Tree) : Nat :=
  tree.nodes.slots.size + 1

end Tree

end MeteredMap
