import MeteredMap.Arena.Basic
import MeteredMap.Blob

/-!
# Nodes

A node of a red-black tree as it lies in a slot: an entry, a colour and the handles of its
neighbours.

## Main definitions

* `MeteredMap.Entry` : a key with its value.
* `MeteredMap.Color`, `MeteredMap.Node` : nodes and their colours.
* `MeteredMap.Node.child`, `MeteredMap.Node.withChild` : the link to a child, read and set by side.
-/

namespace MeteredMap

/-- A key with its value. -/
structure Entry where
  key : Blob
  value : Blob
  deriving DecidableEq

/-- The colour of a node. -/
inductive Color where
  | red
  | black
  deriving DecidableEq, Repr

/-- A node as it lies in a slot. -/
structure Node where
  entry : Entry
  color : Color
  parent : Option Handle
  left : Option Handle
  right : Option Handle

namespace Node

/-- The bytes that one node, and one slot of a table of nodes, counts. -/
def footprint : Nat := 48

/-- A node as it enters a tree: a red leaf. -/
def leaf (entry : Entry) (parent : Option Handle) : Node :=
  { entry, color := .red, parent, left := none, right := none }

/-- The child on a side. -/
def child (node : Node) : Side → Option Handle
  | .left => node.left
  | .right => node.right

/-- The node with another child on a side. -/
def withChild (node : Node) (side : Side) (child : Option Handle) : Node :=
  match side with
  | .left => { node with left := child }
  | .right => { node with right := child }

@[simp] theorem child_withChild_self (node : Node) (side : Side) (c : Option Handle) :
    (node.withChild side c).child side = c := by
  cases side <;> rfl

@[simp] theorem child_withChild_other (node : Node) (side : Side) (c : Option Handle) :
    (node.withChild side c).child side.other = node.child side.other := by
  cases side <;> rfl

end Node

end MeteredMap
