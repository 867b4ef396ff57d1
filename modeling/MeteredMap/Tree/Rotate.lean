import MeteredMap.Tree.Basic

/-!
# Rotations

A rotation turns the link between a node and one of its children around. It moves one subtree
across and keeps the order of the entries. Both forms are one definition, for the side that the
upper node sinks to.

## Main definitions

* `MeteredMap.Tree.replaceChild` : the link that leads to a node, led elsewhere.
* `MeteredMap.Tree.rotate` : a rotation toward a side.
-/

namespace MeteredMap

namespace Tree

/-- Leads the link from `parent` to `old` to `new` instead. Without a parent, `old` is the root. -/
def replaceChild (tree : Tree) (parent : Option Handle) (old : Handle) (new : Option Handle) :
    Except Fault Tree :=
  match parent with
  | none => return { tree with root := new }
  | some parent => do
    let node ← tree.node parent
    if node.left = some old then
      tree.setChild parent .left new
    else if node.right = some old then
      tree.setChild parent .right new
    else
      throw .notAChild

/-- Sets the parent link of a node that may be absent. -/
def adopt (tree : Tree) (child : Option Handle) (parent : Option Handle) : Except Fault Tree :=
  match child with
  | none => return tree
  | some child => tree.setParent child parent

/-- Turns the node at `handle` toward `side`: its child on the other side, the pivot, takes its
place, it becomes the pivot's child on `side`, and what the pivot had there goes between them. -/
def rotate (tree : Tree) (side : Side) (handle : Handle) : Except Fault Tree := do
  let node ← tree.node handle
  match node.child side.other with
  | none => throw (.missingPivot side)
  | some pivot =>
    let inner := (← tree.node pivot).child side
    let tree ← tree.setChild handle side.other inner
    let tree ← tree.adopt inner (some handle)
    let tree ← tree.setParent pivot node.parent
    let tree ← tree.replaceChild node.parent handle (some pivot)
    let tree ← tree.setChild pivot side (some handle)
    tree.setParent handle (some pivot)

end Tree

end MeteredMap
