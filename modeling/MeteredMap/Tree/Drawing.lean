import MeteredMap.Tree.Basic

/-!
# Drawings

The whole of a tree read off its links at one moment, from the root down, with everything that
lies in its slots.

## Main definitions

* `MeteredMap.Drawing` : nodes with their handles, nested as their links lead.
* `MeteredMap.Tree.drawing` : the drawing of a tree.
-/

namespace MeteredMap

/-- Nodes with their handles, nested as their child links lead. -/
inductive Drawing where
  | absent
  | node (handle : Handle) (node : Node) (left right : Drawing)

namespace Tree

/-- What is found from `current` down, over at most `fuel` levels. -/
def drawWithin (tree : Tree) : (fuel : Nat) → (current : Option Handle) → Except Fault Drawing
  | _, none => return .absent
  | 0, some _ => throw .endlessWalk
  | fuel + 1, some handle => do
    let node ← tree.node handle
    let left ← tree.drawWithin fuel node.left
    let right ← tree.drawWithin fuel node.right
    return .node handle node left right

/-- The tree as its links lead from the root down. -/
def drawing (tree : Tree) : Except Fault Drawing :=
  tree.drawWithin tree.walkBound tree.root

end Tree

end MeteredMap
