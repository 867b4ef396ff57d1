import MeteredMap.Tree.Basic

/-!
# Walks

Ways from node to node along the links of a tree. Each walk is bounded by the number of slots,
which no walk in a tree reaches; links that are no tree make it end in `Fault.endlessWalk`.

## Main definitions

* `MeteredMap.Tree.extreme` : the outermost node of a subtree on a side.
* `MeteredMap.Tree.neighbor` : the node that comes next in order on a side.
* `MeteredMap.Tree.outermost` : the first or the last node of the tree.
* `MeteredMap.Tree.height` : the number of nodes on the longest path from the root down.
-/

namespace MeteredMap

namespace Tree

/-- The outermost node on a side below `handle`, in at most `fuel` steps. -/
def extremeWithin (tree : Tree) (side : Side) : Nat → Handle → Except Fault Handle
  | 0, _ => throw .endlessWalk
  | fuel + 1, handle => do
    match (← tree.node handle).child side with
    | none => return handle
    | some child => tree.extremeWithin side fuel child

/-- The outermost node on a side of the subtree at `handle`: its first node on the left, its last
node on the right. -/
def extreme (tree : Tree) (side : Side) (handle : Handle) : Except Fault Handle :=
  tree.extremeWithin side tree.walkBound handle

/-- The outermost node of the whole tree on a side. -/
def outermost (tree : Tree) (side : Side) : Except Fault (Option Handle) :=
  match tree.root with
  | none => return none
  | some root => some <$> tree.extreme side root

/-- The first node in order. -/
def first (tree : Tree) : Except Fault (Option Handle) :=
  tree.outermost .left

/-- The last node in order. -/
def last (tree : Tree) : Except Fault (Option Handle) :=
  tree.outermost .right

/-- The nearest node above `handle` that has it on the side away from `side`, in at most `fuel`
steps. -/
def climbWithin (tree : Tree) (side : Side) : Nat → Handle → Except Fault (Option Handle)
  | 0, _ => throw .endlessWalk
  | fuel + 1, handle => do
    match (← tree.node handle).parent with
    | none => return none
    | some parent =>
      if (← tree.node parent).child side.other = some handle then
        return some parent
      else
        tree.climbWithin side fuel parent

/-- The node that comes next in order on a side: the nearest one below on that side or, if there
is none, the nearest one above that has `handle` on its other side. -/
def neighbor (tree : Tree) (side : Side) (handle : Handle) : Except Fault (Option Handle) := do
  match (← tree.node handle).child side with
  | some child => some <$> tree.extreme side.other child
  | none => tree.climbWithin side tree.walkBound handle

/-- The node after `handle` in order. -/
def successor (tree : Tree) (handle : Handle) : Except Fault (Option Handle) :=
  tree.neighbor .right handle

/-- The node before `handle` in order. -/
def predecessor (tree : Tree) (handle : Handle) : Except Fault (Option Handle) :=
  tree.neighbor .left handle

/-- The largest of `best` and the depths reached from the nodes that wait, each with its own
depth, in at most `fuel` steps. -/
def deepestWithin (tree : Tree) :
    (fuel : Nat) → (waiting : List (Handle × Nat)) → (best : Nat) → Except Fault Nat
  | _, [], best => return best
  | 0, _ :: _, _ => throw .endlessWalk
  | fuel + 1, (handle, depth) :: waiting, best => do
    let node ← tree.node handle
    let below (child : Option Handle) := child.toList.map (·, depth + 1)
    tree.deepestWithin fuel (below node.right ++ (below node.left ++ waiting)) (max best depth)

/-- The number of nodes on the longest path from the root down. -/
def height (tree : Tree) : Except Fault Nat :=
  tree.deepestWithin tree.walkBound (tree.root.toList.map (·, 1)) 0

end Tree

end MeteredMap
