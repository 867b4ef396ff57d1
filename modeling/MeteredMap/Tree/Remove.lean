import MeteredMap.Tree.Rotate
import MeteredMap.Tree.Walk

/-!
# Removal

A node with at most one child is spliced out of the tree. A node with two children keeps its
place and takes over the entry of its successor, whose node is spliced out instead. If the node
spliced out was black, the paths through its place lack a black level, which recolouring moves
upward and at most three rotations make good.

## Main definitions

* `MeteredMap.Tree.splice` : a node with at most one child, unlinked and taken out of its slot.
* `MeteredMap.Tree.repairRemove` : the colour rules restored where a black level is lacking.
* `MeteredMap.Tree.removeAt`, `MeteredMap.Tree.removeAtInto` : the entry at a handle removed, its
  memory given back.
-/

namespace MeteredMap

/-- What a removal answers with. -/
structure Removal where
  /-- The entry that was removed. -/
  entry : Entry
  /-- Where the entry is now that followed the removed one. -/
  next : Option Handle

namespace Tree

variable {α : Type}

/-! ### Unlinking -/

/-- Exchanges the entries of two nodes. Their links and colours stay. -/
def swapEntries (tree : Tree) (first second : Handle) : Except Fault Tree := do
  let nodes ← tree.nodes.modifyPair first second fun a b =>
    ({ a with entry := b.entry }, { b with entry := a.entry })
  return { tree with nodes }

/-- Unlinks a node that has at most one child: the child takes its place, and its slot is freed.
Answers with the node as it was. -/
def splice (tree : Tree) (handle : Handle) : Except Fault (Node × Tree) := do
  let node ← tree.node handle
  let child := node.left <|> node.right
  let tree ← tree.adopt child node.parent
  let tree ← tree.replaceChild node.parent handle child
  let (node, nodes) ← tree.nodes.take handle
  return (node, { tree with nodes })

/-! ### Repair -/

/-- The child of `parent` on a side, which has to be there. -/
def sibling (tree : Tree) (parent : Handle) (side : Side) : Except Fault Handle := do
  match (← tree.node parent).child side with
  | some sibling => return sibling
  | none => throw .missingSibling

/-- Makes sure that the sibling on the side away from `side` is black: a red one is turned above
`parent`, and a former nephew becomes the sibling. -/
def blackSibling (tree : Tree) (side : Side) (parent : Handle) : Except Fault (Handle × Tree) := do
  let sibling ← tree.sibling parent side.other
  match (← tree.node sibling).color with
  | .black => return (sibling, tree)
  | .red =>
    let tree ← tree.setColor sibling .black
    let tree ← tree.setColor parent .red
    let tree ← tree.rotate side parent
    return (← tree.sibling parent side.other, tree)

/-- Makes sure that the far nephew is red where one of the nephews is: a red near nephew is turned
above the sibling and becomes the sibling. -/
def redFarNephew (tree : Tree) (side : Side) (parent sibling : Handle) :
    Except Fault (Handle × Tree) := do
  let siblingNode ← tree.node sibling
  match ← tree.colorAt (siblingNode.child side.other) with
  | .red => return (sibling, tree)
  | .black =>
    match siblingNode.child side with
    | none => throw .missingNearNephew
    | some near =>
      let tree ← tree.setColor near .black
      let tree ← tree.setColor sibling .red
      let tree ← tree.rotate side.other sibling
      return (← tree.sibling parent side.other, tree)

/-- Ends a repair: the sibling is turned above `parent` and takes over its colour, and `parent`
and the far nephew below it become black. -/
def raiseSibling (tree : Tree) (side : Side) (parent sibling : Handle) : Except Fault Tree := do
  match (← tree.node sibling).child side.other with
  | none => throw .missingFarNephew
  | some far =>
    let tree ← tree.setColor sibling (← tree.node parent).color
    let tree ← tree.setColor parent .black
    let tree ← tree.setColor far .black
    tree.rotate side parent

/-- Makes good a black level that the paths through `lacking`, a child of `parent` that may be
absent, have too few, in at most `fuel` steps. Answers with the node that is to become black at
last. Two black nephews let the lack climb by recolouring the sibling; otherwise rotations end
it. -/
def repairRemoveWithin :
    (fuel : Nat) → Tree → (lacking parent : Option Handle) → Except Fault (Option Handle × Tree)
  | 0, _, _, _ => throw .endlessWalk
  | fuel + 1, tree, lacking, parent => do
    if lacking = tree.root then
      return (lacking, tree)
    match ← tree.colorAt lacking, parent with
    | .red, _ => return (lacking, tree)
    | .black, none => return (lacking, tree)
    | .black, some parent =>
      let side := if (← tree.node parent).left = lacking then Side.left else Side.right
      let (sibling, tree) ← tree.blackSibling side parent
      let siblingNode ← tree.node sibling
      let near ← tree.colorAt (siblingNode.child side)
      let far ← tree.colorAt (siblingNode.child side.other)
      match near, far with
      | .black, .black =>
        let tree ← tree.setColor sibling .red
        repairRemoveWithin fuel tree (some parent) (← tree.node parent).parent
      | _, _ =>
        let (sibling, tree) ← tree.redFarNephew side parent sibling
        let tree ← tree.raiseSibling side parent sibling
        return (tree.root, tree)

/-- Restores the colour rules after a black node was spliced out above `child` and below
`parent`. -/
def repairRemove (tree : Tree) (child parent : Option Handle) : Except Fault Tree := do
  let (last, tree) ← repairRemoveWithin tree.walkBound tree child parent
  match last with
  | none => return tree
  | some handle => tree.setColor handle .black

/-! ### The operation -/

/-- The memory after the two blocks of an entry went back to it. -/
def releaseBlocks [Allocator α] (tree : Tree) (memory : α) : α :=
  Allocator.release (Allocator.release memory tree.keyLayout) tree.valueLayout

/-- Brings the entry at `handle` to a node with at most one child. Answers with that node and with
the handle that the following entry has afterwards. -/
def isolate (tree : Tree) (handle : Handle) : Except Fault (Handle × Option Handle × Tree) := do
  let node ← tree.node handle
  match node.left, node.right with
  | some _, some right =>
    let successor ← tree.extreme .left right
    return (successor, some handle, ← tree.swapEntries handle successor)
  | _, _ => return (handle, ← tree.successor handle, tree)

/-- Removes the entry at `handle` and gives its two blocks back. -/
def removeAt [Allocator α] (tree : Tree) (memory : α) (handle : Handle) :
    Except Fault (Removal × Tree × α) := do
  let (target, next, tree) ← tree.isolate handle
  let (node, tree) ← tree.splice target
  let tree ←
    match node.color with
    | .red => pure tree
    | .black => tree.repairRemove (node.left <|> node.right) node.parent
  return (⟨node.entry, next⟩, tree, tree.releaseBlocks memory)

/-- Removes the entry at `handle` and copies its value into a buffer, which has to be as long.
Answers with the handle that the following entry has and with the buffer as it is afterwards. -/
def removeAtInto [Allocator α] (tree : Tree) (memory : α) (handle : Handle) (buffer : Blob) :
    Except Fault ((Option Handle × Blob) × Tree × α) := do
  let (removal, tree, memory) ← tree.removeAt memory handle
  let value := removal.entry.value
  if value.length = buffer.length then
    return ((removal.next, value), tree, memory)
  else
    throw (.bufferLength value.length buffer.length)

end Tree

end MeteredMap
