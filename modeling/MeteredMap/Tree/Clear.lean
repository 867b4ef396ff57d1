import MeteredMap.Tree.Remove

/-!
# Clearing

All entries of a tree given back at once, children before their parents, without any repair. The
slot table stays with a tree that is cleared, and goes as well with one that is disposed of.

## Main definitions

* `MeteredMap.Tree.clear` : the tree without entries.
* `MeteredMap.Tree.dispose` : the memory after all of a tree went back to it.
-/

namespace MeteredMap

namespace Tree

variable {α : Type}

/-- Takes all nodes at or below the handles that wait out of their slots and gives their blocks
back, in at most `fuel` steps. Going down takes a link off the node that is left, so a node
without links has no nodes below it any more. -/
def clearWithin [Allocator α] :
    (fuel : Nat) → (waiting : List Handle) → Tree → α → Except Fault (Tree × α)
  | _, [], tree, memory => return (tree, memory)
  | 0, _ :: _, _, _ => throw .endlessWalk
  | fuel + 1, handle :: waiting, tree, memory => do
    let node ← tree.node handle
    match node.left, node.right with
    | some left, _ =>
      let tree ← tree.setChild handle .left none
      clearWithin fuel (left :: handle :: waiting) tree memory
    | none, some right =>
      let tree ← tree.setChild handle .right none
      clearWithin fuel (right :: handle :: waiting) tree memory
    | none, none =>
      let (_, nodes) ← tree.nodes.take handle
      clearWithin fuel waiting { tree with nodes } (tree.releaseBlocks memory)

/-- Removes every entry and gives its blocks back. The slot table is emptied and kept. Each node
is met at most three times: once for either child, and once without any. -/
def clear [Allocator α] (tree : Tree) (memory : α) : Except Fault (Tree × α) := do
  let waiting := tree.root.toList
  let (tree, memory) ← clearWithin (3 * tree.walkBound) waiting { tree with root := none } memory
  return ({ tree with nodes := tree.nodes.clear }, memory)

/-- The memory after everything that the tree holds went back to it: the entries, then the slot
table. -/
def dispose [Allocator α] (tree : Tree) (memory : α) : Except Fault α := do
  let (tree, memory) ← tree.clear memory
  return tree.nodes.releaseTable memory

end Tree

end MeteredMap
