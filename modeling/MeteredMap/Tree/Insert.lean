import MeteredMap.Tree.Rotate
import MeteredMap.Tree.Search

/-!
# Insertion

A new entry is linked as a red leaf where the search for its key ended. All memory is asked for
beforehand, so an insertion that is refused some has changed nothing. A red leaf below a red node
is then repaired by recolouring upward and at most two rotations.

## Main definitions

* `MeteredMap.Tree.link` : a new leaf with blocks of its own.
* `MeteredMap.Tree.repairInsert` : the colour rules restored above a new red leaf.
* `MeteredMap.Tree.insert` : the operation on a map.
-/

namespace MeteredMap

namespace Tree

variable {α : Type}

/-! ### Linking a leaf -/

/-- Leads the link at the end of a search to a node. -/
def attach (tree : Tree) (arrival : Arrival) (handle : Handle) : Except Fault Tree :=
  match arrival with
  | .found _ => return tree
  | .below parent side => tree.setChild parent side (some handle)
  | .nowhere => return { tree with root := some handle }

/-- Links a new red leaf at the end of a failed search. A key block, a value block and room for
the node are asked for, in this order; if one is refused, those before it go back and the tree
stays as it was. -/
def link [Allocator α] (tree : Tree) (memory : α) (entry : Entry) (arrival : Arrival) :
    Except Fault (Outcome Tree α (Except MapError Handle)) := do
  match Allocator.allocate memory tree.keyLayout with
  | .refused memory => return ⟨.error .noMemory, tree, memory⟩
  | .granted memory =>
    match Allocator.allocate memory tree.valueLayout with
    | .refused memory =>
      return ⟨.error .noMemory, tree, Allocator.release memory tree.keyLayout⟩
    | .granted memory =>
      let ⟨reserved, nodes, memory⟩ := tree.nodes.reserve memory
      match reserved with
      | .error e =>
        let memory := Allocator.release memory tree.keyLayout
        return ⟨.error e, { tree with nodes }, Allocator.release memory tree.valueLayout⟩
      | .ok () =>
        let (handle, nodes, memory) ← nodes.insert memory (Node.leaf entry arrival.parent?)
        let tree ← attach { tree with nodes } arrival handle
        return ⟨.ok handle, tree, memory⟩

/-! ### Repair -/

/-- Turns the red child `middle` on `side` of `top` above it, and makes it black and `top` red. -/
def raiseMiddle (tree : Tree) (side : Side) (middle top : Handle) : Except Fault Tree := do
  let tree ← tree.rotate side.other top
  let tree ← tree.setColor middle .black
  tree.setColor top .red

/-- Ends a repair below a black uncle. `parent` is on `side` of `grandparent` and is raised above
it; a child on the inner side of `parent` is turned above `parent` first and raised instead. -/
def raiseRed (tree : Tree) (side : Side) (handle parent grandparent : Handle) :
    Except Fault Tree := do
  if (← tree.node parent).child side.other = some handle then
    let tree ← tree.rotate side parent
    tree.raiseMiddle side handle grandparent
  else
    tree.raiseMiddle side parent grandparent

/-- Restores the rule that no red node has a red child, where only the red node at `handle` may
break it, in at most `fuel` steps. A red uncle lets the conflict climb two levels by recolouring;
otherwise rotations end it. -/
def repairInsertWithin : (fuel : Nat) → Tree → Handle → Except Fault Tree
  | 0, _, _ => throw .endlessWalk
  | fuel + 1, tree, handle => do
    match (← tree.node handle).parent with
    | none => return tree
    | some parent =>
      let parentNode ← tree.node parent
      match parentNode.color, parentNode.parent with
      | .black, _ => return tree
      | .red, none => throw .redRoot
      | .red, some grandparent =>
        let grandparentNode ← tree.node grandparent
        let side := if grandparentNode.left = some parent then Side.left else Side.right
        let uncle := grandparentNode.child side.other
        match uncle, ← tree.colorAt uncle with
        | some uncle, .red =>
          let tree ← tree.setColor parent .black
          let tree ← tree.setColor uncle .black
          let tree ← tree.setColor grandparent .red
          repairInsertWithin fuel tree grandparent
        | _, _ => tree.raiseRed side handle parent grandparent

/-- Makes the root black, if there is one. -/
def blackenRoot (tree : Tree) : Except Fault Tree :=
  match tree.root with
  | none => return tree
  | some root => tree.setColor root .black

/-- Restores the colour rules after a red leaf was linked at `handle`. -/
def repairInsert (tree : Tree) (handle : Handle) : Except Fault Tree := do
  let tree ← repairInsertWithin tree.walkBound tree handle
  tree.blackenRoot

/-! ### The operation -/

/-- Inserts an entry and answers with its handle. The length of the key is checked first, then
that of the value; a key that counts as equal to a stored one is refused. -/
def insert [Allocator α] (tree : Tree) (memory : α) (key value : Blob) :
    Except Fault (Traced (Outcome Tree α (Except MapError Handle))) := do
  match tree.checkKey key, tree.checkValue value with
  | .error e, _ => return ⟨⟨.error e, tree, memory⟩, []⟩
  | .ok (), .error e => return ⟨⟨.error e, tree, memory⟩, []⟩
  | .ok (), .ok () =>
    let visits ← tree.descend key
    let calls := Visit.calls key visits
    match Arrival.ofVisits visits with
    | .found _ => return ⟨⟨.error .keyExists, tree, memory⟩, calls⟩
    | arrival =>
      let linked ← tree.link memory ⟨key, value⟩ arrival
      match linked.answer with
      | .error _ => return ⟨linked, calls⟩
      | .ok handle =>
        let tree ← linked.state.repairInsert handle
        return ⟨⟨.ok handle, tree, linked.memory⟩, calls⟩

end Tree

end MeteredMap
