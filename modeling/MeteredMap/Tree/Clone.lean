import MeteredMap.Tree.Clear
import MeteredMap.Tree.Insert

/-!
# Cloning

A clone is built by inserting the entries of a tree, in order, into an empty tree with room for
exactly as many. If the memory refuses a request on the way, what was built goes back to it.

## Main definitions

* `MeteredMap.Tree.copyWithin` : the entries of a tree inserted into another.
* `MeteredMap.Tree.clone` : the operation on a map.
-/

namespace MeteredMap

namespace Tree

variable {α : Type}

/-- Inserts the entries of `source` from `current` on into `target`, in at most `fuel` steps, up
to the first that fails. -/
def copyWithin [Allocator α] (source : Tree) :
    (fuel : Nat) → (current : Option Handle) → (target : Tree) → α →
      Except Fault (Traced (Outcome Tree α (Except MapError Unit)))
  | _, none, target, memory => return ⟨⟨.ok (), target, memory⟩, []⟩
  | 0, some _, _, _ => throw .endlessWalk
  | fuel + 1, some handle, target, memory => do
    let node ← source.node handle
    let inserted ← target.insert memory node.entry.key node.entry.value
    match inserted.value with
    | ⟨.error e, target, memory⟩ => return ⟨⟨.error e, target, memory⟩, inserted.calls⟩
    | ⟨.ok _, target, memory⟩ =>
      let rest ← copyWithin source fuel (← source.successor handle) target memory
      return ⟨rest.value, inserted.calls ++ rest.calls⟩

/-- A tree of its own with the same entries, sizes and comparator, and the memory after it was
made. The comparator calls are those of the insertions. -/
def clone [Allocator α] (tree : Tree) (memory : α) :
    Except Fault (Traced (Except MapError Tree × α)) := do
  match withCapacity tree.keySize tree.valueSize tree.size tree.comparator memory with
  | (.error e, memory) => return ⟨(.error e, memory), []⟩
  | (.ok target, memory) =>
    let copied ← copyWithin tree tree.walkBound (← tree.first) target memory
    match copied.value with
    | ⟨.ok (), target, memory⟩ => return ⟨(.ok target, memory), copied.calls⟩
    | ⟨.error e, target, memory⟩ => return ⟨(.error e, ← target.dispose memory), copied.calls⟩

end Tree

end MeteredMap
