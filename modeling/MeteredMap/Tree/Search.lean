import MeteredMap.Tree.Basic

/-!
# Searches

A search goes down from the root and asks the comparator at every node that it meets. What it met
and was told is kept as a list of visits, from which all else is read off: where the search
ended, and which calls of the comparator it made.

## Main definitions

* `MeteredMap.Visit` : one node met on the way down, with the comparator's answer.
* `MeteredMap.Arrival` : where a search ended.
* `MeteredMap.Tree.descend` : the visits of a search.
* `MeteredMap.Traced` : a result with the comparator calls made for it.
* `MeteredMap.Tree.search` : the node whose key counts as equal to a key.
-/

namespace MeteredMap

/-- One call of a comparator: the key looked for, and the stored key it was compared with. -/
structure Call where
  sought : Blob
  stored : Blob
  deriving DecidableEq

/-- A result together with the comparator calls made for it, in order. -/
structure Traced (ρ : Type) where
  value : ρ
  calls : List Call

/-- A node met on the way down, its key, and how the key looked for stands to it. -/
structure Visit where
  handle : Handle
  key : Blob
  answer : Ordering

/-- Where a search ended. -/
inductive Arrival where
  /-- At a node whose key counts as equal. -/
  | found (handle : Handle)
  /-- At an absent child of a node. -/
  | below (parent : Handle) (side : Side)
  /-- In a tree without a root. -/
  | nowhere

/-- The end of a search with these visits. -/
def Arrival.ofVisits (visits : List Visit) : Arrival :=
  match visits.getLast? with
  | none => .nowhere
  | some visit =>
    match visit.answer with
    | .lt => .below visit.handle .left
    | .eq => .found visit.handle
    | .gt => .below visit.handle .right

/-- The node that was found, if one was. -/
def Arrival.found? : Arrival → Option Handle
  | found handle => some handle
  | below .. => none
  | nowhere => none

/-- The node that a leaf put at the end of the search has above it. -/
def Arrival.parent? : Arrival → Option Handle
  | found _ => none
  | below parent _ => some parent
  | nowhere => none

/-- The comparator calls behind the visits of a search for `key`. -/
def Visit.calls (key : Blob) (visits : List Visit) : List Call :=
  visits.map fun visit => ⟨key, visit.key⟩

namespace Tree

/-- The visits of a search for `key` from `current` down, in at most `fuel` steps. -/
def descendWithin (tree : Tree) (key : Blob) :
    (fuel : Nat) → (current : Option Handle) → Except Fault (List Visit)
  | _, none => return []
  | 0, some _ => throw .endlessWalk
  | fuel + 1, some handle => do
    let node ← tree.node handle
    let visit : Visit := ⟨handle, node.entry.key, tree.comparator.compare key node.entry.key⟩
    match visit.answer with
    | .lt => return visit :: (← tree.descendWithin key fuel node.left)
    | .eq => return [visit]
    | .gt => return visit :: (← tree.descendWithin key fuel node.right)

/-- The visits of a search for `key` from the root down. -/
def descend (tree : Tree) (key : Blob) : Except Fault (List Visit) :=
  tree.descendWithin key tree.walkBound tree.root

/-- The node whose key counts as equal to `key`. The length of `key` does not matter here. -/
def search (tree : Tree) (key : Blob) : Except Fault (Traced (Option Handle)) := do
  let visits ← tree.descend key
  return ⟨(Arrival.ofVisits visits).found?, Visit.calls key visits⟩

end Tree

end MeteredMap
