import MeteredMap.Tree.Lookup

/-!
# Iterators

A double-ended iterator over the entries of a tree. Its two ends walk toward each other, each from
node to node, and a count of what is left stops them when they meet. The tree is passed to every
step; an iterator is only good for the tree it was made from.

## Main definitions

* `MeteredMap.Iterator` : two ends and the number of entries between them.
* `MeteredMap.Iterator.take`, `MeteredMap.Iterator.nth`, `MeteredMap.Iterator.drain` : entries
  taken from either end.
* `MeteredMap.View`, `MeteredMap.Item` : what of an entry an iteration shows.
* `MeteredMap.Tree.entries`, `MeteredMap.Tree.sameEntries` : all entries in order, and equality of
  maps.
-/

namespace MeteredMap

/-- What is left of an iteration. -/
structure Iterator where
  /-- The next node from the front. -/
  front : Option Handle
  /-- The next node from the back. -/
  back : Option Handle
  /-- The number of entries left. -/
  remaining : Nat

/-- An iteration over all entries. -/
def Tree.iterator (tree : Tree) : Except Fault Iterator := do
  return { front := ← tree.first, back := ← tree.last, remaining := tree.size }

namespace Iterator

/-- The next node from an end: from the front on the left, from the back on the right. -/
def endAt (it : Iterator) : Side → Option Handle
  | .left => it.front
  | .right => it.back

/-- The iteration with one entry less, the end on `side` moved to another node. -/
def advance (it : Iterator) (side : Side) (next : Option Handle) : Iterator :=
  match side with
  | .left => { it with front := next, remaining := it.remaining - 1 }
  | .right => { it with back := next, remaining := it.remaining - 1 }

/-- Takes the next entry from an end, if one is left. -/
def take (it : Iterator) (tree : Tree) (side : Side) : Except Fault (Option Entry × Iterator) := do
  if it.remaining = 0 then
    return (none, it)
  match it.endAt side with
  | none => return (none, it)
  | some handle =>
    let next ← tree.neighbor side.other handle
    return (some (← tree.entry handle), it.advance side next)

/-- Takes the next entry from the front. -/
def next (it : Iterator) (tree : Tree) : Except Fault (Option Entry × Iterator) :=
  it.take tree .left

/-- Takes the next entry from the back. -/
def nextBack (it : Iterator) (tree : Tree) : Except Fault (Option Entry × Iterator) :=
  it.take tree .right

/-- Drops `n` entries from an end and takes the one behind them. If fewer are left, all are
dropped and nothing is taken. -/
def nth (it : Iterator) (tree : Tree) (side : Side) : Nat → Except Fault (Option Entry × Iterator)
  | 0 => it.take tree side
  | n + 1 => do
    match ← it.take tree side with
    | (none, it) => return (none, it)
    | (some _, it) => it.nth tree side n

/-- Bounds for the number of entries left. Both are that number. -/
def sizeHint (it : Iterator) : Nat × Option Nat :=
  (it.remaining, some it.remaining)

/-- The last entry that is left. -/
def last (it : Iterator) (tree : Tree) : Except Fault (Option Entry) := do
  return (← it.nextBack tree).1

/-- The entries taken from an end until none is left, at most `n`. -/
def drainUpTo (tree : Tree) (side : Side) : Nat → Iterator → Except Fault (List Entry)
  | 0, _ => return []
  | n + 1, it => do
    match ← it.take tree side with
    | (none, _) => return []
    | (some entry, it) => return entry :: (← drainUpTo tree side n it)

/-- The entries that are left, taken from an end: in order from the left, backwards from the
right. -/
def drain (it : Iterator) (tree : Tree) (side : Side) : Except Fault (List Entry) :=
  drainUpTo tree side it.remaining it

end Iterator

/-! ### Views -/

/-- What of each entry an iteration shows. -/
inductive View where
  | entries
  | keys
  | values
  deriving DecidableEq

/-- What an iteration shows of one entry. -/
inductive Item where
  | entry (entry : Entry)
  | blob (bytes : Blob)
  deriving DecidableEq

/-- The entry as the view shows it. -/
def View.item (view : View) (entry : Entry) : Item :=
  match view with
  | .entries => .entry entry
  | .keys => .blob entry.key
  | .values => .blob entry.value

/-! ### All entries -/

namespace Tree

/-- All entries in order. -/
def entries (tree : Tree) : Except Fault (List Entry) := do
  (← tree.iterator).drain tree .left

/-- Whether two maps hold the same entries in the same order. -/
def sameEntries (tree other : Tree) : Except Fault Bool := do
  if tree.size = other.size then
    return (← tree.entries) = (← other.entries)
  else
    return false

end Tree

end MeteredMap
