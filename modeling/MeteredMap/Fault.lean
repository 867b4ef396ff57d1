import MeteredMap.Side

/-!
# Faults

A fault is a broken promise inside the library or at its handle-level interface: a handle that
is not live, or links that do not form a tree. It ends the run that meets it. Failures that a
caller of the map may expect are `MapError`s and never faults.

## Main definitions

* `MeteredMap.Fault` : the promise that was broken.
* `MeteredMap.Fault.message` : the same in words.
-/

namespace MeteredMap

/-- A promise that was broken. -/
inductive Fault where
  /-- A handle was asked for beyond the last one. -/
  | handleTooLarge
  /-- A handle lies beyond the slot table. -/
  | beyondTable (length index : Nat)
  /-- A slot to read is vacant. -/
  | vacantRead
  /-- A slot to change is vacant. -/
  | vacantChange
  /-- A slot to empty is vacant. -/
  | vacantTake
  /-- Of a pair of slots, the first is vacant. -/
  | vacantFirst
  /-- Of a pair of slots, the second is vacant. -/
  | vacantSecond
  /-- A pair of slots is one slot twice. -/
  | equalPair (index : Nat)
  /-- A slot table was divided beyond its end. -/
  | splitBeyondEnd
  /-- The chain of vacant slots runs through an occupied one. -/
  | occupiedInChain
  /-- There is no handle left for another slot. -/
  | noHandleLeft
  /-- The memory refused a table that had to grow. -/
  | growthRefused
  /-- A node to turn toward `toward` has no child on the other side. -/
  | missingPivot (toward : Side)
  /-- A red node has no parent. -/
  | redRoot
  /-- A node that lacks a black level has no sibling. -/
  | missingSibling
  /-- The nephew near the lacking node is absent where it has to be red. -/
  | missingNearNephew
  /-- The nephew far from the lacking node is absent where it has to be red. -/
  | missingFarNephew
  /-- A node is no child of the node that its link names as parent. -/
  | notAChild
  /-- A buffer is not as long as the value to copy into it. -/
  | bufferLength (value buffer : Nat)
  /-- A walk along links took more steps than there are slots. -/
  | endlessWalk
  deriving DecidableEq, Repr

/-- The fault in words. -/
def Fault.message : Fault → String
  | handleTooLarge => "`Handle::from_index()` - `index` > `Handle::MAX`!"
  | beyondTable length index =>
    "index out of bounds: the len is " ++ toString length ++ " but the index is " ++ toString index
  | vacantRead => "`Arena::get()` - `handle` is invalid!"
  | vacantChange => "`Arena::get_mut()` - `handle` is invalid!"
  | vacantTake => "`Arena::take()` - `handle` is invalid!"
  | vacantFirst => "`Arena::get_pair_mut()` - `a` is invalid!"
  | vacantSecond => "`Arena::get_pair_mut()` - `b` is invalid!"
  | equalPair index =>
    "assertion `left != right` failed: `Arena::get_pair_mut()` - handles must differ!\n  left: "
      ++ toString index ++ "\n right: " ++ toString index
  | splitBeyondEnd => "mid > len"
  | occupiedInChain => "`Arena::alloc()` - free list points at an occupied slot!"
  | noHandleLeft => "`Arena::alloc()` - arena is at maximum capacity!"
  | growthRefused => "memory allocation failed"
  | missingPivot .left => "`rotate_left()` - node has no right child!"
  | missingPivot .right => "`rotate_right()` - node has no left child!"
  | redRoot => "`insert_fixup()` - a red node cannot be the root!"
  | missingSibling => "`remove_fixup()` - a double-black node must have a sibling!"
  | missingNearNephew => "`remove_fixup()` - near nephew must be red!"
  | missingFarNephew => "`remove_fixup()` - far nephew must be red!"
  | notAChild => "`replace_child()` - `old` is not a child of `parent`!"
  | bufferLength value buffer =>
    "copy_from_slice: source slice length (" ++ toString value
      ++ ") does not match destination slice length (" ++ toString buffer ++ ")"
  | endlessWalk => "the links do not form a tree"

end MeteredMap
