import MeteredMap.Tree.Lookup

/-!
# Cursors

A cursor is at an entry of a tree or at the ghost, the position behind the last entry and before
the first, which makes the positions a ring. The tree is passed to every operation; those that
change it hand it back. A cursor may remove the entry it is at, and is then at the one that
followed.

## Main definitions

* `MeteredMap.Cursor` : a position.
* `MeteredMap.Cursor.move` : to the next position on a side.
* `MeteredMap.Cursor.entry?`, `MeteredMap.Cursor.readInto` : the entry at the position.
* `MeteredMap.Cursor.setValue`, `MeteredMap.Cursor.overwrite`, `MeteredMap.Cursor.remove` :
  changes at the position.
-/

namespace MeteredMap

/-- A position: at an entry, or at the ghost. -/
structure Cursor where
  current : Option Handle

/-- A cursor at the first entry or at the last entry. -/
def Tree.cursor (tree : Tree) (side : Side) : Except Fault Cursor :=
  Cursor.mk <$> tree.outermost side

namespace Cursor

variable {α : Type}

/-- Whether the cursor is at an entry. -/
def isValid (cursor : Cursor) : Bool :=
  cursor.current.isSome

/-- The cursor one position further toward `side`. From the ghost it comes to the entry that is
outermost on the opposite side. -/
def move (cursor : Cursor) (tree : Tree) (side : Side) : Except Fault Cursor :=
  match cursor.current with
  | some handle => Cursor.mk <$> tree.neighbor side handle
  | none => Cursor.mk <$> tree.outermost side.other

/-- The entry that the cursor is at. -/
def entry? (cursor : Cursor) (tree : Tree) : Except Fault (Option Entry) :=
  match cursor.current with
  | some handle => some <$> tree.entry handle
  | none => return none

/-- The entry that the cursor is at, copied into a buffer for the key and one for the value.
Answers with the buffers as they are afterwards. -/
def readInto (cursor : Cursor) (tree : Tree) (key value : Blob) :
    Except Fault (Except MapError Unit × Entry) := do
  match cursor.current with
  | none => return (.error .invalidCursor, ⟨key, value⟩)
  | some handle =>
    match tree.checkKey key, tree.checkValue value with
    | .error e, _ => return (.error e, ⟨key, value⟩)
    | .ok (), .error e => return (.error e, ⟨key, value⟩)
    | .ok (), .ok () => return (.ok (), ← tree.entry handle)

/-- Replaces the value at the position by one of the same length. -/
def setValue (cursor : Cursor) (tree : Tree) (value : Blob) :
    Except Fault (Except MapError Unit × Tree) := do
  match cursor.current with
  | none => return (.error .invalidCursor, tree)
  | some handle =>
    match tree.checkValue value with
    | .error e => return (.error e, tree)
    | .ok () => return (.ok (), ← tree.overwriteAt handle value 0)

/-- Writes `bytes` over the value at the position from `offset` on, as far as they fit. Answers
with the value as it was, or nothing at the ghost. -/
def overwrite (cursor : Cursor) (tree : Tree) (bytes : Blob) (offset : Nat) :
    Except Fault (Option Blob × Tree) := do
  match cursor.current with
  | none => return (none, tree)
  | some handle =>
    let entry ← tree.entry handle
    return (some entry.value, ← tree.overwriteAt handle bytes offset)

/-- Removes the entry at the position. The cursor is then at the entry that followed it. -/
def remove [Allocator α] (cursor : Cursor) (tree : Tree) (memory : α) :
    Except Fault (Cursor × Outcome Tree α (Except MapError Unit)) := do
  match cursor.current with
  | none => return (cursor, ⟨.error .invalidCursor, tree, memory⟩)
  | some handle =>
    let (removal, tree, memory) ← tree.removeAt memory handle
    return (⟨removal.next⟩, ⟨.ok (), tree, memory⟩)

end Cursor

end MeteredMap
