import MeteredMap.Tree.Remove
import MeteredMap.Tree.Search

/-!
# Operations by key

The operations of a map that name an entry by its key: reading it, changing its value in place
and removing it. The length of the key is checked before the comparator is asked anything. Where
a buffer for the value is passed in, its length is checked as well, and it comes back as it was
unless the operation succeeds.

## Main definitions

* `MeteredMap.Tree.find` : the handle of a key.
* `MeteredMap.Tree.get`, `MeteredMap.Tree.getKeyValue`, `MeteredMap.Tree.getInto`,
  `MeteredMap.Tree.contains` : reading.
* `MeteredMap.Tree.overwrite` : changing a value.
* `MeteredMap.Tree.remove`, `MeteredMap.Tree.removeInto` : removing.
-/

namespace MeteredMap

namespace Tree

variable {α ρ : Type}

/-- The handle of the entry whose key counts as equal to `key`. -/
def find (tree : Tree) (key : Blob) : Except Fault (Traced (Except MapError Handle)) := do
  match tree.checkKey key with
  | .error e => return ⟨.error e, []⟩
  | .ok () =>
    let searched ← tree.search key
    match searched.value with
    | none => return ⟨.error .keyNotFound, searched.calls⟩
    | some handle => return ⟨.ok handle, searched.calls⟩

/-! ### Reading -/

/-- The entry stored at a handle. -/
def entry (tree : Tree) (handle : Handle) : Except Fault Entry :=
  return (← tree.node handle).entry

/-- The stored key that counts as equal to `key`, and its value. -/
def getKeyValue (tree : Tree) (key : Blob) : Except Fault (Traced (Except MapError Entry)) := do
  let found ← tree.find key
  match found.value with
  | .error e => return ⟨.error e, found.calls⟩
  | .ok handle => return ⟨.ok (← tree.entry handle), found.calls⟩

/-- The value of a key. -/
def get (tree : Tree) (key : Blob) : Except Fault (Traced (Except MapError Blob)) := do
  let got ← tree.getKeyValue key
  return ⟨got.value.map Entry.value, got.calls⟩

/-- The value of a key, copied into a buffer. Answers with the buffer as it is afterwards. -/
def getInto (tree : Tree) (key buffer : Blob) :
    Except Fault (Traced (Except MapError Unit × Blob)) := do
  match tree.checkKey key, tree.checkValue buffer with
  | .error e, _ => return ⟨(.error e, buffer), []⟩
  | .ok (), .error e => return ⟨(.error e, buffer), []⟩
  | .ok (), .ok () =>
    let got ← tree.get key
    match got.value with
    | .error e => return ⟨(.error e, buffer), got.calls⟩
    | .ok value => return ⟨(.ok (), value), got.calls⟩

/-- Whether a key counts as equal to a stored one. A key of the wrong length does not. -/
def contains (tree : Tree) (key : Blob) : Except Fault (Traced Bool) := do
  let found ← tree.find key
  return ⟨found.value.toBool, found.calls⟩

/-- The first entry or the last entry, if there is one. -/
def outermostEntry (tree : Tree) (side : Side) : Except Fault (Option Entry) := do
  match ← tree.outermost side with
  | none => return none
  | some handle => some <$> tree.entry handle

/-! ### Changing -/

/-- The tree with `bytes` written over the value at a handle from `offset` on. -/
def overwriteAt (tree : Tree) (handle : Handle) (bytes : Blob) (offset : Nat) :
    Except Fault Tree :=
  tree.update handle fun node =>
    { node with entry.value := node.entry.value.overwrite bytes offset }

/-- Writes `bytes` over the value of a key from `offset` on, as far as they fit. Answers with the
value as it was. -/
def overwrite (tree : Tree) (key bytes : Blob) (offset : Nat) :
    Except Fault (Traced (Except MapError Blob × Tree)) := do
  let found ← tree.find key
  match found.value with
  | .error e => return ⟨(.error e, tree), found.calls⟩
  | .ok handle =>
    let entry ← tree.entry handle
    return ⟨(.ok entry.value, ← tree.overwriteAt handle bytes offset), found.calls⟩

/-! ### Removing -/

/-- Removes the entry of a key. Answers with the entry. -/
def extract [Allocator α] (tree : Tree) (memory : α) (key : Blob) :
    Except Fault (Traced (Outcome Tree α (Except MapError Entry))) := do
  let found ← tree.find key
  match found.value with
  | .error e => return ⟨⟨.error e, tree, memory⟩, found.calls⟩
  | .ok handle =>
    let (removal, tree, memory) ← tree.removeAt memory handle
    return ⟨⟨.ok removal.entry, tree, memory⟩, found.calls⟩

/-- Removes the entry of a key. -/
def remove [Allocator α] (tree : Tree) (memory : α) (key : Blob) :
    Except Fault (Traced (Outcome Tree α (Except MapError Unit))) := do
  let ⟨⟨answer, tree, memory⟩, calls⟩ ← tree.extract memory key
  return ⟨⟨answer.map fun _ => (), tree, memory⟩, calls⟩

/-- Removes the entry of a key and copies its value into a buffer. Answers with the buffer as it
is afterwards. -/
def removeInto [Allocator α] (tree : Tree) (memory : α) (key buffer : Blob) :
    Except Fault (Traced (Outcome Tree α (Except MapError Unit × Blob))) := do
  match tree.checkKey key, tree.checkValue buffer with
  | .error e, _ => return ⟨⟨(.error e, buffer), tree, memory⟩, []⟩
  | .ok (), .error e => return ⟨⟨(.error e, buffer), tree, memory⟩, []⟩
  | .ok (), .ok () =>
    let found ← tree.find key
    match found.value with
    | .error e => return ⟨⟨(.error e, buffer), tree, memory⟩, found.calls⟩
    | .ok handle =>
      let ((_, buffer), tree, memory) ← tree.removeAtInto memory handle buffer
      return ⟨⟨(.ok (), buffer), tree, memory⟩, found.calls⟩

end Tree

end MeteredMap
