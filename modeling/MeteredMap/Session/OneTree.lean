import MeteredMap.Memory.Budget
import MeteredMap.Session.Transcript
import MeteredMap.Tree.Clone
import MeteredMap.Tree.Drawing
import MeteredMap.Tree.Footprint

/-!
# Commands to one tree

The operations of a tree by handle, which show where its nodes lie. Handles are given as indices;
one that is not live breaks the session.

## Main definitions

* `MeteredMap.TreeCommand`, `MeteredMap.TreeAnswer`.
* `MeteredMap.TreeSession` : a tree in a memory.
* `MeteredMap.TreeSession.start`, `MeteredMap.TreeSession.step` : the session.
-/

namespace MeteredMap

/-- A command to a tree. -/
inductive TreeCommand where
  | insert (key value : Blob)
  | search (key : Blob)
  /-- Search for a key and remove the entry found. -/
  | remove (key : Blob)
  | removeAt (index : Nat)
  | node (index : Nat)
  | neighbor (side : Side) (index : Nat)
  /-- The outermost node of the subtree at a handle. -/
  | extreme (side : Side) (index : Nat)
  | outermost (side : Side)
  | clear
  | footprint
  | check (key value : Blob)
  | setLimit (change : LimitChange)
  /-- Make a clone, look at it and dispose of it. -/
  | clone
  /-- Put a clone in the place of the tree. -/
  | becomeClone

/-- How far a tree extends: entries, the room for entries and levels. -/
structure TreeExtent where
  size : Nat
  capacity : Nat
  height : Nat

/-- What can be seen of a clone while it exists. -/
structure CloneSight where
  drawing : Drawing
  extent : TreeExtent
  usage : Option Usage

/-- The answer to a command to a tree. -/
inductive TreeAnswer where
  | done
  | absent
  | handle (handle : Handle)
  | handle? (handle : Option Handle)
  | failed (e : MapError)
  | removed (value : Blob) (next : Option Handle)
  | removedAt (next : Option Handle)
  | node (node : Node)
  | footprint (entry : Nat) (insert : Option Nat)
  | check (key value : Except MapError Unit)
  | clone (sight : CloneSight)

/-- A tree in a memory. -/
structure TreeSession (α : Type) where
  tree : Tree
  memory : α

/-- An answer with what can be seen after it. -/
structure TreeReport where
  answer : TreeAnswer
  extent : TreeExtent
  usage : Option Usage
  drawing : Drawing
  calls : List Call

/-- The extent of a tree, its levels last. -/
def Tree.treeExtent (tree : Tree) : Except Fault TreeExtent := do
  return { size := tree.size, capacity := tree.capacity, height := ← tree.height }

namespace TreeSession

variable {α : Type}

/-- A session on an empty tree, with room for `capacity` nodes if a capacity is given. -/
def start [Allocator α] (memory : α) (comparator : Comparator) (keySize valueSize : Nat)
    (capacity : Option Nat) : Except MapError (TreeSession α) := do
  match capacity with
  | none => return { tree := ← Tree.create keySize valueSize comparator, memory }
  | some capacity =>
    let (made, memory) := Tree.withCapacity keySize valueSize capacity comparator memory
    return { tree := ← made, memory }

/-- Carries out a command. -/
def perform [Metered α] (command : TreeCommand) (session : TreeSession α) :
    Except Fault (Traced TreeAnswer × TreeSession α) := do
  let ⟨tree, memory⟩ := session
  let showing (answer : TreeAnswer) : Traced TreeAnswer × TreeSession α := (⟨answer, []⟩, session)
  match command with
  | .insert key value =>
    let ⟨⟨result, tree, memory⟩, calls⟩ ← tree.insert memory key value
    match result with
    | .ok handle => return (⟨.handle handle, calls⟩, { tree, memory })
    | .error e => return (⟨.failed e, calls⟩, { tree, memory })
  | .search key =>
    let ⟨handle, calls⟩ ← tree.search key
    return (⟨.handle? handle, calls⟩, session)
  | .remove key =>
    let ⟨handle, calls⟩ ← tree.search key
    match handle with
    | none => return (⟨.absent, calls⟩, session)
    | some handle =>
      let (removal, tree, memory) ← tree.removeAt memory handle
      return (⟨.removed removal.entry.value removal.next, calls⟩, { tree, memory })
  | .removeAt index =>
    let (removal, tree, memory) ← tree.removeAt memory (← Handle.ofIndex index)
    return (⟨.removedAt removal.next, []⟩, { tree, memory })
  | .node index => return showing (.node (← tree.node (← Handle.ofIndex index)))
  | .neighbor side index =>
    return showing (.handle? (← tree.neighbor side (← Handle.ofIndex index)))
  | .extreme side index =>
    return showing (.handle (← tree.extreme side (← Handle.ofIndex index)))
  | .outermost side => return showing (.handle? (← tree.outermost side))
  | .clear =>
    let (tree, memory) ← tree.clear memory
    return (⟨.done, []⟩, { tree, memory })
  | .footprint => return showing (.footprint tree.entryFootprint tree.insertFootprint)
  | .check key value => return showing (.check (tree.checkKey key) (tree.checkValue value))
  | .setLimit change =>
    return (⟨.done, []⟩, { session with memory := Metered.setLimit memory change })
  | .clone =>
    match ← tree.clone memory with
    | ⟨(.error e, memory), calls⟩ => return (⟨.failed e, calls⟩, { tree, memory })
    | ⟨(.ok copy, memory), calls⟩ =>
      let sight : CloneSight :=
        { drawing := ← copy.drawing, extent := ← copy.treeExtent, usage := Metered.usage? memory }
      return (⟨.clone sight, calls⟩, { tree, memory := ← copy.dispose memory })
  | .becomeClone =>
    match ← tree.clone memory with
    | ⟨(.error e, memory), calls⟩ => return (⟨.failed e, calls⟩, { tree, memory })
    | ⟨(.ok copy, memory), calls⟩ =>
      return (⟨.done, calls⟩, { tree := copy, memory := ← tree.dispose memory })

/-- Carries out a command and reports what can be seen after it. -/
def step [Metered α] (command : TreeCommand) (session : TreeSession α) :
    Except Fault (TreeReport × TreeSession α) := do
  let (⟨answer, calls⟩, session) ← session.perform command
  let report : TreeReport :=
    { answer
      extent := ← session.tree.treeExtent
      usage := Metered.usage? session.memory
      drawing := ← session.tree.drawing
      calls }
  return (report, session)

end TreeSession

end MeteredMap
