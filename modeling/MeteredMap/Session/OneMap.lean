import MeteredMap.Memory.Budget
import MeteredMap.Session.CursorWalk
import MeteredMap.Session.Iteration
import MeteredMap.Tree.Clone
import MeteredMap.Tree.Footprint

/-!
# Commands to one map

The operations of a map as data, with their arguments, and what they answer.

## Main definitions

* `MeteredMap.MapCommand`, `MeteredMap.MapAnswer`.
* `MeteredMap.MapCommand.run` : a command carried out on a map.
-/

namespace MeteredMap

/-- A command to one map. -/
inductive MapCommand where
  | insert (key value : Blob)
  /-- Insert several keys with one value, whether or not those before succeed. -/
  | insertMany (keys : List Blob) (value : Blob)
  | remove (key : Blob)
  /-- Remove several keys, whether or not those before succeed. -/
  | removeMany (keys : List Blob)
  /-- Remove a key, the value going to a buffer; if none is given, to a fresh one. -/
  | removeInto (key : Blob) (buffer : Option Blob)
  /-- Copy the value of a key to a buffer; if none is given, to a fresh one. -/
  | getInto (key : Blob) (buffer : Option Blob)
  | get (key : Blob)
  | getKeyValue (key : Blob)
  | overwrite (key bytes : Blob) (offset : Nat)
  | contains (key : Blob)
  | clear
  | figures
  | sizes
  | outermost (side : Side)
  | canPerform (required : Nat)
  | compare (first second : Blob)
  | usage
  | describe (form : Form)
  | entries
  | iterate (view : View) (commands : List IterationCommand)
  | walk (start : Side) (commands : List WalkCommand)
  | edit (start : Side) (commands : List EditCommand)

/-- The figures of a map. -/
structure Figures where
  size : Nat
  isEmpty : Bool
  keySize : Nat
  valueSize : Nat
  memoryUsage : Nat

/-- The answer to a command to one map. -/
inductive MapAnswer where
  | done
  | result (result : Except MapError Unit)
  | results (results : List (Except MapError Unit))
  | blob (result : Except MapError Blob)
  | found (result : Except MapError Entry)
  | buffer (result : Except MapError Unit) (buffer : Blob)
  | flag (b : Bool)
  | figures (figures : Figures)
  | sizes (key value : Nat)
  | entry (entry : Option Entry)
  | ordering (ordering : Ordering)
  | usage (usage : Option Usage)
  | text (text : String)
  | entries (entries : List Entry)
  | iteration (answers : List IterationAnswer)
  | walk (answers : List (Located WalkAnswer))
  | edit (answers : List (Located EditAnswer))

namespace Tree

variable {α : Type}

/-- The figures of a map that lives in a memory of type `α`. -/
def figures (α : Type) [Allocator α] (tree : Tree) : Figures where
  size := tree.size
  isEmpty := tree.isEmpty
  keySize := tree.keySize
  valueSize := tree.valueSize
  memoryUsage := tree.memoryUsage α

/-- A buffer of the right length for a value. Its bytes are no text, so that a reader can tell
whether anything was written to it. -/
def freshBuffer (tree : Tree) : Blob :=
  List.replicate tree.valueSize 0xaa

/-- One operation for each of several keys, with the result of each. -/
def forEachKey
    (operation : Tree → α → Blob → Except Fault (Traced (Outcome Tree α (Except MapError Unit)))) :
    List Blob → Tree → α → Except Fault (Traced (Outcome Tree α (List (Except MapError Unit))))
  | [], tree, memory => return ⟨⟨[], tree, memory⟩, []⟩
  | key :: keys, tree, memory => do
    let ⟨⟨result, tree, memory⟩, calls⟩ ← operation tree memory key
    let ⟨⟨results, tree, memory⟩, moreCalls⟩ ← forEachKey operation keys tree memory
    return ⟨⟨result :: results, tree, memory⟩, calls ++ moreCalls⟩

/-- Inserts an entry without answering where it is. -/
def insertEntry [Allocator α] (tree : Tree) (memory : α) (key value : Blob) :
    Except Fault (Traced (Outcome Tree α (Except MapError Unit))) := do
  let ⟨⟨result, tree, memory⟩, calls⟩ ← tree.insert memory key value
  return ⟨⟨result.map fun _ => (), tree, memory⟩, calls⟩

end Tree

namespace MapCommand

variable {α : Type}

/-- Carries out a command on a map in a memory. -/
def run [Metered α] (command : MapCommand) (tree : Tree) (memory : α) :
    Except Fault (Traced (Outcome Tree α MapAnswer)) := do
  -- The answer of an operation that asks the comparator but changes nothing.
  let reading {ρ : Type} (answer : ρ → MapAnswer) (traced : Traced ρ) :
      Traced (Outcome Tree α MapAnswer) :=
    ⟨⟨answer traced.value, tree, memory⟩, traced.calls⟩
  -- The answer of an operation that neither asks the comparator nor changes anything.
  let showing (answer : MapAnswer) : Traced (Outcome Tree α MapAnswer) :=
    ⟨⟨answer, tree, memory⟩, []⟩
  -- The answer of an operation that may have changed the map.
  let changing {ρ : Type} (answer : ρ → MapAnswer) (traced : Traced (Outcome Tree α ρ)) :
      Traced (Outcome Tree α MapAnswer) :=
    let ⟨⟨result, tree, memory⟩, calls⟩ := traced
    ⟨⟨answer result, tree, memory⟩, calls⟩
  match command with
  | .insert key value => return changing .result (← tree.insertEntry memory key value)
  | .insertMany keys value =>
    let insert (tree : Tree) (memory : α) (key : Blob) := tree.insertEntry memory key value
    return changing .results (← Tree.forEachKey insert keys tree memory)
  | .remove key => return changing .result (← tree.remove memory key)
  | .removeMany keys => return changing .results (← Tree.forEachKey Tree.remove keys tree memory)
  | .removeInto key buffer =>
    return changing (fun (result, buffer) => .buffer result buffer)
      (← tree.removeInto memory key (buffer.getD tree.freshBuffer))
  | .getInto key buffer =>
    return reading (fun (result, buffer) => .buffer result buffer)
      (← tree.getInto key (buffer.getD tree.freshBuffer))
  | .get key => return reading .blob (← tree.get key)
  | .getKeyValue key => return reading .found (← tree.getKeyValue key)
  | .overwrite key bytes offset =>
    let ⟨(old, tree), calls⟩ ← tree.overwrite key bytes offset
    return ⟨⟨.blob old, tree, memory⟩, calls⟩
  | .contains key => return reading .flag (← tree.contains key)
  | .clear =>
    let (tree, memory) ← tree.clear memory
    return ⟨⟨.done, tree, memory⟩, []⟩
  | .figures => return showing (.figures (tree.figures α))
  | .sizes => return showing (.sizes tree.keySize tree.valueSize)
  | .outermost side => return showing (.entry (← tree.outermostEntry side))
  | .canPerform required => return showing (.flag (tree.canPerform memory required))
  | .compare first second =>
    return ⟨⟨.ordering (tree.comparator.compare first second), tree, memory⟩, [⟨first, second⟩]⟩
  | .usage => return showing (.usage (Metered.usage? memory))
  | .describe form =>
    return showing (.text ((Entry.mapDocument (← tree.entries)).render form))
  | .entries => return showing (.entries (← tree.entries))
  | .iterate view commands =>
    return showing (.iteration (← Iteration.session tree view commands))
  | .walk start commands =>
    return showing (.walk (← (← tree.cursor start).walk tree commands))
  | .edit start commands =>
    let ⟨answers, tree, memory⟩ ← (← tree.cursor start).edit tree memory commands
    return ⟨⟨.edit answers, tree, memory⟩, []⟩

end MapCommand

end MeteredMap
