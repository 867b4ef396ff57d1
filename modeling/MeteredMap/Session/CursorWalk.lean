import MeteredMap.Cursor
import MeteredMap.Session.Transcript
import MeteredMap.Text.Describe

/-!
# Cursor sessions

Commands on one cursor of a map. A read-only cursor can be copied and gone back to; a mutable one
changes the map, and lends its position to a read-only one. Every answer comes with the key at
which the cursor is afterwards.

## Main definitions

* `MeteredMap.LookCommand`, `MeteredMap.WalkCommand`, `MeteredMap.EditCommand` : what both kinds of
  cursor answer, what a read-only one does, and what a mutable one does.
* `MeteredMap.Cursor.walk` : the answers of a read-only cursor.
* `MeteredMap.Cursor.edit` : the answers of a mutable cursor, and the map it leaves.
-/

namespace MeteredMap

/-- A command that both kinds of cursor understand. -/
inductive LookCommand where
  /-- Go one position further toward a side. -/
  | move (side : Side)
  /-- Tell whether there is an entry at the position. -/
  | valid
  /-- Show the key at the position. -/
  | key
  /-- Show the value at the position. -/
  | value
  /-- Show the entry at the position. -/
  | entry
  /-- Write out what the cursor is at. -/
  | describe (form : Form)
  /-- Copy the entry at the position into buffers. -/
  | read (key value : Blob)

/-- A command to a read-only cursor. -/
inductive WalkCommand where
  | look (command : LookCommand)
  /-- Keep a copy of the cursor. -/
  | save
  /-- Go back to the copy kept last, or to the start. -/
  | restore

/-- A command to a mutable cursor. -/
inductive EditCommand where
  | look (command : LookCommand)
  /-- Replace the value at the position. -/
  | setValue (value : Blob)
  /-- Write over the value at the position. -/
  | overwrite (bytes : Blob) (offset : Nat)
  /-- Remove the entry at the position. -/
  | remove
  /-- Run a read-only cursor from the position. -/
  | walk (commands : List WalkCommand)

/-- The answer to a command that both kinds of cursor understand. -/
inductive LookAnswer where
  | flag (b : Bool)
  | blob (bytes : Option Blob)
  | entry (entry : Option Entry)
  | text (text : String)
  | read (result : Except MapError Unit) (buffers : Entry)

/-- The answer of a read-only cursor. -/
inductive WalkAnswer where
  | look (answer : LookAnswer)
  | done

/-- An answer, and the key at which the cursor is after it. -/
structure Located (ρ : Type) where
  answer : ρ
  key : Option Blob

/-- The answer of a mutable cursor. -/
inductive EditAnswer where
  | look (answer : LookAnswer)
  | result (result : Except MapError Unit)
  | overwritten (old : Option Blob)
  | walk (answers : List (Located WalkAnswer))

namespace Cursor

variable {α ρ : Type}

/-- The answer together with the key at which the cursor is. -/
def located (cursor : Cursor) (tree : Tree) (answer : ρ) : Except Fault (Located ρ) := do
  return ⟨answer, (← cursor.entry? tree).map Entry.key⟩

/-- The answer to a command that both kinds of cursor understand, and the cursor after it. A
cursor writes itself out behind the `name` of its kind. -/
def look (cursor : Cursor) (tree : Tree) (name : String) (command : LookCommand) :
    Except Fault (LookAnswer × Cursor) := do
  match command with
  | .move side =>
    let cursor ← cursor.move tree side
    return (.flag cursor.isValid, cursor)
  | .valid => return (.flag cursor.isValid, cursor)
  | .key => return (.blob ((← cursor.entry? tree).map Entry.key), cursor)
  | .value => return (.blob ((← cursor.entry? tree).map Entry.value), cursor)
  | .entry => return (.entry (← cursor.entry? tree), cursor)
  | .describe form =>
    return (.text ((Entry.cursorDocument name (← cursor.entry? tree)).render form), cursor)
  | .read key value =>
    let (result, buffers) ← cursor.readInto tree key value
    return (.read result buffers, cursor)

/-! ### Read-only cursors -/

/-- A read-only cursor at work, and the copy of it that was kept. -/
structure Walk where
  current : Cursor
  saved : Cursor

/-- The answer to one command to a read-only cursor, and the cursor after it. -/
def walkStep (tree : Tree) (command : WalkCommand) (walk : Walk) :
    Except Fault (Located WalkAnswer × Walk) := do
  let (answer, walk) ← match command with
    | .look command => do
      let (answer, cursor) ← walk.current.look tree "Cursor" command
      pure (WalkAnswer.look answer, { walk with current := cursor })
    | .save => pure (.done, { walk with saved := walk.current })
    | .restore => pure (.done, { walk with current := walk.saved })
  return (← walk.current.located tree answer, walk)

/-- The answers to a list of commands to a read-only cursor. -/
def walk (cursor : Cursor) (tree : Tree) (commands : List WalkCommand) :
    Except Fault (List (Located WalkAnswer)) := do
  let (answers, _) ← (Transcript.run (walkStep tree) commands ⟨cursor, cursor⟩).finished
  return answers

/-! ### Mutable cursors -/

/-- A mutable cursor at work, with the map and the memory that it holds. -/
structure Edit (α : Type) where
  cursor : Cursor
  tree : Tree
  memory : α

/-- The answer to one command to a mutable cursor, and the cursor with its map after it. -/
def editStep [Allocator α] (command : EditCommand) (edit : Edit α) :
    Except Fault (Located EditAnswer × Edit α) := do
  let (answer, edit) ← match command with
    | .look command => do
      let (answer, cursor) ← edit.cursor.look edit.tree "CursorMut" command
      pure (EditAnswer.look answer, { edit with cursor })
    | .setValue value => do
      let (result, tree) ← edit.cursor.setValue edit.tree value
      pure (.result result, { edit with tree })
    | .overwrite bytes offset => do
      let (old, tree) ← edit.cursor.overwrite edit.tree bytes offset
      pure (.overwritten old, { edit with tree })
    | .remove => do
      let (cursor, ⟨result, tree, memory⟩) ← edit.cursor.remove edit.tree edit.memory
      pure (.result result, { cursor, tree, memory })
    | .walk commands => do
      pure (.walk (← edit.cursor.walk edit.tree commands), edit)
  return (← edit.cursor.located edit.tree answer, edit)

/-- The answers to a list of commands to a mutable cursor, and the map and the memory that it
leaves. -/
def edit [Allocator α] (cursor : Cursor) (tree : Tree) (memory : α)
    (commands : List EditCommand) :
    Except Fault (Outcome Tree α (List (Located EditAnswer))) := do
  let (answers, edit) ← (Transcript.run editStep commands ⟨cursor, tree, memory⟩).finished
  return ⟨answers, edit.tree, edit.memory⟩

end Cursor

end MeteredMap
