import MeteredMap.Session.Transcript
import MeteredMap.Text.Describe

/-!
# Iteration sessions

Commands on one iterator of a map, with a copy of it that can be saved and gone back to.

## Main definitions

* `MeteredMap.IterationCommand`, `MeteredMap.IterationAnswer`.
* `MeteredMap.Iteration` : the iterator at work and the saved copy.
* `MeteredMap.Iteration.session` : the answers to a list of commands.
-/

namespace MeteredMap

/-- A command to an iteration. -/
inductive IterationCommand where
  /-- Take the next item from an end. -/
  | next (side : Side)
  /-- Drop `n` items from an end and take the one behind them. -/
  | nth (side : Side) (n : Nat)
  /-- Show the last item of a copy. -/
  | last
  /-- Count the items left. -/
  | length
  /-- Give bounds for the number of items left. -/
  | bounds
  /-- Show all items of a copy, from an end. -/
  | collect (side : Side)
  /-- Write out the items left. -/
  | describe (form : Form)
  /-- Keep a copy. -/
  | save
  /-- Go back to the copy kept last, or to the start. -/
  | restore

/-- The answer to a command to an iteration. -/
inductive IterationAnswer where
  | done
  | item (item : Option Item)
  | length (n : Nat)
  | bounds (lower : Nat) (upper : Option Nat)
  | items (items : List Item)
  | text (text : String)

/-- An iterator at work, and the copy of it that was kept. -/
structure Iteration where
  current : Iterator
  saved : Iterator

namespace Iteration

/-- The answer to one command, and the iteration after it. -/
def step (tree : Tree) (view : View) (command : IterationCommand) (iteration : Iteration) :
    Except Fault (IterationAnswer × Iteration) := do
  let it := iteration.current
  match command with
  | .next side =>
    let (entry, it) ← it.take tree side
    return (.item (entry.map view.item), { iteration with current := it })
  | .nth side n =>
    let (entry, it) ← it.nth tree side n
    return (.item (entry.map view.item), { iteration with current := it })
  | .last => return (.item ((← it.last tree).map view.item), iteration)
  | .length => return (.length it.remaining, iteration)
  | .bounds => return (.bounds it.sizeHint.1 it.sizeHint.2, iteration)
  | .collect side => return (.items ((← it.drain tree side).map view.item), iteration)
  | .describe form =>
    let items := (← it.drain tree .left).map view.item
    return (.text ((Item.listDocument items).render form), iteration)
  | .save => return (.done, { iteration with saved := it })
  | .restore => return (.done, { iteration with current := iteration.saved })

/-- The answers to a list of commands to an iteration over all of a tree. -/
def session (tree : Tree) (view : View) (commands : List IterationCommand) :
    Except Fault (List IterationAnswer) := do
  let start ← tree.iterator
  let (answers, _) ← (Transcript.run (step tree view) commands ⟨start, start⟩).finished
  return answers

end Iteration

end MeteredMap
