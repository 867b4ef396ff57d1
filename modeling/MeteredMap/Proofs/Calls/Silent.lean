import MeteredMap.Proofs.Simulation
import MeteredMap.Proofs.Tree.Under
import MeteredMap.Session.CursorWalk
import MeteredMap.Session.Iteration

/-!
# Sessions that ask nothing

Iterators and cursors move by links alone, and so does the removal through a cursor. A session of
one of them is the same under every comparison of keys.

## Main definitions

* `MeteredMap.Cursor.Edit.under` : a mutable cursor, with another comparison in its map.

## Main results

* `MeteredMap.Iteration.session_under`, `MeteredMap.Cursor.walk_under` : sessions that read.
* `MeteredMap.Cursor.edit_under` : sessions of a mutable cursor.
-/

namespace MeteredMap

/-! ### Iterators and cursors -/

theorem Iteration.session_under {tree : Tree} {g : Blob → Blob → Ordering} (view : View)
    (commands : List IterationCommand) :
    Iteration.session (tree.under g) view commands = Iteration.session tree view commands := by
  have hstep : Iteration.step (tree.under g) view = Iteration.step tree view := by
    funext command iteration
    cases command with
    | next side => simp only [step, Iterator.take_under]
    | nth side n => simp only [step, Iterator.nth_under]
    | last => simp only [step, Iterator.last, Iterator.nextBack, Iterator.take_under]
    | collect side => simp only [step, Iterator.drain, Iterator.drainUpTo_under]
    | describe form => simp only [step, Iterator.drain, Iterator.drainUpTo_under]
    | length => rfl
    | bounds => rfl
    | save => rfl
    | restore => rfl
  unfold session
  rw [Tree.iterator_under, hstep]

namespace Cursor

variable {α : Type} {tree : Tree} {g : Blob → Blob → Ordering} {cursor : Cursor}

theorem cursor_under (start : Side) : (tree.under g).cursor start = tree.cursor start := by
  unfold Tree.cursor
  rw [Tree.outermost_under]

theorem move_under (side : Side) : cursor.move (tree.under g) side = cursor.move tree side := by
  unfold move
  cases cursor.current with
  | none => exact congrArg (Cursor.mk <$> ·) Tree.outermost_under
  | some x => exact congrArg (Cursor.mk <$> ·) Tree.neighbor_under

theorem look_under (name : String) (command : LookCommand) :
    cursor.look (tree.under g) name command = cursor.look tree name command := by
  cases command with
  | move side => simp only [look, move_under]
  | valid => rfl
  | key => rfl
  | value => rfl
  | entry => rfl
  | describe form => rfl
  | read key value => rfl

theorem walkStep_under : walkStep (tree.under g) = walkStep tree := by
  funext command walk
  cases command with
  | look command =>
    simp only [walkStep, look_under]
    rfl
  | save => rfl
  | restore => rfl

theorem walk_under (commands : List WalkCommand) :
    cursor.walk (tree.under g) commands = cursor.walk tree commands := by
  unfold walk
  rw [walkStep_under]

theorem setValue_under (value : Blob) :
    cursor.setValue (tree.under g) value =
      Prod.map id (·.under g) <$> cursor.setValue tree value := by
  have hvalue : (tree.under g).checkValue value = tree.checkValue value := rfl
  unfold setValue
  rw [hvalue]
  cases cursor.current with
  | none => rfl
  | some x =>
    cases tree.checkValue value with
    | error e => rfl
    | ok => exact bind_eq_map_bind_of_map (Tree.overwriteAt_under _ _) fun _ => rfl

theorem overwrite_under (bytes : Blob) (offset : Nat) :
    cursor.overwrite (tree.under g) bytes offset =
      Prod.map id (·.under g) <$> cursor.overwrite tree bytes offset := by
  unfold overwrite
  cases cursor.current with
  | none => rfl
  | some x =>
    refine bind_eq_map_bind fun entry => ?_
    exact bind_eq_map_bind_of_map (Tree.overwriteAt_under _ _) fun _ => rfl

section

variable [Allocator α] {memory : α}

theorem remove_under :
    cursor.remove (tree.under g) memory =
      Prod.map id (·.under g) <$> cursor.remove tree memory := by
  unfold remove
  cases cursor.current with
  | none => rfl
  | some x => exact bind_eq_map_bind_of_map (Tree.removeAt_under memory) fun _ => rfl

/-- The cursor and its map, with another comparison of keys. -/
def Edit.under (edit : Edit α) (compare : Blob → Blob → Ordering) : Edit α :=
  { edit with tree := edit.tree.under compare }

theorem editStep_under (command : EditCommand) (edit : Edit α) :
    editStep command (edit.under g) = Prod.map id (·.under g) <$> editStep command edit := by
  -- Whatever a command did, the key at the new position is looked up in the end.
  have hend : ∀ (answer : EditAnswer) (edit : Edit α),
      (edit.cursor.located (edit.tree.under g) answer >>= fun located =>
        pure (located, edit.under g)) = Prod.map id (·.under g) <$>
      (edit.cursor.located edit.tree answer >>= fun located =>
        (pure (located, edit) : Except Fault (Located EditAnswer × Edit α))) :=
    fun answer edit => bind_eq_map_bind fun _ => rfl
  cases command with
  | look command =>
    simp only [editStep, Edit.under, look_under]
    exact bind_eq_map_bind fun looked => hend _ { edit with cursor := looked.2 }
  | setValue value =>
    simp only [editStep]
    exact bind_eq_map_bind_of_map (setValue_under value) fun set =>
      hend _ { edit with tree := set.2 }
  | overwrite bytes offset =>
    simp only [editStep]
    exact bind_eq_map_bind_of_map (overwrite_under bytes offset) fun written =>
      hend _ { edit with tree := written.2 }
  | remove =>
    simp only [editStep]
    exact bind_eq_map_bind_of_map remove_under fun removed =>
      hend _ ⟨removed.1, removed.2.state, removed.2.memory⟩
  | walk commands =>
    simp only [editStep, Edit.under, walk_under]
    exact bind_eq_map_bind fun _ => hend _ edit

theorem edit_under (commands : List EditCommand) :
    cursor.edit (tree.under g) memory commands =
      (·.under g) <$> cursor.edit tree memory commands := by
  have hrun := Transcript.finished_map (fun command edit => editStep_under (g := g) command edit)
    commands ⟨cursor, tree, memory⟩
  exact bind_eq_map_bind_of_map hrun fun _ => rfl

end

end Cursor

end MeteredMap
