import MeteredMap.Proofs.Memory.Ledger
import MeteredMap.Proofs.Simulation
import MeteredMap.Proofs.Tree.Translation
import MeteredMap.Session.Pool

/-!
# Sessions in translated memories

A translation of memories to memories that answer the same, keep the same counters and go along with
a change of the limit is followed by all sessions: by the commands to a map, by those to a pool of
maps, and by the calls of one who uses the memory directly.

## Main definitions

* `MeteredMap.Pool.translate`, `MeteredMap.Ledger.translate` : a pool and a ledger with their memory
  translated.

## Main results

* `MeteredMap.MapCommand.run_translate` : all commands to a map.
* `MeteredMap.Pool.step_translate`, `MeteredMap.Ledger.step_translate` : all commands to a pool, and
  all calls to a memory.
-/

namespace MeteredMap

variable {α β : Type} [Metered α] [Metered β] {f : α → β} (h : Metered.Translation f)

include h

/-! ### Cursors -/

namespace Cursor

theorem remove_translate (cursor : Cursor) (tree : Tree) (memory : α) :
    cursor.remove tree (f memory) =
      Prod.map id (·.translate f) <$> cursor.remove tree memory := by
  unfold remove
  cases cursor.current with
  | none => rfl
  | some x =>
    exact bind_eq_map_bind_of_map (Tree.removeAt_translate h.toTranslation tree memory x)
      fun _ => rfl

/-- The cursor and its map, with the memory translated. -/
def Edit.translate (f : α → β) (edit : Edit α) : Edit β :=
  ⟨edit.cursor, edit.tree, f edit.memory⟩

theorem editStep_translate (command : EditCommand) (edit : Edit α) :
    editStep command (edit.translate f) =
      Prod.map id (·.translate f) <$> editStep command edit := by
  -- Whatever a command did, the key at the new position is looked up in the end.
  have hend : ∀ (answer : EditAnswer) (edit : Edit α),
      (edit.cursor.located edit.tree answer >>= fun located =>
        pure (located, edit.translate f)) = Prod.map id (·.translate f) <$>
      (edit.cursor.located edit.tree answer >>= fun located =>
        (pure (located, edit) : Except Fault (Located EditAnswer × Edit α))) :=
    fun answer edit => bind_eq_map_bind fun _ => rfl
  cases command with
  | look command =>
    exact bind_eq_map_bind fun looked => hend _ { edit with cursor := looked.2 }
  | setValue value =>
    exact bind_eq_map_bind fun set => hend _ { edit with tree := set.2 }
  | overwrite bytes offset =>
    exact bind_eq_map_bind fun written => hend _ { edit with tree := written.2 }
  | remove =>
    exact bind_eq_map_bind_of_map (remove_translate h edit.cursor edit.tree edit.memory)
      fun removed => hend _ ⟨removed.1, removed.2.state, removed.2.memory⟩
  | walk commands =>
    exact bind_eq_map_bind fun _ => hend _ edit

theorem edit_translate (cursor : Cursor) (tree : Tree) (memory : α) (commands : List EditCommand) :
    cursor.edit tree (f memory) commands =
      (·.translate f) <$> cursor.edit tree memory commands := by
  have hrun := Transcript.finished_map (editStep_translate h) commands ⟨cursor, tree, memory⟩
  exact bind_eq_map_bind_of_map hrun fun _ => rfl

end Cursor

/-! ### One map -/

namespace Tree

theorem insertEntry_translate (tree : Tree) (memory : α) (key value : Blob) :
    tree.insertEntry (f memory) key value =
      Traced.map (·.translate f) <$> tree.insertEntry memory key value :=
  bind_eq_map_bind_of_map (insert_translate h.toTranslation tree memory key value) fun _ => rfl

omit h [Metered α] [Metered β] in
/-- One operation for each of several keys, where the operation follows a translation. -/
theorem forEachKey_translate
    {operation : Tree → α → Blob → Except Fault (Traced (Outcome Tree α (Except MapError Unit)))}
    {operation' : Tree → β → Blob → Except Fault (Traced (Outcome Tree β (Except MapError Unit)))}
    (hoperation : ∀ tree memory key,
      operation' tree (f memory) key = Traced.map (·.translate f) <$> operation tree memory key)
    (keys : List Blob) (tree : Tree) (memory : α) :
    forEachKey operation' keys tree (f memory) =
      Traced.map (·.translate f) <$> forEachKey operation keys tree memory := by
  induction keys generalizing tree memory with
  | nil => rfl
  | cons key keys ih =>
    refine bind_eq_map_bind_of_map (hoperation tree memory key) fun done => ?_
    exact bind_eq_map_bind_of_map (ih done.value.state done.value.memory) fun _ => rfl

end Tree

/-- All commands to a map follow a translation. -/
theorem MapCommand.run_translate (command : MapCommand) (tree : Tree) (memory : α) :
    command.run tree (f memory) = Traced.map (·.translate f) <$> command.run tree memory := by
  have hallocator := h.toTranslation
  cases command with
  | insert key value =>
    exact bind_eq_map_bind_of_map (Tree.insertEntry_translate h tree memory key value) fun _ => rfl
  | insertMany keys value =>
    exact bind_eq_map_bind_of_map (Tree.forEachKey_translate
      (fun tree memory key => Tree.insertEntry_translate h tree memory key value) keys tree memory)
      fun _ => rfl
  | remove key =>
    exact bind_eq_map_bind_of_map (Tree.remove_translate hallocator tree memory key) fun _ => rfl
  | removeMany keys =>
    exact bind_eq_map_bind_of_map
      (Tree.forEachKey_translate (Tree.remove_translate hallocator) keys tree memory) fun _ => rfl
  | removeInto key buffer =>
    exact bind_eq_map_bind_of_map (Tree.removeInto_translate hallocator tree memory key _)
      fun _ => rfl
  | clear =>
    exact bind_eq_map_bind_of_map (Tree.clear_translate hallocator tree memory) fun _ => rfl
  | figures =>
    have hfigures : tree.figures β = tree.figures α := by
      unfold Tree.figures
      rw [Tree.memoryUsage_translate hallocator]
    simp only [run, hfigures]
    rfl
  | canPerform required =>
    simp only [run, Tree.canPerform_translate hallocator]
    rfl
  | usage =>
    simp only [run, h.usage?]
    rfl
  | edit start commands =>
    refine bind_eq_map_bind fun cursor => ?_
    exact bind_eq_map_bind_of_map (Cursor.edit_translate h cursor tree memory commands) fun _ => rfl
  | walk start commands =>
    refine bind_eq_map_bind fun cursor => ?_
    exact bind_eq_map_bind fun _ => rfl
  | sizes => rfl
  | compare first second => rfl
  | _ => exact bind_eq_map_bind fun _ => rfl

/-! ### Pools -/

namespace Pool

variable {n : Nat}

/-- The pool with its memory translated. -/
def translate (f : α → β) (pool : Pool α n) : Pool β n :=
  ⟨f pool.memory, pool.places⟩

theorem put_translate (pool : Pool α n) (place : Place n) (tree : Option Tree) :
    (pool.translate f).put place tree = (·.translate f) <$> pool.put place tree := by
  have hplaces : (pool.translate f).places = pool.places := rfl
  unfold put
  rw [hplaces]
  cases pool.places[place] with
  | none => rfl
  | some old =>
    exact bind_eq_map_bind_of_map (Tree.dispose_translate h.toTranslation old pool.memory)
      fun _ => rfl

theorem create_translate (pool : Pool α n) (comparator : Comparator)
    (place : Place n) (keySize valueSize : Nat) (capacity : Option Nat) :
    (pool.translate f).create comparator place keySize valueSize capacity =
      Prod.map id (·.translate f) <$>
        pool.create comparator place keySize valueSize capacity := by
  have hmemory : (pool.translate f).memory = f pool.memory := rfl
  unfold create
  cases capacity with
  | none =>
    dsimp only
    cases Tree.create keySize valueSize comparator with
    | error e => rfl
    | ok tree =>
      exact bind_eq_map_bind_of_map (put_translate h pool place (some tree)) fun _ => rfl
  | some capacity =>
    dsimp only
    rw [hmemory, Tree.withCapacity_translate h.toTranslation]
    obtain ⟨_ | tree, memory⟩ :=
      Tree.withCapacity keySize valueSize capacity comparator pool.memory
    · rfl
    · exact bind_eq_map_bind_of_map
        (put_translate h { pool with memory } place (some tree)) fun _ => rfl

/-- All commands to a pool follow a translation. -/
theorem perform_translate (comparator : Comparator) (command : PoolCommand n) (pool : Pool α n) :
    (pool.translate f).perform comparator command =
      Prod.map id (·.translate f) <$> pool.perform comparator command := by
  have hplaces : (pool.translate f).places = pool.places := rfl
  have hmemory : (pool.translate f).memory = f pool.memory := rfl
  cases command with
  | create place keySize valueSize capacity =>
    exact bind_eq_map_bind_of_map
      (create_translate h pool comparator place keySize valueSize capacity) fun _ => rfl
  | drop place => exact bind_eq_map_bind_of_map (put_translate h pool place none) fun _ => rfl
  | setLimit place change =>
    simp only [perform, hmemory, h.setLimit]
    rfl
  | clone source target =>
    simp only [perform, hplaces, hmemory]
    cases pool.places[source] with
    | none => rfl
    | some tree =>
      refine bind_eq_map_bind_of_map (Tree.clone_translate h.toTranslation tree pool.memory)
        fun cloned => ?_
      obtain ⟨⟨_ | copy, memory⟩, calls⟩ := cloned
      · rfl
      · exact bind_eq_map_bind_of_map
          (put_translate h { pool with memory } target (some copy)) fun _ => rfl
  | compare first second =>
    simp only [perform, hplaces]
    cases pool.places[first] with
    | none => rfl
    | some tree =>
      cases pool.places[second] with
      | none => rfl
      | some other => exact bind_eq_map_bind fun _ => rfl
  | toMap place command =>
    simp only [perform, hplaces, hmemory]
    cases pool.places[place] with
    | none => rfl
    | some tree =>
      exact bind_eq_map_bind_of_map (command.run_translate h tree pool.memory) fun _ => rfl

theorem step_translate (comparator : Comparator) (command : PoolCommand n) (pool : Pool α n) :
    (pool.translate f).step comparator command =
      Prod.map id (·.translate f) <$> pool.step comparator command := by
  refine bind_eq_map_bind_of_map (perform_translate h comparator command pool) fun performed => ?_
  refine bind_eq_map_bind fun extent => ?_
  dsimp only [Prod.map, id]
  rw [show (performed.2.translate f).memory = f performed.2.memory from rfl, h.usage?]
  rfl

end Pool

/-! ### Ledgers -/

namespace Ledger

/-- The ledger with its memory translated. -/
def translate (f : α → β) (ledger : Ledger α) : Ledger β :=
  ⟨f ledger.memory, ledger.held, ledger.granted⟩

/-- All calls to a memory follow a translation. -/
theorem step_translate (ledger : Ledger α) (call : MemoryCall) :
    (ledger.translate f).step call = (ledger.step call).translate f := by
  have hmemory : (ledger.translate f).memory = f ledger.memory := rfl
  have henter : ∀ layout,
      (ledger.translate f).enter layout (Allocator.allocate (f ledger.memory) layout) =
        (ledger.enter layout (Allocator.allocate ledger.memory layout)).translate f := by
    intro layout
    rw [h.allocate]
    cases Allocator.allocate ledger.memory layout <;> rfl
  cases call with
  | allocate layout => exact henter layout
  | allocateZeroed layout => exact henter layout
  | release position =>
    simp only [step, hmemory, h.release]
    have hheld : (ledger.translate f).held = ledger.held := rfl
    rw [hheld]
    cases ledger.held[position]? <;> rfl
  | setLimit limit =>
    simp only [step, hmemory, h.setLimit]
    rfl

end Ledger

end MeteredMap
