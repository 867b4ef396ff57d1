import MeteredMap.Proofs.Failure
import MeteredMap.Proofs.Queue
import MeteredMap.Proofs.Ring.Refinement
import MeteredMap.Proofs.Tree.Holdings
import MeteredMap.Session.OneMap

/-!
# Commands to a sound map

Every command to a sound map ends without a fault and leaves a sound map. What it does with the
memory is an exchange between what the map holds before and after it; and a command that is not an
insertion asks for nothing and at most takes entries out.

## Main definitions

* `MeteredMap.MapCommand.Quiet` : the commands that ask for no memory.
* `MeteredMap.Tree.Leads` : an operation ends at a sound map that stands in a relation to the one
  before it.

## Main results

* `MeteredMap.MapCommand.leads_of_quiet` : commands that ask for no memory.
* `MeteredMap.MapCommand.exists_exchange` : all commands.
-/

namespace MeteredMap

/-- The command asks for no memory. -/
def MapCommand.Quiet : MapCommand → Prop
  | .insert .. => False
  | .insertMany .. => False
  | _ => True

namespace Tree

open Shape

variable {α ρ : Type} [Allocator α] {tree after : Tree} {s : Shape} {vacant : List Handle}
  {memory memory' : α}

/-- The map lost entries at most. -/
def Lessens (tree : Tree) (memory : α) (after : Tree) (memory' : α) : Prop :=
  ∃ n, Sheds tree memory n after memory'

/-- The map exchanged blocks with its memory. -/
def Trades (tree : Tree) (memory : α) (after : Tree) (memory' : α) : Prop :=
  ∃ n, Exchange memory tree.holdings n memory' after.holdings

/-- An operation on a map ends at a sound one, and both stand in a relation. -/
def Leads (R : Tree → α → Tree → α → Prop) (tree : Tree) (memory : α)
    (run : Except Fault (Traced (Outcome Tree α ρ))) : Prop :=
  ∃ answer after memory' calls t rest, run = .ok ⟨⟨answer, after, memory'⟩, calls⟩ ∧
    after.Sound t rest ∧ R tree memory after memory'

/-! ### Single operations -/

namespace Sound

/-- Nothing changed. -/
theorem leads_same (h : tree.Sound s vacant) {run : Except Fault (Traced (Outcome Tree α ρ))}
    (answer : ρ) (calls : List Call) (heq : run = .ok ⟨⟨answer, tree, memory⟩, calls⟩) :
    Leads Lessens tree memory run :=
  ⟨answer, tree, memory, calls, s, vacant, heq, h, 0, .refl tree memory⟩

theorem leads_remove (h : tree.Sound s vacant) (memory : α) (key : Blob) :
    Leads Lessens tree memory (tree.remove memory key) := by
  rcases h.hasShape.exists_find key with ⟨cause, calls, hfind⟩ | ⟨x, e, calls, hfind, hmem⟩
  · exact h.leads_same (.error cause) calls (by rw [Tree.remove, extract, hfind]; rfl)
  · obtain ⟨e', next, freed, after, t, memory', heq, hafter, -, hsheds⟩ :=
      h.exists_removeAt (List.mem_map_of_mem hmem) memory
    refine ⟨.ok (), after, memory', calls, t, _, ?_, hafter, 1, hsheds⟩
    rw [Tree.remove, extract, hfind]
    simp only [ok_bind, heq]
    rfl

theorem leads_removeInto (h : tree.Sound s vacant) (memory : α) (key buffer : Blob) :
    Leads Lessens tree memory (tree.removeInto memory key buffer) := by
  cases hkey : tree.checkKey key with
  | error cause =>
    exact h.leads_same (.error cause, buffer) [] (by rw [Tree.removeInto, hkey]; rfl)
  | ok =>
    cases hvalue : tree.checkValue buffer with
    | error cause =>
      exact h.leads_same (.error cause, buffer) [] (by rw [Tree.removeInto, hkey, hvalue]; rfl)
    | ok =>
      rcases h.hasShape.exists_find key with ⟨cause, calls, hfind⟩ | ⟨x, e, calls, hfind, hmem⟩
      · refine h.leads_same (.error cause, buffer) calls ?_
        rw [Tree.removeInto, hkey, hvalue]
        simp only [hfind, ok_bind]
        rfl
      · obtain ⟨e', next, freed, after, t, heq, hafter, hk, hremoves, hcap⟩ :=
          h.removeAtInto (List.mem_map_of_mem hmem) memory (length_of_checkValue hvalue)
        have hsize : after.size + 1 = tree.size := by
          rw [h.size_eq, hafter.size_eq]
          exact hremoves.length
        refine ⟨(.ok (), e'.value), after, _, calls, t, _, ?_, hafter, 1, hk, hcap, hsize, rfl⟩
        rw [Tree.removeInto, hkey, hvalue]
        simp only [hfind, ok_bind, heq]
        rfl

theorem exists_getInto (h : tree.Sound s vacant) (key buffer : Blob) :
    ∃ result calls, tree.getInto key buffer = .ok ⟨result, calls⟩ := by
  rw [Tree.getInto]
  cases tree.checkKey key with
  | error cause => exact ⟨_, _, rfl⟩
  | ok =>
    cases tree.checkValue buffer with
    | error cause => exact ⟨_, _, rfl⟩
    | ok =>
      obtain ⟨_ | e, calls, heq⟩ := h.exists_getKeyValue key
      · exact ⟨_, _, by rw [Tree.get, heq]; rfl⟩
      · exact ⟨_, _, by rw [Tree.get, heq]; rfl⟩

theorem exists_overwrite (h : tree.Sound s vacant) (key bytes : Blob) (offset : Nat) :
    ∃ old after calls t, tree.overwrite key bytes offset = .ok ⟨(old, after), calls⟩ ∧
      after.Sound t vacant ∧ Relinked tree after := by
  rw [Tree.overwrite]
  rcases h.hasShape.exists_find key with ⟨cause, calls, hfind⟩ | ⟨x, e, calls, hfind, hmem⟩
  · exact ⟨.error cause, tree, calls, s, by rw [hfind]; rfl, h, .refl tree⟩
  · obtain ⟨after, t, pre, e', post, heq, hafter, hk, -⟩ :=
      h.overwriteAt (List.mem_map_of_mem hmem) bytes offset
    refine ⟨.ok e.value, after, calls, t, ?_, hafter, hk⟩
    rw [hfind, ok_bind]
    simp only [h.hasShape.entry_of_mem hmem, heq, ok_bind, pure_eq_ok]

theorem exists_outermostEntry (h : tree.Sound s vacant) (side : Side) :
    ∃ entry, tree.outermostEntry side = .ok entry := by
  rw [Tree.outermostEntry, h.hasShape.outermost]
  cases hhead : (s.toward side.other).head? with
  | none => exact ⟨none, rfl⟩
  | some pair =>
    have hmem : (pair.1, pair.2) ∈ s.inorder :=
      (mem_toward_iff side.other).mp (List.mem_of_head? hhead)
    refine ⟨some pair.2, ?_⟩
    rw [Option.map_some, ok_bind]
    dsimp only
    rw [h.hasShape.entry_of_mem hmem, map_ok]

theorem exists_sameEntries {other : Tree} {t : Shape} {rest : List Handle}
    (h : tree.Sound s vacant) (h' : other.Sound t rest) :
    ∃ b, tree.sameEntries other = .ok b := by
  rw [Tree.sameEntries, h.hasShape.entries h.live_eq, h'.hasShape.entries h'.live_eq]
  split_ifs
  · exact ⟨_, rfl⟩
  · exact ⟨false, rfl⟩

/-- A clear takes all entries out. -/
theorem sheds_clear (h : tree.Sound s vacant) (memory : α) :
    Sheds tree memory s.size { tree with nodes := tree.nodes.clear, root := none }
      (tree.releaseBlocks^[s.size] memory) :=
  ⟨⟨rfl, rfl, rfl⟩, rfl, by rw [h.size_eq]; exact Nat.zero_add _, rfl⟩

omit [Allocator α] in
/-- One operation for each of several keys, where each stands in a relation that goes on. -/
theorem leads_forEachKey {R : Tree → α → Tree → α → Prop}
    {operation : Tree → α → Blob → Except Fault (Traced (Outcome Tree α (Except MapError Unit)))}
    (hrefl : ∀ tree memory, R tree memory tree memory)
    (htrans : ∀ {tree memory mid m after memory'}, R tree memory mid m → R mid m after memory' →
      R tree memory after memory')
    (hoperation : ∀ {tree s vacant}, Sound tree s vacant → ∀ memory key,
      Leads R tree memory (operation tree memory key))
    (keys : List Blob) (h : tree.Sound s vacant) (memory : α) :
    Leads R tree memory (forEachKey operation keys tree memory) := by
  induction keys generalizing tree s vacant memory with
  | nil => exact ⟨[], tree, memory, [], s, vacant, rfl, h, hrefl tree memory⟩
  | cons key keys ih =>
    obtain ⟨result, mid, m, calls, t, rest, heq, hmid, hfirst⟩ := hoperation h memory key
    obtain ⟨results, after, memory', moreCalls, t', rest', heq', hafter, hlast⟩ := ih hmid m
    refine ⟨result :: results, after, memory', calls ++ moreCalls, t', rest', ?_, hafter,
      htrans hfirst hlast⟩
    rw [forEachKey, heq, ok_bind]
    simp only [heq', ok_bind, pure_eq_ok]

theorem leads_removeMany (h : tree.Sound s vacant) (memory : α) (keys : List Blob) :
    Leads Lessens tree memory (forEachKey Tree.remove keys tree memory) := by
  refine leads_forEachKey (fun tree memory => ⟨0, .refl tree memory⟩) ?_
    (fun h memory key => h.leads_remove memory key) keys h memory
  rintro tree memory mid m after memory' ⟨n, hn⟩ ⟨k, hk⟩
  exact ⟨k + n, hn.trans hk⟩

theorem leads_insertEntry (h : tree.Sound s vacant) (memory : α) (key value : Blob) :
    Leads Trades tree memory (tree.insertEntry memory key value) := by
  obtain ⟨answer, after, memory', calls, t, rest, n, heq, hafter, hexchange⟩ :=
    h.exchange_of_insert memory key value
  refine ⟨answer.map fun _ => (), after, memory', calls, t, rest, ?_, hafter, n, hexchange⟩
  rw [insertEntry, heq]
  rfl

theorem leads_insertMany (h : tree.Sound s vacant) (memory : α) (keys : List Blob)
    (value : Blob) :
    Leads Trades tree memory
      (forEachKey (fun tree memory key => tree.insertEntry memory key value) keys tree memory) := by
  refine leads_forEachKey (fun tree memory => ⟨0, .refl memory tree.holdings⟩) ?_
    (fun h memory key => h.leads_insertEntry memory key value) keys h memory
  rintro tree memory mid m after memory' ⟨n, hn⟩ ⟨k, hk⟩
  exact ⟨n + k, hn.trans hk⟩

/-- A session of a mutable cursor takes out what was removed through it. -/
theorem leads_edit (h : tree.Sound s vacant) (memory : α) (start : Side)
    (commands : List EditCommand) :
    ∃ answers after memory' t rest,
      (tree.cursor start >>= fun cursor => cursor.edit tree memory commands) =
        .ok ⟨answers, after, memory'⟩ ∧
      after.Sound t rest ∧ Lessens tree memory after memory' := by
  obtain ⟨cursor, hcursor, hc⟩ := Cursor.exists_cursor h.hasShape start
  obtain ⟨edit, hfinished, t, rest, position, n, hafter, hsheds, -, -⟩ :=
    Cursor.exists_finished h hc memory commands
  refine ⟨((tree.ringAt s (Ring.outermost start s.inorder.length)).edit commands).1, edit.tree,
    edit.memory, t, rest, ?_, hafter, n, hsheds⟩
  rw [hcursor, ok_bind, Cursor.edit, hfinished]
  rfl

end Sound

end Tree

/-! ### Commands -/

namespace MapCommand

open MeteredMap.Tree Shape

variable {α : Type} [Metered α] {tree : Tree} {s : Shape} {vacant : List Handle}

/-- A command that asks for no memory ends at a sound map that has lost entries at most. -/
theorem leads_of_quiet {command : MapCommand} (hq : command.Quiet) (h : tree.Sound s vacant)
    (memory : α) : Leads Lessens tree memory (command.run tree memory) := by
  cases command with
  | insert key value => exact hq.elim
  | insertMany keys value => exact hq.elim
  | remove key =>
    obtain ⟨answer, after, memory', calls, t, rest, heq, hafter⟩ := h.leads_remove memory key
    exact ⟨_, after, memory', calls, t, rest, by rw [MapCommand.run, heq]; rfl, hafter⟩
  | removeMany keys =>
    obtain ⟨answer, after, memory', calls, t, rest, heq, hafter⟩ := h.leads_removeMany memory keys
    exact ⟨_, after, memory', calls, t, rest, by rw [MapCommand.run, heq]; rfl, hafter⟩
  | removeInto key buffer =>
    obtain ⟨answer, after, memory', calls, t, rest, heq, hafter⟩ :=
      h.leads_removeInto memory key (buffer.getD tree.freshBuffer)
    exact ⟨_, after, memory', calls, t, rest, by rw [MapCommand.run, heq]; rfl, hafter⟩
  | getInto key buffer =>
    obtain ⟨result, calls, heq⟩ := h.exists_getInto key (buffer.getD tree.freshBuffer)
    exact h.leads_same _ calls (by rw [MapCommand.run, heq]; rfl)
  | get key =>
    obtain ⟨found, calls, heq⟩ := h.exists_getKeyValue key
    exact h.leads_same _ calls (by rw [MapCommand.run, Tree.get, heq]; rfl)
  | getKeyValue key =>
    obtain ⟨found, calls, heq⟩ := h.exists_getKeyValue key
    exact h.leads_same _ calls (by rw [MapCommand.run, heq]; rfl)
  | overwrite key bytes offset =>
    obtain ⟨old, after, calls, t, heq, hafter, hk⟩ := h.exists_overwrite key bytes offset
    exact ⟨_, after, memory, calls, t, vacant, by rw [MapCommand.run, heq]; rfl, hafter, 0,
      hk.sheds memory⟩
  | contains key =>
    rcases h.hasShape.exists_find key with ⟨cause, calls, hfind⟩ | ⟨x, e, calls, hfind, -⟩
    · exact h.leads_same _ calls (by rw [MapCommand.run, Tree.contains, hfind]; rfl)
    · exact h.leads_same _ calls (by rw [MapCommand.run, Tree.contains, hfind]; rfl)
  | clear =>
    exact ⟨_, _, _, [], _, [], by rw [MapCommand.run, h.hasShape.clear memory]; rfl, h.cleared, _,
      h.sheds_clear memory⟩
  | figures => exact h.leads_same _ [] rfl
  | sizes => exact h.leads_same _ [] rfl
  | outermost side =>
    obtain ⟨entry, heq⟩ := h.exists_outermostEntry side
    exact h.leads_same _ [] (by rw [MapCommand.run, heq]; rfl)
  | canPerform required => exact h.leads_same _ [] rfl
  | compare first second => exact h.leads_same _ _ rfl
  | usage => exact h.leads_same _ [] rfl
  | describe form =>
    exact h.leads_same _ [] (by rw [MapCommand.run, h.hasShape.entries h.live_eq]; rfl)
  | entries =>
    exact h.leads_same _ [] (by rw [MapCommand.run, h.hasShape.entries h.live_eq]; rfl)
  | iterate view commands =>
    have heq := Iteration.session_eq h.hasShape h.live_eq view commands
    exact h.leads_same _ [] (by rw [MapCommand.run, heq]; rfl)
  | walk start commands =>
    obtain ⟨cursor, hcursor, hc⟩ := Cursor.exists_cursor h.hasShape start
    have heq := Cursor.walk_eq h.hasShape hc commands
    exact h.leads_same _ [] (by rw [MapCommand.run, hcursor, ok_bind, heq]; rfl)
  | edit start commands =>
    obtain ⟨answers, after, memory', t, rest, heq, hafter⟩ := h.leads_edit memory start commands
    refine ⟨.edit answers, after, memory', [], t, rest, ?_, hafter⟩
    rw [MapCommand.run, ← bind_assoc, heq]
    rfl

/-- Every command ends at a sound map and is an exchange of what the map holds, in which nothing is
granted if the command is none that asks for memory. -/
theorem exists_exchange (command : MapCommand) (h : tree.Sound s vacant) (memory : α) :
    ∃ answer after memory' calls t rest k,
      command.run tree memory = .ok ⟨⟨answer, after, memory'⟩, calls⟩ ∧ after.Sound t rest ∧
      Exchange memory tree.holdings k memory' after.holdings ∧ (command.Quiet → k = 0) := by
  by_cases hq : command.Quiet
  · obtain ⟨answer, after, memory', calls, t, rest, heq, hafter, n, hsheds⟩ :=
      leads_of_quiet hq h memory
    exact ⟨answer, after, memory', calls, t, rest, 0, heq, hafter, hsheds.exchange, fun _ => rfl⟩
  · cases command with
    | insert key value =>
      obtain ⟨answer, after, memory', calls, t, rest, heq, hafter, k, hk⟩ :=
        h.leads_insertEntry memory key value
      exact ⟨_, after, memory', calls, t, rest, k, by rw [MapCommand.run, heq]; rfl, hafter, hk,
        fun hq => hq.elim⟩
    | insertMany keys value =>
      obtain ⟨answer, after, memory', calls, t, rest, heq, hafter, k, hk⟩ :=
        h.leads_insertMany memory keys value
      exact ⟨_, after, memory', calls, t, rest, k, by rw [MapCommand.run, heq]; rfl, hafter, hk,
        fun hq => hq.elim⟩
    | _ => exact absurd trivial hq

end MapCommand

end MeteredMap
