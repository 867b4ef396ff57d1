import MeteredMap.Proofs.Ring.Basic
import MeteredMap.Proofs.Tree.RedBlack
import MeteredMap.Proofs.Tree.Shedding

/-!
# Cursors as positions of rings

A cursor is a handle, and handles stay at their entries only until a removal moves an entry to the
slot of another. It is shown here that a cursor nevertheless answers as the ring of the entries of
its map does, whatever the comparator says, and that a mutable one leaves the entries of that ring.

## Main definitions

* `MeteredMap.Ring.Stands` : the handle of a cursor and a position, among nodes in order.
* `MeteredMap.Tree.ringAt` : the ring of a tree with a shape.
* `MeteredMap.Cursor.Edit.Follows` : a mutable cursor at work and a ring.

## Main results

* `MeteredMap.Cursor.Edit.Follows.step` : one command to a mutable cursor.
* `MeteredMap.Tree.Reachable.edit_eq_ring` : sessions of a mutable cursor on a reachable map.
-/

namespace MeteredMap

/-- A blob that is written over by one of its length is that one. -/
theorem Blob.overwrite_of_length_eq {old bytes : Blob} (h : bytes.length = old.length) :
    old.overwrite bytes 0 = bytes := by
  simp [Blob.overwrite, ← h]

open Shape

namespace Ring

/-! ### Positions among nodes -/

/-- Where a cursor stands among nodes in order: at the handle of a node, whose index is the
position, or at the ghost. -/
inductive Stands : (nodes : List (Handle × Entry)) → (current : Option Handle) →
    (position : Option Nat) → Prop
  | ghost (nodes : List (Handle × Entry)) : Stands nodes none none
  | entry (pre post : List (Handle × Entry)) (x : Handle) (e : Entry) :
      Stands (pre ++ (x, e) :: post) (some x) (some pre.length)

namespace Stands

variable {nodes : List (Handle × Entry)} {current : Option Handle} {position : Option Nat}

/-- At the head of what follows some nodes, or at the ghost if nothing follows. -/
theorem head (pre post : List (Handle × Entry)) :
    Stands (pre ++ post) (post.head?.map Prod.fst)
      (if pre.length < (pre ++ post).length then some pre.length else none) := by
  rcases post with _ | ⟨⟨x, e⟩, post⟩
  · rw [List.append_nil, if_neg (Nat.lt_irrefl _)]
    exact .ghost _
  · rw [List.length_append, if_pos (by simp)]
    exact .entry pre post x e

theorem first (nodes : List (Handle × Entry)) :
    Stands nodes (nodes.head?.map Prod.fst) (outermost .left nodes.length) := by
  rcases nodes with _ | ⟨⟨x, e⟩, nodes⟩
  · exact .ghost _
  · exact .entry [] nodes x e

theorem last (nodes : List (Handle × Entry)) :
    Stands nodes (nodes.reverse.head?.map Prod.fst) (outermost .right nodes.length) := by
  rcases List.eq_nil_or_concat nodes with rfl | ⟨pre, ⟨x, e⟩, rfl⟩
  · exact .ghost _
  · rw [List.concat_eq_append, List.reverse_append, List.length_append]
    exact .entry pre [] x e

/-- At the outermost node on a side. -/
theorem outermost (s : Shape) (side : Side) :
    Stands s.inorder ((s.toward side.other).head?.map Prod.fst)
      (outermost side s.inorder.length) := by
  cases side with
  | left => exact first s.inorder
  | right => exact last s.inorder

/-- At the node that follows, or at the ghost. -/
theorem right (pre post : List (Handle × Entry)) (x : Handle) (e : Entry) :
    Stands (pre ++ (x, e) :: post) (post.head?.map Prod.fst)
      (next .right (pre ++ (x, e) :: post).length (some pre.length)) := by
  rcases post with _ | ⟨⟨y, ey⟩, post⟩
  · rw [next, List.length_append, if_pos (by simp)]
    exact .ghost _
  · have hnext := Stands.entry (pre ++ [(x, e)]) post y ey
    rw [next, List.length_append, if_neg (by simp)]
    rwa [List.append_assoc, List.length_append] at hnext

/-- At the node before, or at the ghost. -/
theorem left (pre post : List (Handle × Entry)) (x : Handle) (e : Entry) :
    Stands (pre ++ (x, e) :: post) (pre.reverse.head?.map Prod.fst)
      (next .left (pre ++ (x, e) :: post).length (some pre.length)) := by
  rcases List.eq_nil_or_concat pre with rfl | ⟨pre, ⟨y, ey⟩, rfl⟩
  · exact .ghost _
  · rw [List.concat_eq_append, List.reverse_append, List.append_assoc]
    have hbefore := Stands.entry pre ((x, e) :: post) y ey
    rw [next, List.length_append, if_neg (by simp)]
    exact hbefore

/-- The handle at a position is read off the handles in order. -/
theorem current_eq (h : Stands nodes current position) :
    current.map some = position.map fun i => (nodes.map Prod.fst)[i]? := by
  cases h with
  | ghost => rfl
  | entry pre post x e => simp

theorem isSome_eq (h : Stands nodes current position) : current.isSome = position.isSome := by
  cases h <;> rfl

end Stands

end Ring

/-! ### Cursors on sound trees -/

namespace Tree

/-- The ring of the entries of a tree with a shape. -/
def ringAt (tree : Tree) (s : Shape) (position : Option Nat) : Ring where
  keySize := tree.keySize
  valueSize := tree.valueSize
  entries := s.entries
  position := position

end Tree

namespace Cursor

open MeteredMap.Tree MeteredMap.Ring

variable {α : Type} {tree after : Tree} {s t : Shape} {vacant : List Handle} {cursor : Cursor}
  {position : Option Nat}

/-- A cursor is at the ghost, or at a node among the others. -/
theorem cases_of_stands (h : tree.HasShape s) (hc : Stands s.inorder cursor.current position) :
    (cursor.current = none ∧ position = none) ∨
      ∃ pre x e post, s.inorder = pre ++ (x, e) :: post ∧ cursor.current = some x ∧
        position = some pre.length ∧ tree.entry x = .ok e ∧
        (tree.ringAt s position).current = some e := by
  obtain ⟨current⟩ := cursor
  generalize hnodes : s.inorder = nodes at hc
  cases hc with
  | ghost => exact Or.inl ⟨rfl, rfl⟩
  | entry pre post x e =>
    refine Or.inr ⟨pre, x, e, post, rfl, rfl, rfl, h.entry_of_mem (by simp [hnodes]), ?_⟩
    simp [Ring.current, ringAt, Shape.entries, hnodes]

theorem current_eq (h : tree.HasShape s) (hc : Stands s.inorder cursor.current position) :
    cursor.entry? tree = .ok (tree.ringAt s position).current := by
  rcases cases_of_stands h hc with
    ⟨hcurrent, rfl⟩ | ⟨pre, x, e, post, -, hcurrent, -, hx, hentry⟩
  · unfold Cursor.entry?
    rw [hcurrent]
    rfl
  · rw [hentry, Cursor.entry?, hcurrent]
    dsimp only
    rw [hx, map_ok]

theorem located_eq {ρ : Type} (h : tree.HasShape s)
    (hc : Stands s.inorder cursor.current position) (answer : ρ) :
    cursor.located tree answer = .ok ((tree.ringAt s position).located answer) := by
  rw [Cursor.located, current_eq h hc]
  rfl

/-- A cursor starts where the ring does. -/
theorem exists_cursor (h : tree.HasShape s) (side : Side) :
    ∃ cursor, tree.cursor side = .ok cursor ∧
      Stands s.inorder cursor.current (Ring.outermost side s.inorder.length) := by
  refine ⟨⟨(s.toward side.other).head?.map Prod.fst⟩, ?_, .outermost s side⟩
  rw [Tree.cursor, h.outermost]
  rfl

theorem exists_move (h : tree.HasShape s) (hc : Stands s.inorder cursor.current position)
    (side : Side) :
    ∃ moved, cursor.move tree side = .ok moved ∧
      Stands s.inorder moved.current (Ring.next side s.inorder.length position) := by
  obtain ⟨current⟩ := cursor
  generalize hnodes : s.inorder = nodes at hc
  cases hc with
  | ghost =>
    rw [← hnodes]
    exact exists_cursor h side.other
  | entry pre post x e =>
    cases side with
    | right =>
      refine ⟨⟨post.head?.map Prod.fst⟩, ?_, .right pre post x e⟩
      rw [Cursor.move]
      dsimp only
      rw [h.neighbor (show s.toward .right = _ from hnodes), map_ok]
    | left =>
      have hbackwards : s.toward .left = post.reverse ++ (x, e) :: pre.reverse := by
        rw [Shape.toward, hnodes]
        simp
      refine ⟨⟨pre.reverse.head?.map Prod.fst⟩, ?_, .left pre post x e⟩
      rw [Cursor.move]
      dsimp only
      rw [h.neighbor hbackwards, map_ok]

/-! ### Reading -/

theorem readInto_eq (h : tree.HasShape s) (hc : Stands s.inorder cursor.current position)
    (key value : Blob) :
    cursor.readInto tree key value = .ok ((tree.ringAt s position).readInto key value) := by
  have hkey : (tree.ringAt s position).checkKey key = tree.checkKey key := rfl
  have hvalue : (tree.ringAt s position).checkValue value = tree.checkValue value := rfl
  rw [Cursor.readInto, Ring.readInto, hkey, hvalue]
  rcases cases_of_stands h hc with
    ⟨hcurrent, rfl⟩ | ⟨pre, x, e, post, -, hcurrent, -, hx, hentry⟩
  · rw [hcurrent]
    rfl
  · rw [hcurrent, hentry]
    dsimp only
    cases tree.checkKey key with
    | error cause => rfl
    | ok =>
      cases tree.checkValue value with
      | error cause => rfl
      | ok =>
        dsimp only
        rw [hx]
        rfl

/-- A command that both kinds of cursor understand changes the position alone. -/
theorem exists_look (h : tree.HasShape s) (hc : Stands s.inorder cursor.current position)
    (name : String) (command : LookCommand) :
    ∃ moved p, cursor.look tree name command =
        .ok (((tree.ringAt s position).look name command).1, moved) ∧
      ((tree.ringAt s position).look name command).2 = tree.ringAt s p ∧
      Stands s.inorder moved.current p := by
  have hentry := current_eq h hc
  have hvalid : cursor.isValid = (tree.ringAt s position).position.isSome := hc.isSome_eq
  cases command with
  | move side =>
    obtain ⟨moved, heq, hmoved⟩ := exists_move h hc side
    have hlength : s.entries.length = s.inorder.length := List.length_map ..
    have hring : (tree.ringAt s position).move side =
        tree.ringAt s (Ring.next side s.inorder.length position) := by
      rw [Ring.move, ringAt, hlength]
      rfl
    refine ⟨moved, _, ?_, hring, hmoved⟩
    rw [Cursor.look, heq, ok_bind, Ring.look, hring]
    exact congrArg (fun b => Except.ok (LookAnswer.flag b, moved)) hmoved.isSome_eq
  | valid =>
    refine ⟨cursor, position, ?_, rfl, hc⟩
    rw [Cursor.look, Ring.look, hvalid]
    rfl
  | key => exact ⟨cursor, position, by rw [Cursor.look, hentry]; rfl, rfl, hc⟩
  | value => exact ⟨cursor, position, by rw [Cursor.look, hentry]; rfl, rfl, hc⟩
  | entry => exact ⟨cursor, position, by rw [Cursor.look, hentry]; rfl, rfl, hc⟩
  | describe form => exact ⟨cursor, position, by rw [Cursor.look, hentry]; rfl, rfl, hc⟩
  | read key value =>
    exact ⟨cursor, position, by rw [Cursor.look, readInto_eq h hc]; rfl, rfl, hc⟩

/-- A read-only cursor at work, with its copy, and a ring with a position kept. -/
def Walk.Follows (tree : Tree) (s : Shape) (walk : Walk) (state : Ring × Option Nat) : Prop :=
  ∃ p q, state = (tree.ringAt s p, q) ∧ Stands s.inorder walk.current.current p ∧
    Stands s.inorder walk.saved.current q

theorem Walk.Follows.step (h : tree.HasShape s) (command : WalkCommand) (walk : Walk)
    (state : Ring × Option Nat) (hw : Walk.Follows tree s walk state) :
    ∃ next, walkStep tree command walk = .ok ((Ring.walkStep command state).1, next) ∧
      Walk.Follows tree s next (Ring.walkStep command state).2 := by
  obtain ⟨p, q, rfl, hp, hq⟩ := hw
  cases command with
  | look command =>
    obtain ⟨moved, r, heq, hring, hmoved⟩ := exists_look h hp "Cursor" command
    refine ⟨⟨moved, walk.saved⟩, ?_, r, q, ?_, hmoved, hq⟩
    · simp only [walkStep, heq, ok_bind, pure_eq_ok, located_eq h hmoved, Ring.walkStep, hring]
    · exact congrArg (·, q) hring
  | save =>
    refine ⟨⟨walk.current, walk.current⟩, ?_, p, p, rfl, hp, hp⟩
    simp only [walkStep, ok_bind, pure_eq_ok, located_eq h hp, Ring.walkStep]
  | restore =>
    refine ⟨⟨walk.saved, walk.saved⟩, ?_, q, q, rfl, hq, hq⟩
    simp only [walkStep, ok_bind, pure_eq_ok, located_eq h hq, Ring.walkStep]
    rfl

/-- A read-only cursor answers as the ring does. -/
theorem walk_eq (h : tree.HasShape s) (hc : Stands s.inorder cursor.current position)
    (commands : List WalkCommand) :
    cursor.walk tree commands = .ok ((tree.ringAt s position).walk commands) := by
  have hstart : Walk.Follows tree s ⟨cursor, cursor⟩ (tree.ringAt s position, position) :=
    ⟨position, position, rfl, hc, hc⟩
  obtain ⟨last, heq, -⟩ :=
    Transcript.finished_of_simulates (Walk.Follows.step h) commands hstart
  rw [Cursor.walk, heq]
  rfl

/-! ### Changing -/

/-- What is written over the value at the position. -/
theorem exists_overwriteAt (h : tree.Sound s vacant) {pre post : List (Handle × Entry)} {x : Handle}
    {e : Entry} (hs : s.inorder = pre ++ (x, e) :: post) (bytes : Blob) (offset : Nat) :
    ∃ after t, tree.overwriteAt x bytes offset = .ok after ∧ after.Sound t vacant ∧
      Relinked tree after ∧ Stands t.inorder (some x) (some pre.length) ∧
      (tree.ringAt s (some pre.length)).withValue (Blob.overwrite · bytes offset) =
        after.ringAt t (some pre.length) := by
  have hx : x ∈ s.handles := List.mem_map.mpr ⟨(x, e), by simp [hs], rfl⟩
  obtain ⟨after, t, pre', e', post', heq, hafter, hk, hs', ht⟩ := h.overwriteAt hx bytes offset
  obtain ⟨rfl, rfl, rfl⟩ := toward_split_unique .right h.hasShape.nodup hs hs'
  refine ⟨after, t, heq, hafter, hk, ht ▸ .entry _ _ _ _, ?_⟩
  simp only [ringAt, withValue, hk.akin.keySize, hk.akin.valueSize, Shape.entries, hs, ht,
    List.map_append, List.map_cons]
  simp [List.modify_eq_take_drop]

theorem exists_setValue (h : tree.Sound s vacant)
    (hc : Stands s.inorder cursor.current position) (value : Blob) :
    ∃ after t, cursor.setValue tree value =
        .ok (((tree.ringAt s position).setValue value).1, after) ∧
      after.Sound t vacant ∧ Relinked tree after ∧ Stands t.inorder cursor.current position ∧
      ((tree.ringAt s position).setValue value).2 = after.ringAt t position := by
  have hvalue : (tree.ringAt s position).checkValue value = tree.checkValue value := rfl
  rcases cases_of_stands h.hasShape hc with
    ⟨hcurrent, rfl⟩ | ⟨pre, x, e, post, hs, hcurrent, rfl, -, -⟩
  · refine ⟨tree, s, ?_, h, .refl tree, hc, rfl⟩
    rw [Cursor.setValue, hcurrent]
    rfl
  · cases hcheck : tree.checkValue value with
    | error cause =>
      have hring : (tree.ringAt s (some pre.length)).setValue value =
          (.error cause, tree.ringAt s (some pre.length)) := by
        rw [Ring.setValue, hvalue, hcheck]
        rfl
      refine ⟨tree, s, ?_, h, .refl tree, hc, by rw [hring]⟩
      rw [Cursor.setValue, hcurrent, hring]
      dsimp only
      rw [hcheck]
      rfl
    | ok =>
      -- A write that covers the whole of a value puts the new one in its place.
      have hold : e.value.length = value.length := by
        rw [length_of_checkValue hcheck]
        exact (h.admits e (List.mem_map.mpr ⟨(x, e), by simp [hs], rfl⟩)).2
      have hring : (tree.ringAt s (some pre.length)).setValue value =
          (.ok (), (tree.ringAt s (some pre.length)).withValue (Blob.overwrite · value 0)) := by
        rw [Ring.setValue, hvalue, hcheck]
        simp [ringAt, withValue, Shape.entries, hs, List.modify_eq_take_drop,
          Blob.overwrite_of_length_eq hold.symm]
      obtain ⟨after, t, heq, hafter, hk, hstands, hover⟩ := exists_overwriteAt h hs value 0
      refine ⟨after, t, ?_, hafter, hk, hcurrent ▸ hstands, by rw [hring, hover]⟩
      rw [Cursor.setValue, hcurrent, hring]
      dsimp only
      rw [hcheck]
      dsimp only
      rw [heq]
      rfl

theorem exists_overwrite (h : tree.Sound s vacant)
    (hc : Stands s.inorder cursor.current position) (bytes : Blob) (offset : Nat) :
    ∃ after t, cursor.overwrite tree bytes offset =
        .ok ((tree.ringAt s position).current.map Entry.value, after) ∧
      after.Sound t vacant ∧ Relinked tree after ∧ Stands t.inorder cursor.current position ∧
      (tree.ringAt s position).withValue (Blob.overwrite · bytes offset) =
        after.ringAt t position := by
  rcases cases_of_stands h.hasShape hc with
    ⟨hcurrent, rfl⟩ | ⟨pre, x, e, post, hs, hcurrent, rfl, hx, hentry⟩
  · refine ⟨tree, s, ?_, h, .refl tree, hc, rfl⟩
    rw [Cursor.overwrite, hcurrent]
    rfl
  · obtain ⟨after, t, heq, hafter, hk, hstands, hring⟩ := exists_overwriteAt h hs bytes offset
    refine ⟨after, t, ?_, hafter, hk, hcurrent ▸ hstands, hring⟩
    rw [Cursor.overwrite, hcurrent, hentry]
    dsimp only
    rw [hx, ok_bind, heq]
    rfl

/-- An entry taken out of an order, next to its index: what followed it is at that index, if
anything did. -/
theorem stands_of_removes {pre post : List (Handle × Entry)} {x freed : Handle} {e e' : Entry}
    {next : Option Handle} (hnodup : s.handles.Nodup) (hs : s.inorder = pre ++ (x, e) :: post)
    (h : Removes x e' s.inorder freed next t.inorder) :
    Stands t.inorder next
        (if pre.length < t.entries.length then some pre.length else none) ∧
      s.entries.eraseIdx pre.length = t.entries := by
  have hlength : t.entries.length = t.inorder.length := List.length_map ..
  rw [hlength]
  simp only [Shape.entries]
  generalize hbefore : s.inorder = before at h
  generalize t.inorder = after at h
  cases h with
  | direct pre' post' =>
    obtain ⟨rfl, rfl, rfl⟩ := toward_split_unique .right hnodup hs hbefore
    refine ⟨.head pre post, ?_⟩
    simp [List.eraseIdx_append_of_length_le]
  | swapped pre' post' y ey =>
    obtain ⟨rfl, rfl, rfl⟩ := toward_split_unique .right hnodup hs hbefore
    refine ⟨?_, ?_⟩
    · rw [if_pos (by simp)]
      exact .entry pre post' x ey
    · simp [List.eraseIdx_append_of_length_le]

/-- A removal leaves the cursor at the entry that followed, wherever that is now. -/
theorem exists_remove [Allocator α] (h : tree.Sound s vacant)
    (hc : Stands s.inorder cursor.current position) (memory : α) :
    ∃ moved after t rest p n memory', cursor.remove tree memory =
        .ok (moved, ⟨(tree.ringAt s position).remove.1, after, memory'⟩) ∧
      after.Sound t rest ∧ Sheds tree memory n after memory' ∧ Stands t.inorder moved.current p ∧
      (tree.ringAt s position).remove.2 = after.ringAt t p := by
  rcases cases_of_stands h.hasShape hc with
    ⟨hcurrent, rfl⟩ | ⟨pre, x, e, post, hs, hcurrent, rfl, -, -⟩
  · refine ⟨cursor, tree, s, vacant, none, 0, memory, ?_, h, .refl tree memory, hc, rfl⟩
    rw [Cursor.remove, hcurrent]
    rfl
  · have hmem : x ∈ s.handles := List.mem_map.mpr ⟨(x, e), by simp [hs], rfl⟩
    obtain ⟨e', next, freed, after, t, memory', heq, hafter, hremoves, hsheds⟩ :=
      h.exists_removeAt hmem memory
    obtain ⟨hstands, hentries⟩ := stands_of_removes h.hasShape.nodup hs hremoves
    refine ⟨⟨next⟩, after, t, _, _, 1, memory', ?_, hafter, hsheds, hstands, ?_⟩
    · rw [Cursor.remove, hcurrent]
      dsimp only
      rw [heq]
      rfl
    · simp only [Ring.remove, ringAt, hsheds.akin.keySize, hsheds.akin.valueSize, hentries]

/-! ### Sessions -/

/-- A mutable cursor at work and a ring: the map is sound, holds the entries of the ring and has
shed others since the start, and the cursor stands at the position. -/
def Edit.Follows [Allocator α] (start edit : Edit α) (ring : Ring) : Prop :=
  ∃ s vacant position n, edit.tree.Sound s vacant ∧
    Sheds start.tree start.memory n edit.tree edit.memory ∧
    Stands s.inorder edit.cursor.current position ∧ ring = edit.tree.ringAt s position

/-- Every command to a mutable cursor is answered as by the ring. -/
theorem Edit.Follows.step [Allocator α] {start : Edit α} (command : EditCommand) (edit : Edit α)
    (ring : Ring) (hf : Edit.Follows start edit ring) :
    ∃ next, editStep command edit = .ok ((Ring.editStep command ring).1, next) ∧
      Edit.Follows start next (Ring.editStep command ring).2 := by
  obtain ⟨s, vacant, position, n, h, hsheds, hc, rfl⟩ := hf
  cases command with
  | look command =>
    obtain ⟨moved, p, heq, hring, hmoved⟩ := exists_look h.hasShape hc "CursorMut" command
    refine ⟨{ edit with cursor := moved }, ?_, s, vacant, p, n, h, hsheds, hmoved, hring⟩
    simp only [editStep, heq, ok_bind, pure_eq_ok, located_eq h.hasShape hmoved, Ring.editStep,
      hring]
  | setValue value =>
    obtain ⟨after, t, heq, hafter, hk, hstands, hring⟩ := exists_setValue h hc value
    refine ⟨{ edit with tree := after }, ?_, t, vacant, position, 0 + n, hafter,
      hsheds.trans (hk.sheds edit.memory), hstands, hring⟩
    simp only [editStep, heq, ok_bind, pure_eq_ok, located_eq hafter.hasShape hstands,
      Ring.editStep, hring]
  | overwrite bytes offset =>
    obtain ⟨after, t, heq, hafter, hk, hstands, hring⟩ := exists_overwrite h hc bytes offset
    refine ⟨{ edit with tree := after }, ?_, t, vacant, position, 0 + n, hafter,
      hsheds.trans (hk.sheds edit.memory), hstands, hring⟩
    simp only [editStep, heq, ok_bind, pure_eq_ok, located_eq hafter.hasShape hstands,
      Ring.editStep, hring]
  | remove =>
    obtain ⟨moved, after, t, rest, p, k, memory', heq, hafter, hshed, hstands, hring⟩ :=
      exists_remove h hc edit.memory
    refine ⟨⟨moved, after, memory'⟩, ?_, t, rest, p, k + n, hafter, hsheds.trans hshed, hstands,
      hring⟩
    simp only [editStep, heq, ok_bind, pure_eq_ok, located_eq hafter.hasShape hstands,
      Ring.editStep, hring]
  | walk commands =>
    refine ⟨edit, ?_, s, vacant, position, n, h, hsheds, hc, rfl⟩
    simp only [editStep, walk_eq h.hasShape hc, ok_bind, pure_eq_ok, located_eq h.hasShape hc,
      Ring.editStep]

/-- A session of a mutable cursor on a sound tree. -/
theorem exists_finished [Allocator α] (h : tree.Sound s vacant)
    (hc : Stands s.inorder cursor.current position) (memory : α) (commands : List EditCommand) :
    ∃ edit, (Transcript.run editStep commands ⟨cursor, tree, memory⟩).finished =
        .ok (((tree.ringAt s position).edit commands).1, edit) ∧
      Edit.Follows ⟨cursor, tree, memory⟩ edit ((tree.ringAt s position).edit commands).2 := by
  have hstart : Edit.Follows ⟨cursor, tree, memory⟩ ⟨cursor, tree, memory⟩
      (tree.ringAt s position) :=
    ⟨s, vacant, position, 0, h, .refl tree memory, hc, rfl⟩
  exact Transcript.finished_of_simulates Edit.Follows.step commands hstart

end Cursor

namespace Tree

variable {α : Type} [Allocator α] {tree : Tree}

/-- The ring of a map whose entries are `entries`, with its position at the first or at the last
of them. -/
def ring (tree : Tree) (entries : List Entry) (side : Side) : Ring where
  keySize := tree.keySize
  valueSize := tree.valueSize
  entries := entries
  position := Ring.outermost side entries.length

/-- On every reachable map, under any comparator, a mutable cursor from either end answers every
sequence of commands as the ring of the entries does. The map that it leaves holds the entries of
that ring in the same order, and the cursor is at the node whose index is the position of the
ring, or at the ghost. -/
theorem Reachable.edit_eq_ring (hr : Reachable tree) (side : Side) (memory : α)
    (commands : List EditCommand) :
    ∃ cursor entries answers edit drawing after, tree.cursor side = .ok cursor ∧
      tree.entries = .ok entries ∧ (tree.ring entries side).edit commands = (answers, after) ∧
      (Transcript.run Cursor.editStep commands ⟨cursor, tree, memory⟩).finished =
        .ok (answers, edit) ∧
      cursor.edit tree memory commands = .ok ⟨answers, edit.tree, edit.memory⟩ ∧
      edit.tree.entries = .ok after.entries ∧ edit.tree.drawing = .ok drawing ∧
      edit.cursor.current.map some = after.position.map fun i => drawing.handles[i]? := by
  obtain ⟨s, vacant, h⟩ := hr.sound
  obtain ⟨cursor, hcursor, hc⟩ := Cursor.exists_cursor h.hasShape side
  obtain ⟨edit, hfinished, t, rest, position, n, hafter, -, hstands, hring⟩ :=
    Cursor.exists_finished h hc memory commands
  have hlength : s.entries.length = s.inorder.length := List.length_map ..
  have hstart :
      tree.ringAt s (Ring.outermost side s.inorder.length) = tree.ring s.entries side := by
    rw [ring, hlength]
    rfl
  rw [hstart] at hfinished hring
  refine ⟨cursor, s.entries, _, edit, t.drawing none,
    ((tree.ring s.entries side).edit commands).2, hcursor, h.hasShape.entries h.live_eq, rfl,
    hfinished, ?_, ?_, hafter.hasShape.drawing, ?_⟩
  · rw [Cursor.edit, hfinished]
    rfl
  · rw [hring, hafter.hasShape.entries hafter.live_eq]
    rfl
  · rw [hring, handles_drawing, hstands.current_eq]
    rfl

/-- From the second of four entries: a removal where the entry that follows moves to the slot of
the one removed, a write, moves over the ghost and the removal of the last entry. -/
def sampleCommands : List EditCommand :=
  [.look (.move .right), .remove, .setValue [7], .look (.move .left), .look (.move .left),
    .setValue [1, 2], .remove, .look (.move .left), .overwrite [8, 9] 0, .remove]

example :
    ((Ring.mk 1 1 [⟨[1], [0]⟩, ⟨[2], [0]⟩, ⟨[3], [0]⟩, ⟨[4], [0]⟩] (some 0)).edit
      sampleCommands).1.map Located.key =
        [some [2], some [3], some [3], some [1], none, none, none, some [4], some [4], none] := by
  decide

theorem Reachable.edit_eq_ring_sample :
    ∃ (full : Tree) (memory' : Budget Heap) (cursor : Cursor) (edit : Cursor.Edit (Budget Heap))
      (answers : List (Located EditAnswer)) (after : Ring),
      Operation.runAll (sampleRun.take 4) sampleTree sampleMemory = .ok (full, memory') ∧
      full.cursor .left = .ok cursor ∧
      (Ring.mk 1 1 [⟨[1], [0]⟩, ⟨[2], [0]⟩, ⟨[3], [0]⟩, ⟨[4], [0]⟩] (some 0)).edit
        sampleCommands = (answers, after) ∧
      cursor.edit full memory' sampleCommands = .ok ⟨answers, edit.tree, edit.memory⟩ ∧
      edit.tree.entries = .ok after.entries ∧ after.entries = [⟨[1], [0]⟩, ⟨[3], [7]⟩] ∧
      edit.cursor.current = none := by
  obtain ⟨full, memory', hrun, hfull⟩ := exists_sampleRun_take 4
  have hring : (Operation.runAll (sampleRun.take 4) sampleTree sampleMemory >>= fun p =>
      (fun entries => p.1.ring entries .left) <$> p.1.entries) =
        .ok ⟨1, 1, [⟨[1], [0]⟩, ⟨[2], [0]⟩, ⟨[3], [0]⟩, ⟨[4], [0]⟩], some 0⟩ := rfl
  obtain ⟨cursor, entries, answers, edit, drawing, after, hcursor, hentries, hplayed, -, hedit,
    hafter, -, hcurrent⟩ := Reachable.edit_eq_ring hfull .left memory' sampleCommands
  rw [hrun, ok_bind, hentries, map_ok, Except.ok.injEq] at hring
  rw [hring] at hplayed
  obtain rfl : _ = after := congrArg Prod.snd hplayed
  refine ⟨full, memory', cursor, edit, answers, _, hrun, hcursor, hplayed, hedit, hafter, rfl, ?_⟩
  cases hx : edit.cursor.current with
  | none => rfl
  | some x =>
    rw [hx] at hcurrent
    cases hcurrent

end Tree

end MeteredMap
