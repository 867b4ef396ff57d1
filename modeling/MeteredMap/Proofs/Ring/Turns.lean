import Mathlib.Data.ZMod.Basic
import MeteredMap.Proofs.Cursor
import MeteredMap.Proofs.Ring.Refinement

/-!
# Turns of the ring

The links of a reachable tree lead from every node to the next one and back, whatever the comparator
says, and the ghost closes this chain to a ring. On the ring a move turns by one, forth or back, so
that what a list of moves comes to is a sum modulo the number of positions.

## Main definitions

* `MeteredMap.Tree.follow` : the nodes that are met on a way from node to node.
* `MeteredMap.Ring.angle` : where a position is, modulo the number of positions.
* `MeteredMap.Cursor.Goes` : where moves take a cursor of either kind.

## Main results

* `MeteredMap.Ring.angle_next` : a move turns by one.
* `MeteredMap.Tree.HasShape.follow_neighbor` : the way from node to node is the order.
* `MeteredMap.Tree.HasShape.neighbor_comm` : the way back from the next node.
* `MeteredMap.Cursor.exists_goes` : a list of moves comes back exactly if it turns by a multiple of
  the number of positions.
* `MeteredMap.Tree.Reachable.turns` : neighbours and cursors on reachable trees.
-/

namespace MeteredMap

/-- A move to the right turns by one, a move to the left back by one. -/
def Side.turn : Side → ℤ
  | left => -1
  | right => 1

theorem Side.turn_other (side : Side) : side.other.turn = -side.turn := by
  cases side <;> rfl

namespace Ring

/-! ### Angles -/

/-- Where a position among `count` entries is, counted from the first entry. The ghost comes after
the last entry, and after the ghost comes the first again. -/
def angle (count : Nat) (position : Option Nat) : ZMod (count + 1) :=
  (position.getD count : Nat)

/-- A move turns by one. -/
theorem angle_next (side : Side) (count : Nat) (position : Option Nat) :
    angle count (next side count position) = angle count position + side.turn := by
  -- The ghost is at `count`, which is also one before the first entry.
  have hround : (count : ZMod (count + 1)) + 1 = 0 := ZMod.natCast_self' count
  rcases position with _ | i
  · by_cases hcount : count = 0
    · subst hcount
      exact Subsingleton.elim (α := ZMod 1) _ _
    · cases side with
      | left =>
        have hlast : ((count - 1 : Nat) : ZMod (count + 1)) = count - 1 := by
          rw [Nat.cast_sub (by omega), Nat.cast_one]
        simp [next, outermost, hcount, angle, Side.other, Side.turn, hlast, sub_eq_add_neg]
      | right => simp [next, outermost, hcount, angle, Side.other, Side.turn, hround]
  · cases side with
    | left =>
      by_cases hi : i = 0
      · simp [next, hi, angle, Side.turn, eq_neg_of_add_eq_zero_left hround]
      · have hbefore : ((i - 1 : Nat) : ZMod (count + 1)) = i - 1 := by
          rw [Nat.cast_sub (by omega), Nat.cast_one]
        simp [next, hi, angle, Side.turn, hbefore, sub_eq_add_neg]
    | right =>
      by_cases hi : i + 1 = count
      · simp [next, ← hi, angle, Side.turn]
      · simp [next, hi, angle, Side.turn]

namespace Stands

variable {nodes : List (Handle × Entry)} {current current' : Option Handle}
  {position position' : Option Nat}

theorem getD_le (h : Stands nodes current position) :
    position.getD nodes.length ≤ nodes.length := by
  cases h with
  | ghost => exact Nat.le_refl _
  | entry pre post x e => simp

/-- Behind the last handle nothing is found, which is where the ghost is. -/
theorem getElem?_eq (h : Stands nodes current position) :
    (nodes.map Prod.fst)[position.getD nodes.length]? = current := by
  cases h with
  | ghost => simp
  | entry pre post x e => simp

/-- Where no node is met twice, different places are at different angles. -/
theorem angle_eq_iff (hnodup : (nodes.map Prod.fst).Nodup) (h : Stands nodes current position)
    (h' : Stands nodes current' position') :
    angle nodes.length position = angle nodes.length position' ↔ current = current' := by
  have hle := h.getD_le
  have hle' := h'.getD_le
  rw [← h.getElem?_eq, ← h'.getElem?_eq, angle, angle, ZMod.natCast_eq_natCast_iff',
    Nat.mod_eq_of_lt (by omega), Nat.mod_eq_of_lt (by omega)]
  refine ⟨fun heq => by rw [heq], fun heq => ?_⟩
  by_cases hlt : position.getD nodes.length < nodes.length
  · exact (List.getElem?_inj (by rwa [List.length_map]) hnodup).mp heq
  · rw [List.getElem?_eq_none (by rw [List.length_map]; omega), eq_comm,
      List.getElem?_eq_none_iff, List.length_map] at heq
    omega

end Stands

end Ring

/-! ### Moves -/

namespace Cursor

open MeteredMap.Tree MeteredMap.Ring

variable {tree : Tree} {s : Shape} {cursor next moved : Cursor} {side : Side} {sides : List Side}
  {position : Option Nat}

/-- The cursor after moves toward one side after the other. -/
def travel (cursor : Cursor) (tree : Tree) (sides : List Side) : Except Fault Cursor :=
  sides.foldlM (fun cursor side => cursor.move tree side) cursor

theorem travel_cons : cursor.travel tree (side :: sides) =
    cursor.move tree side >>= fun next => next.travel tree sides :=
  List.foldlM_cons

theorem travel_singleton : cursor.travel tree [side] = cursor.move tree side := by
  rw [travel_cons]
  exact bind_pure _

/-- Moves toward one side after the other take the cursor to `moved`. So do these moves as commands
to a read-only cursor, and as commands to a mutable one, which leave the map and the memory as they
were. -/
structure Goes (cursor : Cursor) (tree : Tree) (sides : List Side) (moved : Cursor) : Prop where
  travel : cursor.travel tree sides = .ok moved
  reading (saved : Cursor) : ∃ answers,
    (Transcript.run (walkStep tree) (sides.map fun side => .look (.move side))
      ⟨cursor, saved⟩).finished = .ok (answers, ⟨moved, saved⟩)
  changing (α : Type) [Allocator α] (memory : α) : ∃ answers,
    (Transcript.run editStep (sides.map fun side => .look (.move side))
      ⟨cursor, tree, memory⟩).finished = .ok (answers, ⟨moved, tree, memory⟩)

theorem Goes.nil (cursor : Cursor) (tree : Tree) : cursor.Goes tree [] cursor :=
  ⟨rfl, fun _ => ⟨[], rfl⟩, fun _ _ _ => ⟨[], rfl⟩⟩

/-- One more move in front. -/
theorem Goes.cons (h : tree.HasShape s) (heq : cursor.move tree side = .ok next)
    (hc : Ring.Stands s.inorder next.current position) (hgoes : next.Goes tree sides moved) :
    cursor.Goes tree (side :: sides) moved := by
  have hlook : ∀ name, cursor.look tree name (.move side) = .ok (.flag next.isValid, next) := by
    intro name
    rw [Cursor.look, heq]
    rfl
  refine ⟨?_, fun saved => ?_, fun α _ memory => ?_⟩
  · rw [travel_cons, heq, ok_bind, hgoes.travel]
  · obtain ⟨answers, hrest⟩ := hgoes.reading saved
    have hstep : walkStep tree (.look (.move side)) ⟨cursor, saved⟩ =
        .ok ((tree.ringAt s position).located (.look (.flag next.isValid)), ⟨next, saved⟩) := by
      simp only [walkStep, hlook, ok_bind, pure_eq_ok, located_eq h hc]
    exact ⟨_, by rw [List.map_cons, Transcript.finished_cons hstep, hrest, map_ok]⟩
  · obtain ⟨answers, hrest⟩ := hgoes.changing α memory
    have hstep : editStep (.look (.move side)) ⟨cursor, tree, memory⟩ =
        .ok ((tree.ringAt s position).located (.look (.flag next.isValid)),
          ⟨next, tree, memory⟩) := by
      simp only [editStep, hlook, ok_bind, pure_eq_ok, located_eq h hc]
    exact ⟨_, by rw [List.map_cons, Transcript.finished_cons hstep, hrest, map_ok]⟩

/-- A live cursor has a position, and only such a cursor does. -/
theorem liveIn_iff (h : tree.HasShape s) :
    cursor.LiveIn tree ↔ ∃ position, Ring.Stands s.inorder cursor.current position := by
  obtain ⟨current⟩ := cursor
  constructor
  · intro hlive
    rcases current with _ | x
    · exact ⟨none, .ghost _⟩
    · obtain ⟨⟨x, e⟩, hpair, rfl⟩ := List.mem_map.mp (h.mem_handles_iff.mpr (hlive x rfl))
      obtain ⟨pre, post, hsplit⟩ := List.append_of_mem hpair
      rw [hsplit]
      exact ⟨_, .entry pre post x e⟩
  · rintro ⟨position, hc⟩ x hx
    rcases cases_of_stands h hc with ⟨hnone, -⟩ | ⟨pre, y, e, post, hs, hcurrent, -⟩
    · rw [hnone] at hx
      cases hx
    · obtain rfl := Option.some.inj (hcurrent.symm.trans hx)
      exact h.mem_handles_iff.mp (List.mem_map.mpr ⟨(y, e), by simp [hs], rfl⟩)

/-- Where a list of moves leads: it turns by as much as its moves do together. -/
theorem goes_of_stands (h : tree.HasShape s) (hc : Ring.Stands s.inorder cursor.current position)
    (sides : List Side) :
    ∃ moved position', cursor.Goes tree sides moved ∧
      Ring.Stands s.inorder moved.current position' ∧
      Ring.angle s.inorder.length position' =
        Ring.angle s.inorder.length position + (sides.map Side.turn).sum := by
  induction sides generalizing cursor position with
  | nil => exact ⟨cursor, position, .nil cursor tree, hc, by simp⟩
  | cons side sides ih =>
    obtain ⟨next, heq, hnext⟩ := exists_move h hc side
    obtain ⟨moved, position', hgoes, hmoved, hangle⟩ := ih hnext
    refine ⟨moved, position', .cons h heq hnext hgoes, hmoved, ?_⟩
    rw [hangle, Ring.angle_next, List.map_cons, List.sum_cons]
    rw [Int.cast_add, add_assoc]

/-- A list of moves comes back to where it began exactly if the moves to the right and those to the
left differ by a multiple of the number of positions. -/
theorem exists_goes (h : tree.HasShape s) (hlive : cursor.LiveIn tree) (sides : List Side) :
    ∃ moved, cursor.Goes tree sides moved ∧ moved.LiveIn tree ∧
      (moved = cursor ↔ ((s.size + 1 : Nat) : ℤ) ∣ (sides.map Side.turn).sum) := by
  obtain ⟨position, hc⟩ := (liveIn_iff h).mp hlive
  obtain ⟨moved, position', hgoes, hmoved, hangle⟩ := goes_of_stands h hc sides
  refine ⟨moved, hgoes, (liveIn_iff h).mpr ⟨position', hmoved⟩, ?_⟩
  have hsize : s.inorder.length = s.size := by
    rw [← Shape.length_handles, Shape.handles, List.length_map]
  have hback := Ring.Stands.angle_eq_iff h.nodup hmoved hc
  rw [hangle, add_eq_left, ZMod.intCast_zmod_eq_zero_iff_dvd, hsize] at hback
  obtain ⟨current⟩ := cursor
  obtain ⟨current'⟩ := moved
  rw [hback, Cursor.mk.injEq]

theorem Goes.move (h : cursor.Goes tree [side] moved) : cursor.move tree side = .ok moved := by
  rw [← travel_singleton, h.travel]

/-- A move is undone by the move back. -/
theorem move_other (h : tree.HasShape s) (hlive : cursor.LiveIn tree)
    (heq : cursor.move tree side = .ok moved) : moved.move tree side.other = .ok cursor := by
  obtain ⟨back, hgoes, -, hback⟩ := exists_goes h hlive [side, side.other]
  obtain rfl := hback.mpr (by simp [Side.turn_other])
  have htravel := hgoes.travel
  rwa [travel_cons, heq, ok_bind, travel_singleton] at htravel

/-- A move and the move back lead between the same two positions. -/
theorem move_comm (h : tree.HasShape s) (hc : cursor.LiveIn tree) (hm : moved.LiveIn tree) :
    cursor.move tree side = .ok moved ↔ moved.move tree side.other = .ok cursor := by
  refine ⟨move_other h hc, fun heq => ?_⟩
  rw [← Side.other_other side]
  exact move_other h hm heq

private theorem mk_map_eq_ok_iff {found : Except Fault (Option Handle)} {current : Option Handle} :
    Cursor.mk <$> found = .ok ⟨current⟩ ↔ found = .ok current := by
  cases found with
  | error fault => exact ⟨nofun, nofun⟩
  | ok found => simp

theorem move_entry_iff {a : Handle} {current : Option Handle} :
    Cursor.move ⟨some a⟩ tree side = .ok ⟨current⟩ ↔ tree.neighbor side a = .ok current :=
  mk_map_eq_ok_iff

theorem move_ghost_iff {current : Option Handle} :
    Cursor.move ⟨none⟩ tree side = .ok ⟨current⟩ ↔ tree.outermost side.other = .ok current :=
  mk_map_eq_ok_iff

end Cursor

/-! ### Neighbours -/

namespace Tree

variable {tree : Tree} {s : Shape} {side : Side} {a b : Handle}

/-- The nodes that are met from `current` on in so many steps, and where the way is then. Where it
has ended, further steps meet nothing. -/
def follow (step : Handle → Except Fault (Option Handle)) :
    (steps : Nat) → (current : Option Handle) → Except Fault (List Handle × Option Handle)
  | 0, current => return ([], current)
  | _ + 1, none => return ([], none)
  | steps + 1, some handle => do
    let (met, last) ← follow step steps (← step handle)
    return (handle :: met, last)

namespace HasShape

/-- On the way from node to node toward a side, the nodes are met in order. -/
theorem follow_neighbor {pre post : List (Handle × Entry)} (h : tree.HasShape s)
    (hs : s.toward side = pre ++ post) (steps : Nat) :
    follow (tree.neighbor side) steps (post.head?.map Prod.fst) =
      .ok ((post.map Prod.fst).take steps, (post.map Prod.fst)[steps]?) := by
  induction steps generalizing pre post with
  | zero => rcases post with _ | ⟨x, post⟩ <;> rfl
  | succ steps ih =>
    rcases post with _ | ⟨⟨x, e⟩, post⟩
    · rfl
    · have hsplit : s.toward side = (pre ++ [(x, e)]) ++ post := by simpa using hs
      have hrest := ih hsplit
      rw [List.head?_cons, Option.map_some, follow, h.neighbor hs, ok_bind, hrest]
      rfl

theorem first (h : tree.HasShape s) : tree.first = .ok s.handles.head? := by
  rw [Shape.handles, List.head?_map]
  exact h.outermost

theorem last (h : tree.HasShape s) : tree.last = .ok s.handles.getLast? := by
  rw [Shape.handles, List.getLast?_map, ← List.head?_reverse]
  exact h.outermost

theorem liveIn_of_mem (h : tree.HasShape s) (ha : a ∈ s.handles) :
    Cursor.LiveIn ⟨some a⟩ tree := by
  intro x hx
  obtain rfl := Option.some.inj hx
  exact h.mem_handles_iff.mp ha

/-- The way back from the next node. -/
theorem neighbor_comm (h : tree.HasShape s) (ha : a ∈ s.handles) (hb : b ∈ s.handles) :
    tree.neighbor side a = .ok (some b) ↔ tree.neighbor side.other b = .ok (some a) := by
  rw [← Cursor.move_entry_iff, ← Cursor.move_entry_iff]
  exact Cursor.move_comm h (h.liveIn_of_mem ha) (h.liveIn_of_mem hb)

/-- Only the outermost node has no next one. -/
theorem neighbor_eq_none_iff (h : tree.HasShape s) (ha : a ∈ s.handles) :
    tree.neighbor side a = .ok none ↔ tree.outermost side = .ok (some a) := by
  rw [← Cursor.move_entry_iff, Cursor.move_comm h (h.liveIn_of_mem ha) (Cursor.liveIn_of_ghost rfl),
    Cursor.move_ghost_iff, Side.other_other]

end HasShape

/-- The neighbours of a reachable tree, whatever its comparator answers. The way from the first node
by successors meets every occupied slot once, in order, and is at the last one a step before it
ends. Successors and predecessors lead back to each other, and only the last node has no successor
and only the first no predecessor. So for cursors of both kinds, from an entry and from the ghost: a
move is undone by the move back, and moves in one direction come back exactly if their number is a
multiple of that of the positions, which are the entries and the ghost. -/
theorem Reachable.turns (hr : Reachable tree) :
    ∃ drawing, tree.drawing = .ok drawing ∧ drawing.handles.Nodup ∧
      (∀ x, x ∈ drawing.handles ↔ (tree.nodes.get? x).isSome) ∧
      drawing.handles.length = tree.size ∧
      tree.first = .ok drawing.handles.head? ∧ tree.last = .ok drawing.handles.getLast? ∧
      (∀ steps, (tree.first >>= follow tree.successor steps) =
        .ok (drawing.handles.take steps, drawing.handles[steps]?)) ∧
      (∀ a ∈ drawing.handles, ∃ next before,
        tree.successor a = .ok next ∧ tree.predecessor a = .ok before) ∧
      (∀ a ∈ drawing.handles, ∀ b ∈ drawing.handles,
        tree.successor a = .ok (some b) ↔ tree.predecessor b = .ok (some a)) ∧
      (∀ a ∈ drawing.handles,
        (tree.successor a = .ok none ↔ tree.last = .ok (some a)) ∧
          (tree.predecessor a = .ok none ↔ tree.first = .ok (some a))) ∧
      ∀ cursor : Cursor, cursor.LiveIn tree → ∀ side,
        (∃ moved, cursor.Goes tree [side] moved ∧ moved.LiveIn tree ∧
          moved.Goes tree [side.other] cursor) ∧
        ∀ moves, ∃ moved, cursor.Goes tree (List.replicate moves side) moved ∧
          (moved = cursor ↔ tree.size + 1 ∣ moves) := by
  obtain ⟨s, vacant, hs⟩ := hr.sound
  have h := hs.hasShape
  have hrb := hs.redBlack
  refine ⟨s.drawing none, hrb.drawn, hrb.nodup, hrb.live, hrb.length_eq, ?_⟩
  rw [Shape.handles_drawing]
  refine ⟨h.first, h.last, fun steps => ?_, fun a ha => ?_, fun a ha b hb => h.neighbor_comm ha hb,
    fun a ha => ⟨h.neighbor_eq_none_iff ha, h.neighbor_eq_none_iff ha⟩,
    fun cursor hlive side => ⟨?_, fun moves => ?_⟩⟩
  · rw [h.first, ok_bind, Shape.handles, List.head?_map]
    have hstart : s.toward .right = [] ++ s.inorder := rfl
    exact h.follow_neighbor hstart steps
  · obtain ⟨next, hnext⟩ := h.exists_neighbor ha .right
    obtain ⟨before, hbefore⟩ := h.exists_neighbor ha .left
    exact ⟨next, before, hnext, hbefore⟩
  · obtain ⟨moved, hgoes, hmoved, -⟩ := Cursor.exists_goes h hlive [side]
    obtain ⟨back, hreturn, -, -⟩ := Cursor.exists_goes h hmoved [side.other]
    obtain rfl : back = cursor :=
      Except.ok.inj (hreturn.move.symm.trans (Cursor.move_other h hlive hgoes.move))
    exact ⟨moved, hgoes, hmoved, hreturn⟩
  · obtain ⟨moved, hgoes, -, hback⟩ := Cursor.exists_goes h hlive (List.replicate moves side)
    refine ⟨moved, hgoes, ?_⟩
    rw [hback, hs.size_eq, List.map_replicate, List.sum_replicate, nsmul_eq_mul]
    cases side with
    | left => rw [Side.turn, mul_neg_one, dvd_neg, Int.natCast_dvd_natCast]
    | right => rw [Side.turn, mul_one, Int.natCast_dvd_natCast]

/-- Four entries make a ring of five positions: five moves from the ghost come back to it, and four
do not. -/
theorem Reachable.turns_sample :
    ∃ full memory' first second moved,
      Operation.runAll (sampleRun.take 4) sampleTree sampleMemory = .ok (full, memory') ∧
      full.size = 4 ∧ full.first = .ok (some first) ∧
      full.successor first = .ok (some second) ∧ full.predecessor second = .ok (some first) ∧
      full.predecessor first = .ok none ∧
      Cursor.Goes ⟨none⟩ full [.right, .right, .right, .right, .right] ⟨none⟩ ∧
      Cursor.Goes ⟨none⟩ full [.right, .right, .right, .right] moved ∧ moved ≠ ⟨none⟩ := by
  obtain ⟨full, memory', hrun, hfull⟩ := exists_sampleRun_take 4
  have horder : (Operation.runAll (sampleRun.take 4) sampleTree sampleMemory >>= fun p =>
      p.1.drawing.map fun drawing => (drawing.handles, p.1.size)) =
        .ok ([⟨1, by decide⟩, ⟨2, by decide⟩, ⟨0, by decide⟩, ⟨3, by decide⟩], 4) := rfl
  obtain ⟨drawing, hdrawing, -, -, -, hfirst, -, hfollow, -, hcomm, hends, hturns⟩ :=
    Reachable.turns hfull
  rw [hrun, ok_bind, hdrawing] at horder
  obtain ⟨hhandles, hsize⟩ := Prod.mk.inj (Except.ok.inj horder)
  have hlive : Cursor.LiveIn ⟨none⟩ full := Cursor.liveIn_of_ghost rfl
  obtain ⟨back, hround, hback⟩ := (hturns ⟨none⟩ hlive .right).2 5
  obtain ⟨moved, hshort, hmoved⟩ := (hturns ⟨none⟩ hlive .right).2 4
  rw [hsize] at hback hmoved
  obtain rfl := hback.mpr (by decide)
  rw [hhandles] at hfirst hfollow hcomm hends
  have hstep := hfollow 1
  rw [hfirst, ok_bind, List.head?_cons, follow] at hstep
  obtain ⟨next, hnext, hend⟩ := bind_eq_ok_iff.mp hstep
  cases hend
  refine ⟨full, memory', ⟨1, by decide⟩, ⟨2, by decide⟩, moved, hrun, hsize, hfirst, hnext,
    (hcomm _ (by simp) _ (by simp)).mp hnext, (hends _ (by simp)).2.mpr hfirst, hround, hshort,
    fun heq => ?_⟩
  exact absurd (hmoved.mp heq) (by decide)

end Tree

end MeteredMap
