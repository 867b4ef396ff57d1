import MeteredMap.Cursor
import MeteredMap.Proofs.Tree.Reachability

/-!
# Cursors on reachable trees

A cursor is at an entry of its tree or at the ghost, wherever a caller took it and whatever was
changed through it: a removal leaves it at the entry that followed, also where that entry moved to
another slot.

## Main definitions

* `MeteredMap.Cursor.LiveIn` : a cursor is at an entry of a tree, or at the ghost.
* `MeteredMap.Cursor.Reachable` : cursors that a caller can hold, and the trees that they are on.

## Main results

* `MeteredMap.Cursor.Reachable.liveIn` : a cursor that a caller can hold is live.
-/

namespace MeteredMap

namespace Cursor

open Shape MeteredMap.Tree

/-- The cursor is at an entry of the tree, or at the ghost. -/
def LiveIn (cursor : Cursor) (tree : Tree) : Prop :=
  ∀ x ∈ cursor.current, (tree.nodes.get? x).isSome

/-- A cursor that a caller can hold, and the tree that it is on. -/
inductive Reachable : Cursor → Tree → Prop
  | start {tree : Tree} {side : Side} {cursor : Cursor} (hr : Tree.Reachable tree)
      (h : tree.cursor side = .ok cursor) : Reachable cursor tree
  | move {tree : Tree} {side : Side} {cursor next : Cursor} (hc : Reachable cursor tree)
      (h : cursor.move tree side = .ok next) : Reachable next tree
  | setValue {tree after : Tree} {cursor : Cursor} {value : Blob} {result : Except MapError Unit}
      (hc : Reachable cursor tree) (h : cursor.setValue tree value = .ok (result, after)) :
      Reachable cursor after
  | overwrite {tree after : Tree} {cursor : Cursor} {bytes : Blob} {offset : Nat}
      {old : Option Blob} (hc : Reachable cursor tree)
      (h : cursor.overwrite tree bytes offset = .ok (old, after)) : Reachable cursor after
  | remove {α : Type} [Allocator α] {tree after : Tree} {cursor next : Cursor} {memory memory' : α}
      {result : Except MapError Unit} (hc : Reachable cursor tree)
      (h : cursor.remove tree memory = .ok (next, ⟨result, after, memory'⟩)) :
      Reachable next after

variable {tree after : Tree} {s : Shape} {vacant : List Handle} {cursor next : Cursor}

theorem liveIn_of_ghost (h : cursor.current = none) : cursor.LiveIn tree := by
  intro x hx
  rw [h] at hx
  cases hx

/-- The first node of a list of nodes of the tree is live. -/
private theorem liveIn_of_head? (h : tree.HasShape s) {nodes : List (Handle × Entry)}
    (hsub : nodes ⊆ s.inorder) : LiveIn ⟨nodes.head?.map Prod.fst⟩ tree := by
  intro x hx
  obtain ⟨pair, hpair, rfl⟩ := Option.map_eq_some_iff.mp hx
  exact h.mem_handles_iff.mp (List.mem_map_of_mem (hsub (List.mem_of_head? hpair)))

private theorem liveIn_of_start (h : tree.HasShape s) {side : Side}
    (heq : tree.cursor side = .ok cursor) : cursor.LiveIn tree := by
  rw [Tree.cursor, h.outermost] at heq
  cases heq
  exact liveIn_of_head? h fun pair hpair => (mem_toward_iff side.other).mp hpair

private theorem LiveIn.move (hc : cursor.LiveIn tree) (h : tree.HasShape s) {side : Side}
    (heq : cursor.move tree side = .ok next) : next.LiveIn tree := by
  unfold Cursor.move at heq
  cases hcurrent : cursor.current with
  | none =>
    rw [hcurrent] at heq
    exact liveIn_of_start h heq
  | some x =>
    rw [hcurrent] at heq
    dsimp only at heq
    obtain ⟨pair, hpair, rfl⟩ := List.mem_map.mp (h.mem_handles_iff.mpr (hc x hcurrent))
    obtain ⟨pre, post, hsplit⟩ := List.append_of_mem ((mem_toward_iff side).mpr hpair)
    rw [h.neighbor hsplit] at heq
    cases heq
    refine liveIn_of_head? h fun pair' hpair' => (mem_toward_iff side).mp ?_
    rw [hsplit]
    exact List.mem_append_right _ (List.mem_cons_of_mem _ hpair')

/-- What is written over a value leaves the cursor where it was. -/
private theorem overwriteAt_of_live (hr : Tree.Reachable tree) (hc : cursor.LiveIn tree)
    {x : Handle} (hx : cursor.current = some x) {bytes : Blob} {offset : Nat}
    (heq : tree.overwriteAt x bytes offset = .ok after) :
    Tree.Reachable after ∧ cursor.LiveIn after := by
  obtain ⟨s, vacant, h⟩ := hr.sound
  obtain ⟨after', t, pre, e, post, heq', hafter, hk, -⟩ :=
    h.overwriteAt (h.hasShape.mem_handles_iff.mpr (hc x hx)) bytes offset
  have hrun : (Operation.overwriteAt x bytes offset).run tree (⟨none⟩ : Heap) =
      .ok (after, ⟨none⟩) := by
    rw [Operation.run, heq]
    rfl
  have hpermitted : (Operation.overwriteAt x bytes offset).Permitted tree := hc x hx
  rw [heq] at heq'
  cases heq'
  exact ⟨.step hr hpermitted hrun, fun y hy => (hk.nodes.isSome_get? y).mpr (hc y hy)⟩

/-- The entry that followed a removed one is there. -/
private theorem mem_of_removes {x y freed : Handle} {e : Entry} {next : Option Handle}
    {before after : List (Handle × Entry)} (h : Removes x e before freed next after)
    (hy : y ∈ next) : y ∈ after.map Prod.fst := by
  cases h with
  | direct pre post =>
    obtain ⟨pair, hpair, rfl⟩ := Option.map_eq_some_iff.mp hy
    exact List.mem_map_of_mem (List.mem_append_right pre (List.mem_of_head? hpair))
  | swapped pre post z ez =>
    cases hy
    simp

private theorem remove_of_live {α : Type} [Allocator α] {memory memory' : α}
    {result : Except MapError Unit} (hr : Tree.Reachable tree) (hc : cursor.LiveIn tree)
    (heq : cursor.remove tree memory = .ok (next, ⟨result, after, memory'⟩)) :
    Tree.Reachable after ∧ next.LiveIn after := by
  unfold Cursor.remove at heq
  cases hcurrent : cursor.current with
  | none =>
    rw [hcurrent] at heq
    cases heq
    exact ⟨hr, hc⟩
  | some x =>
    obtain ⟨s, vacant, h⟩ := hr.sound
    obtain ⟨e, next', freed, after', t, hremove, hafter, -, hremoves, -⟩ :=
      h.removeAt (h.hasShape.mem_handles_iff.mpr (hc x hcurrent)) memory
    have hrun : (Operation.removeAt x none).run tree memory =
        .ok (after', tree.releaseBlocks memory) := by
      rw [Operation.run, hremove]
      rfl
    have hpermitted : (Operation.removeAt x none).Permitted tree :=
      ⟨hc x hcurrent, fun bytes hb => by cases hb⟩
    rw [hcurrent] at heq
    dsimp only at heq
    rw [hremove] at heq
    cases heq
    refine ⟨.step hr hpermitted hrun, fun y hy => ?_⟩
    exact hafter.hasShape.mem_handles_iff.mp (mem_of_removes hremoves hy)

/-- A cursor that a caller can hold is on a reachable tree, at an entry or at the ghost. -/
theorem Reachable.liveIn (hc : Reachable cursor tree) :
    Tree.Reachable tree ∧ cursor.LiveIn tree := by
  induction hc with
  | start hr h =>
    obtain ⟨s, vacant, hs⟩ := hr.sound
    exact ⟨hr, liveIn_of_start hs.hasShape h⟩
  | move hc h ih =>
    obtain ⟨hr, hlive⟩ := ih
    obtain ⟨s, vacant, hs⟩ := hr.sound
    exact ⟨hr, hlive.move hs.hasShape h⟩
  | @setValue tree after cursor value result hc h ih =>
    obtain ⟨hr, hlive⟩ := ih
    unfold Cursor.setValue at h
    cases hcurrent : cursor.current with
    | none =>
      rw [hcurrent] at h
      cases h
      exact ⟨hr, hlive⟩
    | some x =>
      rw [hcurrent] at h
      dsimp only at h
      cases hvalue : tree.checkValue value with
      | error cause =>
        rw [hvalue] at h
        cases h
        exact ⟨hr, hlive⟩
      | ok =>
        rw [hvalue] at h
        obtain ⟨after', hover, heq⟩ := bind_eq_ok_iff.mp h
        cases heq
        exact overwriteAt_of_live hr hlive hcurrent hover
  | @overwrite tree after cursor bytes offset old hc h ih =>
    obtain ⟨hr, hlive⟩ := ih
    unfold Cursor.overwrite at h
    cases hcurrent : cursor.current with
    | none =>
      rw [hcurrent] at h
      cases h
      exact ⟨hr, hlive⟩
    | some x =>
      rw [hcurrent] at h
      obtain ⟨entry, -, h⟩ := bind_eq_ok_iff.mp h
      obtain ⟨after', hover, heq⟩ := bind_eq_ok_iff.mp h
      cases heq
      exact overwriteAt_of_live hr hlive hcurrent hover
  | remove hc h ih => exact remove_of_live ih.1 ih.2 h

end Cursor

end MeteredMap
