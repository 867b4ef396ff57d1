import Mathlib.Logic.Function.Iterate
import MeteredMap.Proofs.Tree.Removal
import MeteredMap.Tree.Clear

/-!
# Clearing a tree

Clearing a tree that has a shape takes every node out of its slot, children before their parents,
and gives the two blocks of each entry back. While it runs, the links spell out a forest: the
shapes that are left below the nodes that wait. Each step makes this forest smaller or splits one
of its shapes in two.

## Main results

* `MeteredMap.Tree.HasShape.clear` : what clearing leaves, and what goes back to the memory.
* `MeteredMap.Tree.HasShape.dispose` : the same, with the slot table.
-/

namespace MeteredMap

namespace Tree

open Shape

variable {α : Type} [Allocator α] {tree after : Tree} {x : Handle} {e : Entry} {c : Color}
  {l r s : Shape} {p : Option Handle} {forest rest : List Shape} {waiting : List Handle}

/-- The links spell out the shapes of a forest, each below some node or none, and no node is in two
places. -/
private structure Spells (tree : Tree) (forest : List Shape) : Prop where
  linked : ∀ s ∈ forest, ∃ p, s.Linked tree.nodes.get? p
  nodup : (forest.flatMap handles).Nodup

/-- A forest after a change to one node that is in none of its shapes. -/
private theorem Spells.congr (h : tree.Spells forest)
    (hframe : ∀ z, z ≠ x → after.nodes.get? z = tree.nodes.get? z)
    (hx : ∀ s ∈ forest, x ∉ s.handles) : after.Spells forest where
  linked s hs := by
    obtain ⟨p, hp⟩ := h.linked s hs
    exact ⟨p, hp.congr fun y hy => hframe y (ne_of_mem_of_not_mem hy (hx s hs))⟩
  nodup := h.nodup

/-- All that clearing keeps of a tree. -/
private def emptied (tree : Tree) : Tree :=
  { tree with nodes := tree.nodes.clear }

private theorem Relinked.emptied_eq (h : Relinked tree after) (hroot : after.root = tree.root) :
    after.emptied = tree.emptied := by
  simp only [emptied, Arena.clear, h.nodes.slotSize, h.nodes.capacity, hroot, h.keyLayout,
    h.valueLayout, h.comparator]

/-- One step down: a node without the link to its left child, which now waits in front of it. -/
private theorem Spells.descend {side : Side} (h : tree.Spells (branch side c x e l r :: rest)) :
    ∃ after, tree.setChild x side none = .ok after ∧ Akin tree after ∧
      after.emptied = tree.emptied ∧ after.Spells (l :: branch side c x e absent r :: rest) := by
  obtain ⟨p, hp⟩ := h.linked _ List.mem_cons_self
  obtain ⟨hx, hl, hr⟩ := linked_branch_iff.mp hp
  have hperm : ((branch side c x e l r :: rest).flatMap handles).Perm
      (x :: (l.handles ++ r.handles ++ rest.flatMap handles)) := by
    rw [List.flatMap_cons]
    exact handles_branch_perm.append_right _
  have hperm' : ((l :: branch side c x e absent r :: rest).flatMap handles).Perm
      (x :: (l.handles ++ r.handles ++ rest.flatMap handles)) := by
    rw [List.flatMap_cons, List.flatMap_cons]
    refine ((handles_branch_perm.append_right _).append_left _).trans ?_
    simp
  have hnodup := hperm.nodup_iff.mp h.nodup
  have hnot := (List.nodup_cons.mp hnodup).1
  simp only [List.mem_append, not_or, List.mem_flatMap, not_exists, not_and] at hnot
  obtain ⟨⟨hxl, hxr⟩, hxrest⟩ := hnot
  obtain ⟨after, heq, hk, hroot, hself, hframe⟩ := update_linked (·.withChild side none) hx
  refine ⟨after, heq, hk.akin, hk.emptied_eq hroot, ⟨fun s hs => ?_, hperm'.nodup_iff.mpr hnodup⟩⟩
  rcases List.mem_cons.mp hs with rfl | hs
  · exact ⟨some x, hl.congr fun y hy => hframe y (ne_of_mem_of_not_mem hy hxl)⟩
  rcases List.mem_cons.mp hs with rfl | hs
  · refine ⟨p, linked_branch_iff.mpr ⟨?_, trivial, ?_⟩⟩
    · rw [hself]
      exact congrArg some Node.withChild_branch_self
    · exact hr.congr fun y hy => hframe y (ne_of_mem_of_not_mem hy hxr)
  · obtain ⟨q, hq⟩ := h.linked s (List.mem_cons_of_mem _ hs)
    exact ⟨q, hq.congr fun y hy => hframe y (ne_of_mem_of_not_mem hy (hxrest s hs))⟩

/-- A node without children, taken out of its slot. -/
private theorem Spells.take (h : tree.Spells (.node c x e absent absent :: rest)) :
    ∃ n nodes, tree.nodes.take x = .ok (n, nodes) ∧
      { tree with nodes }.emptied = tree.emptied ∧ Spells { tree with nodes } rest := by
  obtain ⟨p, hx, -, -⟩ := h.linked _ List.mem_cons_self
  have hnot : ∀ s ∈ rest, x ∉ s.handles := by
    have hn := h.nodup
    rw [List.flatMap_cons] at hn
    intro s hs hxs
    exact (List.nodup_append.mp hn).2.2 x (mem_handles_node.mpr (Or.inl rfl)) x
      (List.mem_flatMap.mpr ⟨s, hs, hxs⟩) rfl
  refine ⟨_, _, Arena.take_eq hx, rfl, ?_⟩
  have hrest : tree.Spells rest := by
    refine ⟨fun s hs => h.linked s (List.mem_cons_of_mem _ hs), ?_⟩
    have hn := h.nodup
    rw [List.flatMap_cons] at hn
    exact (List.nodup_append.mp hn).2.1
  exact hrest.congr (fun z hz => Arena.get?_setSlot_ne _ hz) hnot

private theorem length_le_sum (h : forest.map Shape.root = waiting.map some) :
    forest.length ≤ (forest.map Shape.size).sum := by
  induction forest generalizing waiting with
  | nil => exact Nat.le_refl 0
  | cons s forest ih =>
    cases waiting with
    | nil => cases h
    | cons x waiting =>
      simp only [List.map_cons, List.cons.injEq] at h
      obtain ⟨hroot, hrest⟩ := h
      obtain ⟨e, a, b, hs⟩ := exists_branch_of_root .left hroot
      have hle := ih hrest
      rw [List.map_cons, List.sum_cons, List.length_cons, hs, size_branch]
      omega

/-- A run that ends with the nodes of a forest taken out of a tree and their blocks given back. -/
private def Clears (run : Except Fault (Tree × α)) (tree : Tree) (forest : List Shape)
    (memory : α) : Prop :=
  ∃ after, run = .ok (after, tree.releaseBlocks^[(forest.map Shape.size).sum] memory) ∧
    after.emptied = tree.emptied

/-- A step down to a child leaves as much to clear as there was. -/
private theorem Clears.of_descend {run : Except Fault (Tree × α)} {memory : α} {side : Side}
    (h : Clears run after (l :: branch side c x e absent r :: rest) memory)
    (hakin : Akin tree after) (hemptied : after.emptied = tree.emptied) :
    Clears run tree (branch side c x e l r :: rest) memory := by
  obtain ⟨final, heq, hfinal⟩ := h
  refine ⟨final, ?_, hfinal.trans hemptied⟩
  have hrelease : after.releaseBlocks = tree.releaseBlocks (α := α) :=
    funext fun memory => hakin.releaseBlocks_eq memory
  have hsum : ((l :: branch side c x e absent r :: rest).map Shape.size).sum =
      ((branch side c x e l r :: rest).map Shape.size).sum := by
    simp only [List.map_cons, List.sum_cons, size_branch, size_absent]
    omega
  rw [heq, hrelease, hsum]

/-- A node without children is one less to clear. -/
private theorem Clears.of_take {run : Except Fault (Tree × α)} {memory : α} {nodes : Arena Node}
    (h : Clears run { tree with nodes } rest (tree.releaseBlocks memory))
    (hemptied : emptied { tree with nodes } = tree.emptied) :
    Clears run tree (.node c x e absent absent :: rest) memory := by
  obtain ⟨final, heq, hfinal⟩ := h
  refine ⟨final, ?_, hfinal.trans hemptied⟩
  rw [heq, List.map_cons, List.sum_cons, size_node, size_absent, Nat.zero_add, Nat.add_comm,
    Function.iterate_succ_apply]
  rfl

/-- Clearing a forest. Each step splits a shape in two or takes a node away. -/
private theorem clears_clearWithin (fuel : Nat) (memory : α) (hforest : tree.Spells forest)
    (hwaiting : forest.map Shape.root = waiting.map some)
    (hfuel : 2 * (forest.map Shape.size).sum ≤ fuel + forest.length) :
    Clears (clearWithin fuel waiting tree memory) tree forest memory := by
  induction fuel generalizing forest waiting tree memory with
  | zero =>
    have hlength := length_le_sum hwaiting
    obtain rfl : forest = [] := List.length_eq_zero_iff.mp (by omega)
    obtain rfl : waiting = [] := List.map_eq_nil_iff.mp hwaiting.symm
    exact ⟨tree, rfl, rfl⟩
  | succ fuel ih =>
    cases waiting with
    | nil =>
      obtain rfl : forest = [] := List.map_eq_nil_iff.mp hwaiting
      exact ⟨tree, rfl, rfl⟩
    | cons x waiting =>
      obtain _ | ⟨_ | ⟨c, y, e, l, r⟩, forest⟩ := forest
      · cases hwaiting
      · cases hwaiting
      · obtain ⟨hroot, hrest⟩ := List.cons.inj hwaiting
        cases hroot
        obtain ⟨p, hx, -, -⟩ := hforest.linked _ List.mem_cons_self
        rw [clearWithin, node_eq hx, ok_bind]
        simp only [List.map_cons, List.sum_cons, List.length_cons, size_node] at hfuel
        cases l with
        | node c' z e' a b =>
          -- Down to the left.
          have hbranch : tree.Spells (branch .left c x e (.node c' z e' a b) r :: forest) := hforest
          obtain ⟨mid, hmid, hakin, hemptied, hspells⟩ := hbranch.descend
          simp only [Shape.root, hmid, ok_bind]
          have hroots : (Shape.node c' z e' a b :: branch .left c x e absent r :: forest).map
              Shape.root = (z :: x :: waiting).map some := by
            rw [List.map_cons, List.map_cons, root_branch, hrest]
            rfl
          have hclears := ih memory hspells hroots (by
            simp only [List.map_cons, List.sum_cons, List.length_cons, size_branch, size_absent]
            omega)
          exact hclears.of_descend hakin hemptied
        | absent =>
          cases r with
          | node c' z e' a b =>
            -- Down to the right.
            have hbranch : tree.Spells (branch .right c x e (.node c' z e' a b) absent :: forest) :=
              hforest
            obtain ⟨mid, hmid, hakin, hemptied, hspells⟩ := hbranch.descend
            simp only [Shape.root, hmid, ok_bind]
            have hroots :
                (Shape.node c' z e' a b :: branch .right c x e absent absent :: forest).map
                  Shape.root = (z :: x :: waiting).map some := by
              rw [List.map_cons, List.map_cons, root_branch, hrest]
              rfl
            have hclears := ih memory hspells hroots (by
              simp only [List.map_cons, List.sum_cons, List.length_cons, size_branch, size_absent]
                at hfuel ⊢
              omega)
            exact hclears.of_descend hakin hemptied
          | absent =>
            obtain ⟨n, nodes, htake, hemptied, hspells⟩ := hforest.take
            simp only [Shape.root, htake, ok_bind]
            refine Clears.of_take (ih (tree.releaseBlocks memory) hspells hrest ?_) hemptied
            rw [size_absent] at hfuel
            omega

/-! ### The operations -/

/-- Clearing a tree empties its slot table and gives the two blocks of each entry back. -/
theorem HasShape.clear (h : tree.HasShape s) (memory : α) :
    tree.clear memory =
      .ok ({ tree with nodes := tree.nodes.clear, root := none },
        tree.releaseBlocks^[s.size] memory) := by
  have hplug : tree.HasShape (plug [] s) := h
  have hsize := hplug.size_lt
  obtain ⟨waiting, forest, hwaiting, hroots, hsum, hspells⟩ : ∃ waiting forest,
      tree.root.toList = waiting ∧ forest.map Shape.root = waiting.map some ∧
        (forest.map Shape.size).sum = s.size ∧
        Spells { tree with root := none } forest := by
    rw [h.root_eq]
    cases s with
    | absent => exact ⟨[], [], rfl, rfl, rfl, ⟨fun s hs => (by cases hs), List.nodup_nil⟩⟩
    | node c x e l r =>
      refine ⟨[x], [.node c x e l r], rfl, rfl, by simp, ⟨fun s hs => ?_, ?_⟩⟩
      · rw [List.mem_singleton.mp hs]
        exact ⟨none, h.linked⟩
      · simpa using h.nodup
  obtain ⟨after, heq, hafter⟩ :=
    clears_clearWithin (3 * tree.walkBound) memory hspells hroots (by rw [hsum]; omega)
  rw [Tree.clear, hwaiting]
  dsimp only
  rw [heq, ok_bind, hsum]
  exact congrArg (fun t => Except.ok (t, _)) hafter

/-- The memory after everything that a tree holds went back to it. -/
theorem HasShape.dispose (h : tree.HasShape s) (memory : α) :
    tree.dispose memory =
      .ok (tree.nodes.releaseTable (tree.releaseBlocks^[s.size] memory)) := by
  rw [Tree.dispose, h.clear memory]
  rfl

end Tree

end MeteredMap
