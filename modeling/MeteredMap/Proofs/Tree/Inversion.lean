import MeteredMap.Proofs.Tree.Reachability
import MeteredMap.Proofs.Tree.Recoloring
import MeteredMap.Proofs.Tree.RedBlack
import MeteredMap.Proofs.Tree.WellLinked

/-!
# Rotations and their inverses

A rotation turns one link around, and the rotation of the pivot toward the other side turns it back.
In between, the tree is well linked and has its nodes in the same order. Nothing but links changes,
and of these at most six: the one that leads to the node from above, those between the node and the
pivot, and those to the subtree that moves across. Colours play no part, so both repairs may rotate
while the colour rules are broken.

## Main definitions

* `MeteredMap.Tree.unlinked` : a tree apart from its links.
* `MeteredMap.Tree.redirected` : the links that a rotation leads elsewhere.

## Main results

* `MeteredMap.Arena.Kept.eq_of_get?` : arenas with the same elements are the same.
* `MeteredMap.Tree.unlinked_of_rotate` : a rotation changes links only.
* `MeteredMap.Tree.Traces.target_of_rotate` : it changes no other links than the redirected ones.
* `MeteredMap.Tree.WellLinked.rotate_and_back` : all of it together, and the way back.
-/

namespace MeteredMap

/-! ### Arenas with the same elements -/

namespace Arena

variable {ε : Type} {before after : Arena ε} {x : Handle}

theorem getElem?_eq_of_get? (hget : after.get? x = before.get? x)
    (hlink : after.link? x = before.link? x) :
    after.slots[x.index]? = before.slots[x.index]? := by
  refine Option.ext fun slot => ?_
  cases slot with
  | occupied element => rw [← get?_eq_some_iff, ← get?_eq_some_iff, hget]
  | vacant next => rw [← link?_eq_some_iff, ← link?_eq_some_iff, hlink]

/-- An arena of which nothing but elements changed, with the same elements as before. Slots past the
last handle have no element that could be read. -/
theorem Kept.eq_of_get? (h : Kept before after) (hget : ∀ x, after.get? x = before.get? x)
    (hpast : ∀ i, Handle.maxIndex < i → after.slots[i]? = before.slots[i]?) : after = before := by
  have hslots : after.slots = before.slots := by
    refine Array.ext_getElem? fun i => ?_
    by_cases hi : i ≤ Handle.maxIndex
    · exact getElem?_eq_of_get? (x := ⟨i, hi⟩) (hget _) (h.link? _)
    · exact hpast i (Nat.lt_of_not_le hi)
  obtain ⟨hslotSize, -, hfree, hlive, hcapacity, -⟩ := h
  cases before
  cases after
  cases hslots
  cases hslotSize
  cases hfree
  cases hlive
  cases hcapacity
  rfl

end Arena

/-- The node without its links. -/
def Node.unlink (node : Node) : Node :=
  { node with parent := none, left := none, right := none }

/-- The place of the link that leads down to a node: the child link of its parent on a side, or the
root reference if it has no parent. -/
def Port.above (parent : Option Handle) (side : Side) : Port :=
  match parent with
  | none => .root
  | some parent => .child parent side

/-- The side on which the place of a path hangs below the node above it. Any serves at the root. -/
def Shape.upperSide : List Frame → Side
  | [] => .left
  | f :: _ => f.side

namespace Tree

open Shape

/-- The tree apart from its links. -/
def unlinked (tree : Tree) : Tree :=
  { tree with nodes := tree.nodes.map Node.unlink, root := none }

/-- The links that a rotation toward `side` leads elsewhere, each with where it leads then. The node
`x` hangs below `parent` on the side `upper`, its child `y` below it on the other side, and between
the two is `inner`. -/
def redirected (side : Side) (x y : Handle) (inner parent : Option Handle) (upper : Side) :
    List (Port × Option Handle) :=
  [(.above parent upper, some y), (.parent y, parent), (.child y side, some x),
    (.parent x, some y), (.child x side.other, inner)] ++
    inner.toList.map fun z => (.parent z, some x)

variable {tree before after : Tree} {side : Side} {cx cy : Color} {x y z : Handle} {ex ey : Entry}
  {a b d s : Shape} {path : List Frame} {f : Frame} {port : Port}

/-! ### What a rotation leaves alone -/

theorem unlinked_of_update {change : Node → Node} (h : ∀ node, (change node).unlink = node.unlink)
    (hupdate : tree.update x change = .ok after) : after.unlinked = tree.unlinked := by
  obtain ⟨nodes, hmodify, hnodes⟩ := bind_eq_ok_iff.mp hupdate
  obtain rfl := Except.ok.inj hnodes
  have hmap : nodes.map Node.unlink = tree.nodes.map Node.unlink :=
    Arena.map_eq_of_modify h hmodify
  rw [unlinked, hmap]
  rfl

/-- A rotation changes links only. -/
theorem unlinked_of_rotate (h : tree.rotate side x = .ok after) :
    after.unlinked = tree.unlinked := by
  have hchild : ∀ (side : Side) child (node : Node),
      (node.withChild side child).unlink = node.unlink := fun side child node => by
    cases side <;> rfl
  have hparent : ∀ parent (node : Node), (node.reparent parent).unlink = node.unlink :=
    fun _ _ => rfl
  exact rotate_steps (R := fun before after => after.unlinked = before.unlinked) (fun _ => rfl)
    (fun _ _ _ h h' => h'.trans h)
    (fun _ _ _ side child h => unlinked_of_update (hchild side child) h)
    (fun _ _ _ parent h => unlinked_of_update (hparent parent) h) (fun _ _ => rfl) h

/-- A rotation changes no slot past the last handle. -/
theorem slots_past_of_rotate (h : tree.rotate side x = .ok after) (i : Nat)
    (hi : Handle.maxIndex < i) : after.nodes.slots[i]? = tree.nodes.slots[i]? := by
  have hupdate : ∀ (t u : Tree) x change, t.update x change = .ok u →
      u.nodes.slots[i]? = t.nodes.slots[i]? := by
    intro t u x change h
    obtain ⟨nodes, hmodify, hnodes⟩ := bind_eq_ok_iff.mp h
    obtain rfl := Except.ok.inj hnodes
    obtain ⟨node, -, rfl⟩ := Arena.exists_of_modify hmodify
    exact Array.getElem?_setIfInBounds_ne (Nat.ne_of_lt (Nat.lt_of_le_of_lt x.index_le hi))
  exact rotate_steps (R := fun before after => after.nodes.slots[i]? = before.nodes.slots[i]?)
    (fun _ => rfl) (fun _ _ _ h h' => h'.trans h) (fun t u x _ _ h => hupdate t u x _ h)
    (fun t u x _ h => hupdate t u x _ h) (fun _ _ => rfl) h

theorem Relinked.eq_of_nodes (h : Relinked before after) (hnodes : after.nodes = before.nodes)
    (hroot : after.root = before.root) : after = before := by
  obtain ⟨-, hkey, hvalue, hcomparator⟩ := h
  cases before
  cases after
  cases hnodes
  cases hroot
  cases hkey
  cases hvalue
  cases hcomparator
  rfl

namespace Traces

/-- A rotation in a tree that traces a shape. -/
theorem rotate (h : tree.Traces (plug path (branch side cx x ex a (branch side cy y ey b d)))) :
    ∃ after, tree.rotate side x = .ok after ∧ tree.Relinked after ∧
      after.Traces (plug path (branch side cy y ey (branch side cx x ex a b) d)) ∧
      ∀ z, z ≠ x → z ≠ y → b.root ≠ some z → Shape.above path ≠ some z →
        after.nodes.get? z = tree.nodes.get? z := by
  obtain ⟨after, hrotate, hk, hroot, hlinked, hframe⟩ := rotate_linked h.linked h.nodup h.root_eq
  refine ⟨after, hrotate, hk, ⟨hroot, hlinked, ?_⟩, hframe⟩
  rw [handles_plug_congr inorder_rotate]
  exact h.nodup

/-- What is left by a rotation in a tree that traces a shape. -/
theorem of_rotate (h : tree.Traces (plug path (branch side cx x ex a (branch side cy y ey b d))))
    (hrotate : tree.rotate side x = .ok after) :
    tree.Relinked after ∧
      after.Traces (plug path (branch side cy y ey (branch side cx x ex a b) d)) ∧
      ∀ z, z ≠ x → z ≠ y → b.root ≠ some z → Shape.above path ≠ some z →
        after.nodes.get? z = tree.nodes.get? z := by
  obtain ⟨middle, hmiddle, hrest⟩ := h.rotate
  rw [hrotate] at hmiddle
  cases hmiddle
  exact hrest

/-! ### The way back -/

/-- Trees that trace one shape have the same nodes there. -/
theorem get?_eq (h : tree.Traces s) (h' : after.Traces s) (hx : x ∈ s.handles) :
    after.nodes.get? x = tree.nodes.get? x := by
  obtain ⟨path, c, e, a, b, rfl⟩ := exists_plug_of_mem .left hx
  rw [h.get?_branch, h'.get?_branch]

/-- The rotation of the pivot toward the other side restores the tree. -/
theorem rotate_back (h : tree.Traces (plug path (branch side cx x ex a (branch side cy y ey b d))))
    (hrotate : tree.rotate side x = .ok after) : after.rotate side.other y = .ok tree := by
  obtain ⟨hk, ht, hframe⟩ := h.of_rotate hrotate
  have hmirrored : after.Traces
      (plug path (branch side.other cy y ey d (branch side.other cx x ex b a))) := by
    rw [branch_other, branch_other]
    exact ht
  obtain ⟨last, hlast, hk', ht', hframe'⟩ := hmirrored.rotate
  rw [branch_other, branch_other] at ht'
  -- Both rotations leave the same slots alone, and what is not among them has a place in the shape.
  have hget : ∀ z, last.nodes.get? z = tree.nodes.get? z := by
    intro z
    by_cases hz : z ∈ (plug path (branch side cx x ex a (branch side cy y ey b d))).handles
    · exact h.get?_eq ht' hz
    · simp only [mem_handles_plug, mem_handles_branch, not_or] at hz
      obtain ⟨⟨hzx, -, hzy, hzb, -⟩, hzp⟩ := hz
      have hb : b.root ≠ some z := fun hroot => hzb (root_mem_handles hroot)
      have hp : Shape.above path ≠ some z := fun habove => hzp (above_mem_pathHandles habove)
      rw [hframe' z hzy hzx hb hp, hframe z hzx hzy hb hp]
  have hnodes : last.nodes = tree.nodes := (hk.trans hk').nodes.eq_of_get? hget fun i hi => by
    rw [slots_past_of_rotate hlast i hi, slots_past_of_rotate hrotate i hi]
  have hroot : last.root = tree.root := ht'.root_eq.trans h.root_eq.symm
  rw [hlast, (hk.trans hk').eq_of_nodes hnodes hroot]

/-! ### Links -/

/-- The node above a place, with what hangs there. -/
theorem of_cons (h : tree.Traces (plug (f :: path) s)) :
    tree.Traces (plug path (branch f.side f.color f.handle f.entry s f.aside)) :=
  h

theorem target_above (h : tree.Traces (plug path s)) :
    tree.target (.above (Shape.above path) (upperSide path)) = s.root := by
  cases path with
  | nil => exact h.root_eq
  | cons f path => exact h.of_cons.target_child

/-- Child links within a shape do not depend on its place. -/
theorem target_child_eq {path' : List Frame} (h : tree.Traces (plug path s))
    (h' : after.Traces (plug path' s)) (hz : z ∈ s.handles) :
    after.target (.child z side) = tree.target (.child z side) := by
  obtain ⟨below, c, e, a, b, rfl⟩ := exists_plug_of_mem side hz
  rw [← plug_append] at h h'
  rw [h.target_child, h'.target_child]

/-- Where a rotation leads the links that it leads elsewhere. -/
theorem target_redirected
    (h : after.Traces (plug path (branch side cy y ey (branch side cx x ex a b) d)))
    {turn : Port × Option Handle}
    (hturn : turn ∈ redirected side x y b.root (Shape.above path) (upperSide path)) :
    after.target turn.1 = turn.2 := by
  have hx : after.Traces (plug (⟨side, cy, y, ey, d⟩ :: path) (branch side cx x ex a b)) := h
  obtain ⟨-, -, hb⟩ := linked_branch_iff.mp (linked_plug_iff.mp hx.linked).1
  simp only [redirected, List.mem_append, List.mem_cons, List.not_mem_nil, or_false, List.mem_map,
    Option.mem_toList] at hturn
  rcases hturn with (rfl | rfl | rfl | rfl | rfl) | ⟨z, hz, rfl⟩
  · exact h.target_above.trans root_branch
  · exact h.target_parent
  · exact h.target_child.trans root_branch
  · exact hx.target_parent
  · exact hx.target_child_other
  · exact target_parent_of_linked hb hz

private theorem target_parent_of_rotate
    (h : tree.Traces (plug path (branch side cx x ex a (branch side cy y ey b d))))
    (hrotate : tree.rotate side x = .ok after) (hzx : z ≠ x) (hzy : z ≠ y)
    (hzb : b.root ≠ some z) : after.target (.parent z) = tree.target (.parent z) := by
  obtain ⟨-, ht, hframe⟩ := h.of_rotate hrotate
  by_cases hz : Shape.above path = some z
  · cases path with
    | nil => cases hz
    | cons f path =>
      obtain rfl := Option.some.inj hz
      rw [ht.of_cons.target_parent, h.of_cons.target_parent]
  · rw [target, target, hframe z hzx hzy hzb hz]

private theorem target_child_of_rotate {side' : Side}
    (h : tree.Traces (plug path (branch side cx x ex a (branch side cy y ey b d))))
    (hrotate : tree.rotate side x = .ok after) (hx : z = x → side' ≠ side.other)
    (hy : z = y → side' ≠ side)
    (hp : Port.child z side' ≠ .above (Shape.above path) (upperSide path)) :
    after.target (.child z side') = tree.target (.child z side') := by
  obtain ⟨-, ht, hframe⟩ := h.of_rotate hrotate
  -- The lower of the two nodes, and what is between them, before and after.
  have hlow := h
  rw [plug_far] at hlow
  have hinner := hlow
  rw [plug_near] at hinner
  have hlow' := ht
  rw [plug_near] at hlow'
  have hinner' := hlow'
  rw [plug_far] at hinner'
  by_cases hzx : z = x
  · obtain rfl : side' = side := (Side.eq_other_of_ne (hx hzx)).trans side.other_other
    rw [hzx, h.target_child, hlow'.target_child]
  by_cases hzy : z = y
  · obtain rfl : side' = side.other := Side.eq_other_of_ne (hy hzy)
    rw [hzy, hlow.target_child_other, ht.target_child_other]
  by_cases hzb : b.root = some z
  · exact hinner.target_child_eq hinner' (root_mem_handles hzb)
  by_cases hz : Shape.above path = some z
  · cases path with
    | nil => cases hz
    | cons f path =>
      obtain rfl := Option.some.inj hz
      obtain rfl : side' = f.side.other := Side.eq_other_of_ne fun hside => hp (hside ▸ rfl)
      rw [ht.of_cons.target_child_other, h.of_cons.target_child_other]
  · rw [target, target, hframe z hzx hzy hzb hz]

/-- A rotation leads no other links elsewhere. -/
theorem target_of_rotate
    (h : tree.Traces (plug path (branch side cx x ex a (branch side cy y ey b d))))
    (hrotate : tree.rotate side x = .ok after)
    (hport : port ∉ (redirected side x y b.root (Shape.above path) (upperSide path)).map Prod.fst) :
    after.target port = tree.target port := by
  simp only [redirected, List.map_append, List.map_cons, List.map_nil, List.map_map,
    List.mem_append, List.mem_cons, List.not_mem_nil, or_false, not_or, List.mem_map,
    Option.mem_toList, not_exists, not_and, Function.comp_apply] at hport
  obtain ⟨⟨habove, hyp, hyc, hxp, hxc⟩, hinner⟩ := hport
  cases port with
  | root =>
    cases path with
    | nil => exact absurd rfl habove
    | cons f path =>
      rw [target, target, (h.of_rotate hrotate).2.1.root_eq, h.root_eq, root_plug, root_plug]
      rfl
  | parent z =>
    refine h.target_parent_of_rotate hrotate ?_ ?_ fun hzb => hinner z hzb rfl
    · rintro rfl
      exact hxp rfl
    · rintro rfl
      exact hyp rfl
  | child z side' =>
    refine h.target_child_of_rotate hrotate ?_ ?_ habove
    · rintro rfl rfl
      exact hxc rfl
    · rintro rfl rfl
      exact hyc rfl

end Traces

/-! ### Rotations of well-linked trees -/

/-- Reachable trees are well linked. -/
theorem Reachable.wellLinked (h : Reachable tree) : tree.WellLinked := by
  obtain ⟨s, vacant, hs⟩ := h.sound
  exact hs.hasShape.traces.wellLinked

/-- A rotation toward `side` at a node of a well-linked tree, below which another node hangs on the
other side, leaves a well-linked tree with the same slots in order. All but the links is as it was,
and of the links all but those at most six that are redirected: from above, between the two nodes,
and to and from the subtree that moves across. The rotation of the other node toward the other side
restores the tree. Colours may be anything. -/
theorem WellLinked.rotate_and_back (h : tree.WellLinked) (hx : tree.Reaches x)
    (hy : tree.target (.child x side.other) = some y) :
    ∃ drawing after turned upper, tree.drawing = .ok drawing ∧
      tree.target (.above (tree.target (.parent x)) upper) = some x ∧
      tree.rotate side x = .ok after ∧ after.WellLinked ∧
      after.drawing = .ok turned ∧ turned.handles = drawing.handles ∧
      after.unlinked = tree.unlinked ∧
      (∀ turn ∈ redirected side x y (tree.target (.child y side)) (tree.target (.parent x)) upper,
        after.target turn.1 = turn.2) ∧
      (∀ port, port ∉ (redirected side x y (tree.target (.child y side)) (tree.target (.parent x))
          upper).map Prod.fst → after.target port = tree.target port) ∧
      after.rotate side.other y = .ok tree := by
  obtain ⟨s, hs⟩ := wellLinked_iff.mp h
  obtain ⟨path, cx, ex, a, pivot, rfl⟩ := exists_plug_of_mem side (hs.reaches_iff.mp hx)
  rw [hs.target_child_other] at hy
  obtain ⟨ey, b, d, hpivot⟩ := exists_branch_of_root side hy
  rw [hpivot] at hs
  obtain ⟨after, hrotate, -, hafter, -⟩ := hs.rotate
  have hbelow := hs
  rw [plug_far] at hbelow
  refine ⟨_, after, _, upperSide path, hs.drawing_eq, ?_, hrotate, hafter.wellLinked,
    hafter.drawing_eq, ?_, unlinked_of_rotate hrotate, ?_, ?_, hs.rotate_back hrotate⟩
  · rw [hs.target_parent, hs.target_above, root_branch]
  · rw [handles_drawing, handles_drawing, handles_plug_congr inorder_rotate]
  · rw [hs.target_parent, hbelow.target_child]
    exact fun turn hturn => hafter.target_redirected hturn
  · rw [hs.target_parent, hbelow.target_child]
    exact fun port hport => hs.target_of_rotate hrotate hport

/-- A tree of four red nodes: its root, to the left of it the second node, to the right of that the
third and to the left of that the fourth. A fifth slot is vacant. -/
def zigzagTree : Tree :=
  { nodes :=
      { slotSize := Node.footprint
        slots :=
          #[.occupied ⟨⟨[4], [0]⟩, .red, none, Handle.ofIndex? 1, none⟩,
            .occupied ⟨⟨[1], [0]⟩, .red, Handle.ofIndex? 0, none, Handle.ofIndex? 2⟩,
            .occupied ⟨⟨[3], [0]⟩, .red, Handle.ofIndex? 1, Handle.ofIndex? 3, none⟩,
            .occupied ⟨⟨[2], [0]⟩, .red, Handle.ofIndex? 2, none, none⟩,
            .vacant none]
        free := Handle.ofIndex? 4
        live := 4
        capacity := 8 }
    root := Handle.ofIndex? 0
    keyLayout := ⟨1, 8⟩
    valueLayout := ⟨1, 8⟩
    comparator := .lexicographic }

theorem zigzagTree_traces : zigzagTree.Traces
    (.node .red ⟨0, by decide⟩ ⟨[4], [0]⟩
      (.node .red ⟨1, by decide⟩ ⟨[1], [0]⟩ .absent
        (.node .red ⟨2, by decide⟩ ⟨[3], [0]⟩
          (.node .red ⟨3, by decide⟩ ⟨[2], [0]⟩ .absent .absent) .absent)) .absent) where
  root_eq := rfl
  linked := ⟨rfl, ⟨rfl, trivial, rfl, ⟨rfl, trivial, trivial⟩, trivial⟩, trivial⟩
  nodup := by decide

/-- The second node goes below the third, and the fourth moves across. -/
theorem WellLinked.rotate_and_back_sample :
    zigzagTree.WellLinked ∧ zigzagTree.Reaches ⟨1, by decide⟩ ∧
      zigzagTree.target (.child ⟨1, by decide⟩ .right) = some ⟨2, by decide⟩ ∧
      ∃ after turned, zigzagTree.rotate .left ⟨1, by decide⟩ = .ok after ∧ after.WellLinked ∧
        after.drawing = .ok turned ∧
        turned.handles = [⟨1, by decide⟩, ⟨3, by decide⟩, ⟨2, by decide⟩, ⟨0, by decide⟩] ∧
        after.target (.child ⟨1, by decide⟩ .right) = some ⟨3, by decide⟩ ∧
        after.target (.parent ⟨0, by decide⟩) = none ∧
        after.rotate .right ⟨2, by decide⟩ = .ok zigzagTree := by
  have hreaches : zigzagTree.Reaches ⟨1, by decide⟩ :=
    zigzagTree_traces.reaches_iff.mpr (by decide)
  have hchild : zigzagTree.target (.child ⟨1, by decide⟩ Side.left.other) = some ⟨2, by decide⟩ :=
    rfl
  obtain ⟨drawing, after, turned, upper, hdrawing, -, hrotate, hlinked, hturned, hhandles, -,
      hredirected, hframe, hback⟩ :=
    zigzagTree_traces.wellLinked.rotate_and_back hreaches hchild
  refine ⟨zigzagTree_traces.wellLinked, hreaches, rfl, after, turned, hrotate, hlinked, hturned, ?_,
    ?_, ?_, hback⟩
  · rw [hhandles]
    cases hdrawing
    rfl
  · exact hredirected (.child ⟨1, by decide⟩ .right, some ⟨3, by decide⟩)
      (by cases upper <;> decide)
  · exact hframe (.parent ⟨0, by decide⟩) (by cases upper <;> decide)

end Tree

end MeteredMap
