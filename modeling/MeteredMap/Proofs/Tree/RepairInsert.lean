import MeteredMap.Proofs.Tree.Rotation
import MeteredMap.Tree.Insert

/-!
# The repair after an insertion, on links

The repair on links does what `MeteredMap.Shape.repairInsert` does on shapes. Its promises are met,
and it ends: at every turn the path above the red node gets shorter, and no path is longer than
there are slots.

## Main results

* `MeteredMap.Tree.HasShape.raiseRed` : the end of a repair.
* `MeteredMap.Tree.HasShape.repairInsertWithin`, `MeteredMap.Tree.HasShape.repairInsert` : the whole
  repair.
-/

namespace MeteredMap

namespace Tree

open Shape

variable {tree : Tree} {side : Side} {c cx cy : Color} {x y : Handle} {e ex ey : Entry}
  {a b d s : Shape} {path : List Frame} {f g : Frame}

namespace HasShape

/-- A child turned above its parent, with the colours that end a repair. -/
theorem raiseMiddle (path : List Frame)
    (h : tree.HasShape (plug path (branch side cx x ex (branch side cy y ey a b) d))) :
    ∃ after, tree.raiseMiddle side y x = .ok after ∧ tree.Relinked after ∧
      after.HasShape (plug path (branch side .black y ey a (branch side .red x ex b d))) := by
  rw [← branch_other, ← branch_other (b := a)] at h
  obtain ⟨t₁, e₁, k₁, h₁⟩ := h.rotate
  obtain ⟨t₂, e₂, k₂, h₂⟩ := h₁.setColor .black
  rw [plug_near] at h₂
  obtain ⟨t₃, e₃, k₃, h₃⟩ := h₂.setColor .red
  refine ⟨t₃, ?_, k₁.trans (k₂.trans k₃), ?_⟩
  · simp only [Tree.raiseMiddle, e₁, e₂, e₃, ok_bind]
  · rwa [← plug_near, branch_other, branch_other] at h₃

/-- The end of a repair after an insertion. -/
theorem raiseRed (path : List Frame)
    (h : tree.HasShape (plug path (g.fill (f.fill (branch g.side c x e a b))))) :
    ∃ after, tree.raiseRed g.side x f.handle g.handle = .ok after ∧ tree.Relinked after ∧
      after.HasShape (plug path (f.raise g (branch g.side c x e a b))) := by
  have hbelow : tree.HasShape (plug (f :: g :: path) (branch g.side c x e a b)) := h
  have hf := hbelow.get?_frame
  have haside := hbelow.aside_root_ne root_branch
  by_cases hside : f.side = g.side
  · rw [Frame.raise_of_side_eq hside]
    rw [Frame.fill, Frame.fill, hside] at h
    obtain ⟨after, heq, hk, hshape⟩ := h.raiseMiddle path
    refine ⟨after, ?_, hk, hshape⟩
    rw [Tree.raiseRed, node_eq hf]
    simp only [ok_bind, hside, Node.child_branch_other, if_neg haside, heq]
  · rw [Frame.raise_of_side_ne hside]
    have hother : f.side = g.side.other := by
      cases hf : f.side <;> cases hg : g.side <;> simp_all [Side.other]
    rw [Frame.fill, Frame.fill, hother, branch_other, plug_near] at h
    obtain ⟨t₁, e₁, k₁, h₁⟩ := h.rotate
    obtain ⟨after, heq, hk, hshape⟩ := h₁.raiseMiddle path
    refine ⟨after, ?_, k₁.trans hk, hshape⟩
    rw [Tree.raiseRed, node_eq hf]
    simp only [ok_bind, hother, Node.branch_other, Node.child_branch_other, root_branch, if_true,
      e₁, heq]

/-- The colours below the red frame `f` and its red sibling, changed so that the conflict climbs to
the frame above them. -/
theorem recolorUncle (path : List Frame) (h : tree.HasShape (plug path (g.fill (f.fill s))))
    (huncle : g.aside = branch side .red y ey a b) :
    ∃ t₁ t₂ t₃, tree.setColor f.handle .black = .ok t₁ ∧ t₁.setColor y .black = .ok t₂ ∧
      t₂.setColor g.handle .red = .ok t₃ ∧ tree.Relinked t₃ ∧
      t₃.HasShape (plug path
        (branch g.side .red g.handle g.entry ((f.fill s).recolor .black)
          (g.aside.recolor .black))) := by
  rw [Frame.fill, huncle] at h
  rw [Frame.fill, plug_near] at h
  obtain ⟨t₁, e₁, k₁, h₁⟩ := h.setColor .black
  rw [← plug_near, plug_far] at h₁
  obtain ⟨t₂, e₂, k₂, h₂⟩ := h₁.setColor .black
  rw [← plug_far] at h₂
  obtain ⟨t₃, e₃, k₃, h₃⟩ := h₂.setColor .red
  refine ⟨t₁, t₂, t₃, e₁, e₂, e₃, k₁.trans (k₂.trans k₃), ?_⟩
  rwa [Frame.fill, huncle, recolor_branch, recolor_branch]

private theorem repairInsertWithin_of_black (h : tree.HasShape (plug (f :: path) s))
    (hroot : s.root = some x) (hf : f.color = .black) (fuel : Nat) :
    Tree.repairInsertWithin (fuel + 1) tree x = .ok tree := by
  obtain ⟨node, hx, hparent⟩ := h.exists_get?_root hroot
  rw [Tree.repairInsertWithin, node_eq hx]
  simp only [ok_bind, hparent, above_cons]
  rw [node_eq h.get?_frame]
  simp only [ok_bind, Node.color_branch, hf, pure_eq_ok]

/-- What the repair reads before it recolours or raises: a red parent, the frame above it and the
side of the uncle. -/
private theorem repairInsertWithin_of_red (h : tree.HasShape (plug (f :: g :: path) s))
    (hroot : s.root = some x) (hf : f.color = .red) (fuel : Nat) :
    Tree.repairInsertWithin (fuel + 1) tree x =
      match g.aside.root, g.aside.color with
      | some uncle, .red => do
        let tree ← tree.setColor f.handle .black
        let tree ← tree.setColor uncle .black
        let tree ← tree.setColor g.handle .red
        Tree.repairInsertWithin fuel tree g.handle
      | _, _ => tree.raiseRed g.side x f.handle g.handle := by
  obtain ⟨node, hx, hparent⟩ := h.exists_get?_root hroot
  have hg : tree.HasShape (plug (g :: path) (f.fill s)) := h
  have hfill : (f.fill s).root = some f.handle := root_branch
  have huncle : tree.HasShape (plug (⟨g.side.other, g.color, g.handle, g.entry, f.fill s⟩ :: path)
      g.aside) := by
    rw [← plug_far]
    exact hg
  rw [Tree.repairInsertWithin, node_eq hx]
  simp only [ok_bind, hparent, above_cons]
  rw [node_eq h.get?_frame]
  simp only [ok_bind, Node.color_branch, Node.parent_branch, hf, above_cons]
  rw [node_eq hg.get?_frame]
  simp only [ok_bind, hfill, side_of_child (hg.aside_root_ne hfill), Node.child_branch_other]
  rw [huncle.colorAt_root]
  exact ok_bind _ _

/-- The repair after an insertion below a path that fits a black shape. -/
theorem repairInsertWithin {n fuel : Nat} (h : tree.HasShape (plug path s))
    (hroot : s.root = some x) (hred : s.color = .red) (hp : Fits path .black n)
    (hfuel : path.length < fuel) :
    ∃ after, Tree.repairInsertWithin fuel tree x = .ok after ∧ tree.Relinked after ∧
      after.HasShape (Shape.repairInsert path s) := by
  obtain ⟨fuel, rfl⟩ : ∃ k, fuel = k + 1 := ⟨fuel - 1, by omega⟩
  induction path, s using Shape.repairInsert.induct generalizing tree x n fuel with
  | case1 s =>
    obtain ⟨node, hx, hparent⟩ := h.exists_get?_root hroot
    refine ⟨tree, ?_, .refl tree, h⟩
    rw [Tree.repairInsertWithin, node_eq hx]
    simp only [ok_bind, hparent, above_nil, pure_eq_ok]
  | case2 f s =>
    have hf : f.color = .black := by
      cases hp with
      | red _ _ _ hp => cases hp
      | black _ hf _ _ => exact hf
    exact ⟨tree, repairInsertWithin_of_black h hroot hf fuel, .refl tree, h⟩
  | case3 f g path s hf =>
    refine ⟨tree, repairInsertWithin_of_black h hroot hf fuel, .refl tree, ?_⟩
    rwa [Shape.repairInsert, hf]
  | case4 f g path s hg hf ih =>
    obtain ⟨y, ey, a, b, huncle⟩ := exists_branch_of_red .left hg
    obtain ⟨t₁, t₂, t₃, e₁, e₂, e₃, k₃, h₃⟩ := h.recolorUncle path huncle
    have hfits : Fits path .black (n + 1) := by
      cases hp with
      | black _ hf' _ _ => simp [hf] at hf'
      | red _ _ _ hp =>
        cases hp with
        | black _ _ _ hp => exact hp
    simp only [List.length_cons] at hfuel
    obtain ⟨fuel, rfl⟩ : ∃ k, fuel = k + 1 := ⟨fuel - 1, by omega⟩
    obtain ⟨after, heq, hk, hshape⟩ := ih h₃ root_branch color_branch hfits fuel (by omega)
    refine ⟨after, ?_, k₃.trans hk, ?_⟩
    · rw [repairInsertWithin_of_red h hroot hf, huncle, root_branch, color_branch]
      simp only [e₁, e₂, e₃, ok_bind, heq]
    · rwa [Shape.repairInsert, hf, hg]
  | case5 f g path s hg hf =>
    obtain ⟨e, a, b, hs⟩ := exists_branch_of_root g.side hroot
    rw [hs] at h
    obtain ⟨after, heq, hk, hshape⟩ := h.raiseRed path
    refine ⟨after, ?_, hk, ?_⟩
    · rw [repairInsertWithin_of_red h root_branch hf, hg]
      split
      · next heq => cases heq
      · exact heq
    · rw [Shape.repairInsert, hf, hg]
      rwa [← hs] at hshape

/-- The root turned black. -/
theorem blackenRoot (h : tree.HasShape s) :
    ∃ after, tree.blackenRoot = .ok after ∧ tree.Relinked after ∧
      after.HasShape (s.recolor .black) := by
  rw [Tree.blackenRoot, h.root_eq]
  rcases absent_or_branch .left s with rfl | ⟨x, e, a, b, hs⟩
  · exact ⟨tree, rfl, .refl tree, h⟩
  · rw [hs] at h ⊢
    rw [root_branch, recolor_branch]
    change tree.HasShape (plug [] (branch .left s.color x e a b)) at h
    exact h.setColor .black

/-- The repair after an insertion. -/
theorem repairInsert {n : Nat} (h : tree.HasShape (plug path s)) (hroot : s.root = some x)
    (hred : s.color = .red) (hp : Fits path .black n)
    (hlength : path.length ≤ tree.nodes.slots.size) :
    ∃ after, tree.repairInsert x = .ok after ∧ tree.Relinked after ∧
      after.HasShape ((Shape.repairInsert path s).recolor .black) := by
  have hfuel : path.length < tree.walkBound := Nat.lt_succ_of_le hlength
  obtain ⟨t₁, e₁, k₁, h₁⟩ := h.repairInsertWithin hroot hred hp hfuel
  obtain ⟨after, heq, hk, hshape⟩ := h₁.blackenRoot
  refine ⟨after, ?_, k₁.trans hk, hshape⟩
  rw [Tree.repairInsert, e₁, ok_bind, heq]

end HasShape

end Tree

end MeteredMap
