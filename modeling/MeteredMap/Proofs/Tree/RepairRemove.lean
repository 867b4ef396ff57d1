import MeteredMap.Proofs.Tree.RepairInsert
import MeteredMap.Tree.Remove

/-!
# The repair after a removal, on links

The repair on links does what `MeteredMap.Shape.repairRemove` does on shapes, wherever a shape lacks
a black level below a path that fits. The siblings and nephews that it takes for granted are there
because the other side of the lacking shape has a black level more.

## Main results

* `MeteredMap.Tree.HasShape.blackSibling` : a red sibling, raised.
* `MeteredMap.Tree.HasShape.mend` : the end of a repair.
* `MeteredMap.Tree.HasShape.repairRemove` : the whole repair.
-/

namespace MeteredMap

namespace Tree

open Shape

variable {tree : Tree} {side : Side} {c cx cy : Color} {x y : Handle} {e ex ey : Entry}
  {a b s t near far : Shape} {path : List Frame} {f : Frame}

namespace HasShape

/-- The sibling of what is in a place. -/
theorem sibling (h : tree.HasShape (plug (f :: path) s)) (hy : f.aside.root = some y) :
    tree.sibling f.handle f.side.other = .ok y := by
  rw [Tree.sibling, node_eq h.get?_frame]
  simp only [ok_bind, Node.child_branch_other, hy, pure_eq_ok]

/-- The other child of a place's frame. -/
theorem beside (h : tree.HasShape (plug (f :: path) s)) :
    tree.HasShape (plug (⟨f.side.other, f.color, f.handle, f.entry, s⟩ :: path) f.aside) := by
  rw [← plug_far]
  exact h

/-- A black sibling stays where it is. -/
theorem blackSibling_of_black (h : tree.HasShape (plug (f :: path) s))
    (ha : f.aside = branch f.side .black y ey near far) :
    tree.blackSibling f.side f.handle = .ok (y, tree) := by
  have hy := h.beside
  rw [ha] at hy
  rw [Tree.blackSibling, h.sibling (y := y) (by rw [ha, root_branch])]
  rw [ok_bind, node_eq hy.get?_branch]
  simp only [ok_bind, Node.color_branch, pure_eq_ok]

/-- A red sibling is raised, and the near nephew becomes the sibling. -/
theorem blackSibling_of_red (h : tree.HasShape (plug (f :: path) s))
    (ha : f.aside = branch f.side .red y ey near far) (hx : near.root = some x) :
    ∃ after, tree.blackSibling f.side f.handle = .ok (x, after) ∧ tree.Relinked after ∧
      after.HasShape (plug (f.lowered :: f.raised y ey :: path) s) := by
  have hy := h.beside
  rw [ha] at hy
  obtain ⟨t₁, e₁, k₁, h₁⟩ := hy.setColor .black
  rw [← plug_far] at h₁
  obtain ⟨t₂, e₂, k₂, h₂⟩ := h₁.setColor .red
  obtain ⟨t₃, e₃, k₃, h₃⟩ := h₂.rotate
  have hlow : f.lowered.aside = near := by rw [Frame.lowered, ha, child_branch_self]
  have hshape : t₃.HasShape (plug (f.lowered :: f.raised y ey :: path) s) := by
    rw [plug, Frame.fill, hlow, plug, Frame.fill, Frame.raised, ha, child_branch_other]
    exact h₃
  have hsibling : t₃.sibling f.handle f.side.other = .ok x :=
    hshape.sibling (by rw [hlow, hx])
  refine ⟨t₃, ?_, k₁.trans (k₂.trans k₃), hshape⟩
  rw [Tree.blackSibling, h.sibling (y := y) (by rw [ha, root_branch])]
  rw [ok_bind, node_eq hy.get?_branch]
  simp only [ok_bind, Node.color_branch, e₁, e₂, e₃, hsibling, pure_eq_ok]

/-- The last rotation of a repair: a node turned above its parent, whose colour it takes over. -/
theorem raiseSibling
    (h : tree.HasShape (plug path (branch side cx x ex s (branch side cy y ey a b))))
    (hb : b ≠ absent) :
    ∃ after, tree.raiseSibling side x y = .ok after ∧ tree.Relinked after ∧
      after.HasShape (plug path
        (branch side cx y ey (branch side .black x ex s a) (b.recolor .black))) := by
  obtain ⟨z, ez, za, zb, hz⟩ := (absent_or_branch side b).resolve_left hb
  have hroot : b.root = some z := by rw [hz, root_branch]
  have hx := h.get?_branch
  rw [plug_far] at h
  have hy := h.get?_branch
  obtain ⟨t₁, e₁, k₁, h₁⟩ := h.setColor cx
  rw [← plug_far] at h₁
  obtain ⟨t₂, e₂, k₂, h₂⟩ := h₁.setColor .black
  rw [plug_far, plug_far, hz] at h₂
  obtain ⟨t₃, e₃, k₃, h₃⟩ := h₂.setColor .black
  rw [← plug_far, ← plug_far] at h₃
  obtain ⟨t₄, e₄, k₄, h₄⟩ := h₃.rotate
  refine ⟨t₄, ?_, k₁.trans (k₂.trans (k₃.trans k₄)), ?_⟩
  · rw [Tree.raiseSibling, node_eq hy]
    simp only [ok_bind, Node.child_branch_other, hroot]
    rw [node_eq hx]
    simp only [ok_bind, Node.color_branch, e₁, e₂, e₃, e₄]
  · rwa [hz, recolor_branch]

/-- Below a black sibling with a red nephew, the repair ends. -/
theorem mend (h : tree.HasShape (plug (f :: path) s))
    (ha : f.aside = branch f.side c y ey near far) (ht : f.mend s = some t) :
    ∃ z t₁ t₂, tree.redFarNephew f.side f.handle y = .ok (z, t₁) ∧
      t₁.raiseSibling f.side f.handle z = .ok t₂ ∧ tree.Relinked t₂ ∧
      t₂.HasShape (plug path t) := by
  have hy := h.beside
  rw [ha] at hy
  have hnode := hy.get?_branch
  have hfar := hy
  rw [plug_far] at hfar
  have hfarColor := hfar.colorAt_root
  cases hfc : far.color with
  | red =>
    rw [Frame.mend_of_far_red ha hfc, Option.some.injEq] at ht
    rw [← plug_far] at hy
    obtain ⟨t₂, e₂, k₂, h₂⟩ := hy.raiseSibling (b := far) (by rintro rfl; cases hfc)
    refine ⟨y, tree, t₂, ?_, e₂, k₂, ?_⟩
    · rw [Tree.redFarNephew, node_eq hnode]
      simp only [ok_bind, Node.child_branch_other, hfarColor, hfc, pure_eq_ok]
    · rwa [← ht]
  | black =>
    cases hnc : near.color with
    | black =>
      rw [Frame.mend_of_black ha hnc hfc] at ht
      cases ht
    | red =>
      obtain ⟨x, ex, na, nb, rfl⟩ := exists_branch_of_red f.side hnc
      rw [Frame.mend_of_near_red ha hfc, Option.some.injEq] at ht
      -- The near nephew is turned above the sibling.
      have hx := hy
      rw [plug_near] at hx
      obtain ⟨t₁, e₁, k₁, h₁⟩ := hx.setColor .black
      rw [← plug_near] at h₁
      obtain ⟨t₂, e₂, k₂, h₂⟩ := h₁.setColor .red
      rw [← branch_other, ← branch_other (b := na)] at h₂
      obtain ⟨t₃, e₃, k₃, h₃⟩ := h₂.rotate
      rw [branch_other, branch_other, ← plug_far] at h₃
      let f' : Frame := { f with
        aside := branch f.side .black x ex na (branch f.side .red y ey nb far) }
      have hsibling : t₃.sibling f.handle f.side.other = .ok x :=
        HasShape.sibling (f := f') h₃ root_branch
      obtain ⟨t₄, e₄, k₄, h₄⟩ := h₃.raiseSibling (by cases f.side <;> simp [branch])
      refine ⟨x, t₃, t₄, ?_, e₄, k₁.trans (k₂.trans (k₃.trans k₄)), ?_⟩
      · rw [Tree.redFarNephew, node_eq hnode]
        simp only [ok_bind, Node.child_branch_other, hfarColor, hfc, Node.child_branch_self,
          root_branch, e₁, e₂, e₃, hsibling, pure_eq_ok]
      · rw [recolor_branch] at h₄
        rwa [← ht]

/-- One turn of the repair, up to the sibling: below a black lacking shape, the side of the frame is
found by comparing, as the sibling is there. -/
private theorem repairRemoveWithin_of_black (h : tree.HasShape (plug (f :: path) s))
    (hs : s.color = .black) (ha : f.aside ≠ absent) (fuel : Nat) :
    Tree.repairRemoveWithin (fuel + 1) tree s.root (some f.handle) = (do
      let (sibling, tree) ← tree.blackSibling f.side f.handle
      let siblingNode ← tree.node sibling
      let near ← tree.colorAt (siblingNode.child f.side)
      let far ← tree.colorAt (siblingNode.child f.side.other)
      match near, far with
      | .black, .black =>
        let tree ← tree.setColor sibling .red
        Tree.repairRemoveWithin fuel tree (some f.handle) (← tree.node f.handle).parent
      | _, _ =>
        let (sibling, tree) ← tree.redFarNephew f.side f.handle sibling
        let tree ← tree.raiseSibling f.side f.handle sibling
        return (tree.root, tree)) := by
  obtain ⟨y, ey, na, nb, hy⟩ := (absent_or_branch .left f.aside).resolve_left ha
  have haside : f.aside.root ≠ s.root := by
    intro heq
    have hroot : f.aside.root = some y := by rw [hy, root_branch]
    exact h.aside_root_ne (heq ▸ hroot) hroot
  rw [Tree.repairRemoveWithin, if_neg h.root_ne, h.colorAt_root, hs]
  simp only [ok_bind]
  rw [node_eq h.get?_frame, ok_bind]
  exact (side_of_child haside).symm ▸ rfl

/-- One turn of the repair, behind a black sibling: it ends, or recolours the sibling and goes on
one level higher. -/
private theorem repairRemoveWithin_turn {after : Tree} {g : Frame} {path₀ : List Frame}
    (h : tree.HasShape (plug (f :: path) s)) (hs : s.color = .black) (ha : f.aside ≠ absent)
    (hblack : tree.blackSibling f.side f.handle = .ok (y, after)) (hside : g.side = f.side)
    (hhandle : g.handle = f.handle) (h₀ : after.HasShape (plug (g :: path₀) s))
    (hg : g.aside = branch g.side .black y ey near far) (fuel : Nat) :
    (∀ t, g.mend s = some t →
      ∃ last, Tree.repairRemoveWithin (fuel + 1) tree s.root (some f.handle) =
          .ok (last.root, last) ∧ after.Relinked last ∧ last.HasShape (plug path₀ t)) ∧
    (g.mend s = none →
      ∃ next, Tree.repairRemoveWithin (fuel + 1) tree s.root (some f.handle) =
          Tree.repairRemoveWithin fuel next (some f.handle) (above path₀) ∧
        after.Relinked next ∧ next.HasShape (plug path₀ (g.dim s))) := by
  have hy := h₀.beside
  rw [hg] at hy
  have hnear := hy
  rw [plug_near] at hnear
  have hfar := hy
  rw [plug_far] at hfar
  rw [repairRemoveWithin_of_black h hs ha, hblack, ok_bind]
  dsimp only
  rw [node_eq hy.get?_branch]
  simp only [ok_bind, ← hside, ← hhandle, Node.child_branch_self, Node.child_branch_other,
    hnear.colorAt_root, hfar.colorAt_root]
  constructor
  · intro t ht
    obtain ⟨z, t₁, t₂, e₁, e₂, k₂, h₂⟩ := h₀.mend hg ht
    refine ⟨t₂, ?_, k₂, h₂⟩
    split
    · next hnc hfc =>
      rw [Frame.mend_of_black hg hnc hfc] at ht
      cases ht
    · simp only [e₁, e₂, ok_bind, pure_eq_ok]
  · intro hnone
    obtain ⟨hnc, hfc⟩ := (Frame.mend_eq_none_iff hg s).mp hnone
    obtain ⟨t₁, e₁, k₁, h₁⟩ := hy.setColor .red
    rw [← plug_far] at h₁
    have hdim : t₁.HasShape (plug path₀ (g.dim s)) := by
      rwa [Frame.dim, hg, recolor_branch]
    refine ⟨t₁, ?_, k₁, hdim⟩
    rw [hnc, hfc]
    simp only [e₁, ok_bind]
    rw [node_eq h₁.get?_branch]
    simp only [ok_bind, Node.parent_branch]

/-- What is in a place, turned black. -/
theorem blacken (h : tree.HasShape (plug path s)) :
    ∃ after, (match s.root with
        | none => (pure tree : Except Fault Tree)
        | some x => tree.setColor x .black) = .ok after ∧ tree.Relinked after ∧
      after.HasShape (plug path (s.recolor .black)) := by
  rcases absent_or_branch .left s with rfl | ⟨x, e, a, b, hs⟩
  · exact ⟨tree, rfl, .refl tree, h⟩
  · rw [hs] at h ⊢
    rw [root_branch, recolor_branch]
    exact h.setColor .black

/-- The repair ends, and turning the last node black leaves a tree of the shape. -/
def RepairsTo (fuel : Nat) (tree : Tree) (lacking parent : Option Handle) (shape : Shape) : Prop :=
  ∃ last t₁ t₂, Tree.repairRemoveWithin fuel tree lacking parent = .ok (last, t₁) ∧
    (match last with
      | none => (pure t₁ : Except Fault Tree)
      | some x => t₁.setColor x .black) = .ok t₂ ∧ tree.Relinked t₂ ∧ t₂.HasShape shape

variable {fuel : Nat} {lacking parent : Option Handle} {last next : Tree}

/-- A repair that ends at the root of a tree whose root is black already. -/
private theorem RepairsTo.ofEnd
    (heq : Tree.repairRemoveWithin fuel tree lacking parent = .ok (last.root, last))
    (hk : tree.Relinked last) (h : last.HasShape t) (hc : t.color = .black) :
    RepairsTo fuel tree lacking parent t := by
  obtain ⟨after, e, k, h'⟩ := (show last.HasShape (plug [] t) from h).blacken
  have hsame : t.recolor .black = t := hc ▸ recolor_color
  refine ⟨last.root, last, after, heq, ?_, hk.trans k, ?_⟩
  · rw [h.root_eq]
    exact e
  · rwa [plug, hsame] at h'

private theorem RepairsTo.ofNext {fuel' : Nat} {lacking' parent' : Option Handle}
    (heq : Tree.repairRemoveWithin fuel tree lacking parent =
      Tree.repairRemoveWithin fuel' next lacking' parent')
    (hk : tree.Relinked next) (h : RepairsTo fuel' next lacking' parent' t) :
    RepairsTo fuel tree lacking parent t := by
  obtain ⟨last, t₁, t₂, e₁, e₂, k₂, h₂⟩ := h
  exact ⟨last, t₁, t₂, heq.trans e₁, e₂, hk.trans k₂, h₂⟩

/-- A red lacking shape ends the repair. -/
private theorem repairsTo_of_red (h : tree.HasShape (plug path s)) (hs : s.color = .red)
    (fuel : Nat) (parent : Option Handle) :
    RepairsTo (fuel + 1) tree s.root parent (plug path (s.recolor .black)) := by
  obtain ⟨after, heq, hk, hshape⟩ := h.blacken
  refine ⟨s.root, tree, after, ?_, heq, hk, hshape⟩
  rw [Tree.repairRemoveWithin]
  split_ifs
  · rfl
  · rw [h.colorAt_root, hs]
    rfl

/-- Beside a red sibling, the repair ends in this turn or in the next. -/
private theorem repairsTo_of_red_sibling {n : Nat} (h : tree.HasShape (plug (f :: path) s))
    (hs : s.color = .black) (ha : f.aside = branch f.side .red y ey near far)
    (hnear : near.Balanced (n + 1)) (hnc : near.color = .black)
    (hfinal : (Shape.repairRemove (f :: path) s).color = .black) (fuel : Nat) :
    RepairsTo (fuel + 2) tree s.root (some f.handle) (Shape.repairRemove (f :: path) s) := by
  have hne : f.aside ≠ absent := by
    rw [ha]
    cases f.side <;> simp [branch]
  have hlow : f.lowered.aside = near := by rw [Frame.lowered, ha, child_branch_self]
  obtain ⟨x, ex, na, nb, hx⟩ := (absent_or_branch f.side near).resolve_left hnear.ne_absent
  rw [hnc] at hx
  have hroot : near.root = some x := by rw [hx, root_branch]
  obtain ⟨after, hsibling, hk, hshape⟩ := h.blackSibling_of_red ha hroot
  obtain ⟨hmend, hdim⟩ :=
    repairRemoveWithin_turn (g := f.lowered) h hs hne hsibling rfl rfl hshape (hlow.trans hx)
      (fuel + 1)
  rw [repairRemove_of_red_sibling hs ha] at hfinal ⊢
  cases hm : f.lowered.mend s with
  | some t =>
    rw [hm, Option.getD_some] at hfinal
    obtain ⟨last, heq, hk', hlast⟩ := hmend t hm
    exact .ofEnd heq (hk.trans hk') hlast hfinal
  | none =>
    obtain ⟨next, heq, hk', hnext⟩ := hdim hm
    have hdroot : (f.lowered.dim s).root = some f.handle := root_branch
    have hred := repairsTo_of_red hnext color_branch fuel (above (f.raised y ey :: path))
    rw [hdroot] at hred
    exact .ofNext heq (hk.trans hk') hred

/-- The repair after a removal ends, where a shape lacks a black level below a path that fits. -/
theorem repairsTo {n : Nat} (h : tree.HasShape (plug path s)) (hs : Lacking s n)
    (hp : Fits path .black (n + 1)) (hfuel : path.length < fuel) :
    RepairsTo fuel tree s.root (above path) (Shape.repairRemove path s) := by
  induction path generalizing tree s n fuel with
  | nil =>
    obtain ⟨fuel, rfl⟩ : ∃ k, fuel = k + 1 := ⟨fuel - 1, by omega⟩
    obtain ⟨after, heq, hk, hshape⟩ := h.blacken
    refine ⟨s.root, tree, after, ?_, heq, hk, hshape⟩
    have hroot : tree.root = s.root := h.root_eq
    rw [Tree.repairRemoveWithin, if_pos hroot.symm, pure_eq_ok]
  | cons f path ih =>
    have hfinal := (hs.repairRemove hp).1
    simp only [List.length_cons] at hfuel
    obtain ⟨fuel, rfl⟩ : ∃ k, fuel = k + 2 := ⟨fuel - 2, by omega⟩
    rcases hs with ⟨hsc, hs⟩ | ⟨hsc, -⟩
    · have haside : f.aside.Balanced (n + 1) := by
        cases hp with
        | red _ _ ha _ => exact ha
        | black _ _ ha _ => exact ha
      have hne := haside.ne_absent
      obtain ⟨y, ey, near, far, ha⟩ := (absent_or_branch f.side f.aside).resolve_left hne
      rw [above_cons]
      cases hac : f.aside.color with
      | red =>
        rw [hac] at ha
        obtain ⟨⟨hnc, -⟩, hnear, -⟩ := balanced_red_iff.mp (ha ▸ haside)
        exact repairsTo_of_red_sibling h hsc ha hnear hnc hfinal fuel
      | black =>
        rw [hac] at ha
        obtain ⟨hnear, hfar⟩ := balanced_black_succ_iff.mp (ha ▸ haside)
        obtain ⟨hmend, hdim⟩ := repairRemoveWithin_turn h hsc hne (h.blackSibling_of_black ha)
          rfl rfl h ha (fuel + 1)
        rw [repairRemove_of_black_sibling hsc ha] at hfinal ⊢
        cases hm : f.mend s with
        | some t =>
          rw [hm] at hfinal
          obtain ⟨last, heq, hk, hlast⟩ := hmend t hm
          exact .ofEnd heq hk hlast hfinal
        | none =>
          obtain ⟨hnc, hfc⟩ := (Frame.mend_eq_none_iff ha s).mp hm
          obtain ⟨m, hlacking, hfits⟩ := hs.dim ha hnc hfc hnear hfar hp
          obtain ⟨next, heq, hk, hnext⟩ := hdim hm
          have hdroot : (f.dim s).root = some f.handle := root_branch
          have hrest := ih hnext hlacking hfits (Nat.lt_of_succ_lt_succ hfuel)
          rw [hdroot] at hrest
          exact .ofNext heq hk hrest
    · rw [repairRemove_of_red hsc]
      exact repairsTo_of_red h hsc _ _

/-- The repair after a removal. -/
theorem repairRemove {n : Nat} (h : tree.HasShape (plug path s)) (hs : Lacking s n)
    (hp : Fits path .black (n + 1)) (hlength : path.length ≤ tree.nodes.slots.size) :
    ∃ after, tree.repairRemove s.root (above path) = .ok after ∧ tree.Relinked after ∧
      after.HasShape (Shape.repairRemove path s) := by
  have hfuel : path.length < tree.walkBound := Nat.lt_succ_of_le hlength
  obtain ⟨last, t₁, t₂, e₁, e₂, k₂, h₂⟩ := h.repairsTo hs hp hfuel
  refine ⟨t₂, ?_, k₂, h₂⟩
  rw [Tree.repairRemove, e₁, ok_bind]
  exact e₂

end HasShape

end Tree

end MeteredMap
