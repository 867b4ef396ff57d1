import MeteredMap.Proofs.Tree.Links

/-!
# Rotations of shapes

A rotation changes at most six links, all between the two nodes that change places, the subtree
that moves across, the node above and the root reference. In terms of shapes it is one equation,
for every place in a shape (`MeteredMap.Tree.HasShape.rotate`).

## Main results

* `MeteredMap.Tree.adopt_linked` : a shape hung below another node.
* `MeteredMap.Tree.setChild_linked`, `MeteredMap.Tree.replaceChild_linked` : another shape put into
  a place.
* `MeteredMap.Tree.rotate_linked`, `MeteredMap.Tree.HasShape.rotate` : a rotation.
* `MeteredMap.Tree.rotate_steps` : what every single change of a link keeps, a rotation keeps.
-/

namespace MeteredMap

namespace Tree

open Shape

variable {tree : Tree} {side : Side} {c cx cy : Color} {x y : Handle} {e ex ey : Entry}
  {a b d s : Shape} {path : List Frame} {p : Option Handle}

/-- A shape hung below another node: the parent link of its uppermost node is led there. -/
theorem adopt_linked (hs : s.Linked tree.nodes.get? p) (hn : s.handles.Nodup)
    (q : Option Handle) :
    ∃ after, tree.adopt s.root q = .ok after ∧ tree.Relinked after ∧ after.root = tree.root ∧
      s.Linked after.nodes.get? q ∧
      ∀ z, s.root ≠ some z → after.nodes.get? z = tree.nodes.get? z := by
  rcases absent_or_branch .left s with rfl | ⟨z, e, a, b, hbranch⟩
  · exact ⟨tree, rfl, .refl tree, rfl, trivial, fun z _ => rfl⟩
  · rw [hbranch] at hs hn ⊢
    obtain ⟨hz, ha, hb⟩ := linked_branch_iff.mp hs
    obtain ⟨hnot, -⟩ := List.nodup_cons.mp (handles_branch_perm.nodup_iff.mp hn)
    simp only [List.mem_append, not_or] at hnot
    have hframe : ∀ w, w ≠ z → (tree.revise z (Node.reparent q)).nodes.get? w = tree.nodes.get? w :=
      fun w hw => Arena.get?_revise_ne _ hw
    refine ⟨tree.revise z (Node.reparent q), ?_, .revise _ _ _, rfl, ?_, fun w hw => ?_⟩
    · rw [root_branch]
      exact update_eq_revise (Node.reparent q) hz
    · refine linked_branch_iff.mpr ⟨?_, ?_, ?_⟩
      · rw [Tree.revise, Arena.get?_revise_self, hz, Option.map_some, Node.reparent_branch]
      · exact ha.congr fun w hw => hframe w (ne_of_mem_of_not_mem hw hnot.1)
      · exact hb.congr fun w hw => hframe w (ne_of_mem_of_not_mem hw hnot.2)
    · refine hframe w ?_
      rintro rfl
      exact hw root_branch

theorem above_mem_pathHandles (h : above path = some x) : x ∈ pathHandles path := by
  cases path with
  | nil => cases h
  | cons f path => exact Option.some.inj h ▸ List.mem_cons_self

/-- The link to be led elsewhere is found by comparing, and is on the side where it is. -/
private theorem replaceChild_eq {q : Handle} {far : Option Handle}
    (h : tree.nodes.get? q = some (Node.branch side c e p (some x) far)) (hfar : far ≠ some x)
    (new : Option Handle) : tree.replaceChild (some q) x new = tree.setChild q side new := by
  rw [replaceChild, node_eq h]
  cases side <;> simp [Node.branch, hfar]

/-- The child link of the nearest frame led elsewhere. -/
theorem setChild_linked {f : Frame} {hole : Option Handle}
    (hp : PathLinked tree.nodes.get? (f :: path) hole) (hn : (pathHandles (f :: path)).Nodup)
    (new : Option Handle) :
    ∃ after, tree.setChild f.handle f.side new = .ok after ∧ tree.Relinked after ∧
      after.root = tree.root ∧ PathLinked after.nodes.get? (f :: path) new ∧
      ∀ z, z ≠ f.handle → after.nodes.get? z = tree.nodes.get? z := by
  obtain ⟨hf, ha, hpath⟩ := hp
  rw [pathHandles, List.nodup_cons, List.mem_append, not_or] at hn
  obtain ⟨⟨hfa, hfp⟩, -⟩ := hn
  obtain ⟨after, heq, hk, hroot, hself, hframe⟩ := update_linked (·.withChild f.side new) hf
  refine ⟨after, heq, hk, hroot, ⟨?_, ?_, ?_⟩, hframe⟩
  · rw [hself]
    exact congrArg some Node.withChild_branch_self
  · exact ha.congr fun w hw => hframe w (ne_of_mem_of_not_mem hw hfa)
  · exact hpath.congr fun w hw => hframe w (ne_of_mem_of_not_mem hw hfp)

/-- Another shape put into a place: the link from above, or the root reference, is led to it. -/
theorem replaceChild_linked (hp : PathLinked tree.nodes.get? path (some x))
    (hn : (pathHandles path).Nodup) (hx : x ∉ pathHandles path)
    (hroot : tree.root = rootAbove path (some x)) (new : Option Handle) :
    ∃ after, tree.replaceChild (above path) x new = .ok after ∧ tree.Relinked after ∧
      after.root = rootAbove path new ∧ PathLinked after.nodes.get? path new ∧
      ∀ z, above path ≠ some z → after.nodes.get? z = tree.nodes.get? z := by
  cases path with
  | nil => exact ⟨{ tree with root := new }, rfl, .setRoot tree new, rfl, trivial, fun z _ => rfl⟩
  | cons f path =>
    have hxa : x ∉ f.aside.handles := fun h =>
      hx (List.mem_cons_of_mem _ (List.mem_append_left _ h))
    have haside : f.aside.root ≠ some x := fun h => hxa (root_mem_handles h)
    obtain ⟨after, heq, hk, hafter, hpath, hframe⟩ := setChild_linked hp hn new
    refine ⟨after, ?_, hk, hafter.trans hroot, hpath, fun w hw => hframe w ?_⟩
    · rw [above_cons, replaceChild_eq hp.1 haside]
      exact heq
    · rintro rfl
      exact hw (above_cons f path)

/-- A rotation toward `side` at a node, below which another node hangs on the other side. Slots
that hold none of the nodes around stay as they are, whatever they hold. -/
theorem rotate_linked
    (hs : (plug path (branch side cx x ex a (branch side cy y ey b d))).Linked tree.nodes.get? none)
    (hn : (plug path (branch side cx x ex a (branch side cy y ey b d))).handles.Nodup)
    (hroot : tree.root = (plug path (branch side cx x ex a (branch side cy y ey b d))).root) :
    ∃ after, tree.rotate side x = .ok after ∧ tree.Relinked after ∧
      after.root = (plug path (branch side cy y ey (branch side cx x ex a b) d)).root ∧
      (plug path (branch side cy y ey (branch side cx x ex a b) d)).Linked
        after.nodes.get? none ∧
      ∀ z, z ≠ x → z ≠ y → b.root ≠ some z → above path ≠ some z →
        after.nodes.get? z = tree.nodes.get? z := by
  obtain ⟨hbranch, hpath⟩ := linked_plug_iff.mp hs
  obtain ⟨hx, ha, hpivot⟩ := linked_branch_iff.mp hbranch
  obtain ⟨hy, hb, hd⟩ := linked_branch_iff.mp hpivot
  rw [root_plug] at hroot
  simp only [root_branch] at hx hpath hroot
  -- All handles around are different.
  have hnodup := nodup_branch_iff.mp hn
  have hperm : (x :: (a.handles ++ (branch side cy y ey b d).handles ++ pathHandles path)).Perm
      (x :: y :: (a.handles ++ (b.handles ++ d.handles) ++ pathHandles path)) := by
    refine List.Perm.cons x ?_
    refine ((handles_branch_perm.append_left a.handles).append_right _).trans ?_
    simp
  have hall := hperm.nodup_iff.mp hnodup
  simp only [List.nodup_cons, List.nodup_append, List.mem_cons, List.mem_append, not_or] at hall
  obtain ⟨⟨hxy, ⟨hxa, hxb, hxd⟩, hxp⟩, ⟨⟨hya, hyb, hyd⟩, hyp⟩, ⟨-, ⟨hbn, -, hbd⟩, hab⟩, hpn, hP⟩ :=
    hall
  -- The steps of the rotation, one after the other, and what each leaves alone.
  obtain ⟨t₁, (e₁ : tree.setChild x side.other b.root = .ok t₁), k₁, r₁, hx₁, f₁⟩ :=
    update_linked (·.withChild side.other b.root) hx
  rw [Node.withChild_branch_other] at hx₁
  have hb₁ : b.Linked t₁.nodes.get? (some y) := hb.congr fun z hz => f₁ z (by grind)
  obtain ⟨t₂, e₂, k₂, r₂, hb₂, g₂⟩ := adopt_linked hb₁ hbn (some x)
  have f₂ : ∀ z, z ∉ b.handles → t₂.nodes.get? z = t₁.nodes.get? z :=
    fun z hz => g₂ z fun h => hz (root_mem_handles h)
  have hy₂ : t₂.nodes.get? y = some (Node.branch side cy ey (some x) b.root d.root) := by
    rw [f₂ y hyb, f₁ y (Ne.symm hxy), hy]
  obtain ⟨t₃, (e₃ : t₂.setParent y (above path) = .ok t₃), k₃, r₃, hy₃, f₃⟩ :=
    update_linked (Node.reparent (above path)) hy₂
  rw [Node.reparent_branch] at hy₃
  have hpath₃ : PathLinked t₃.nodes.get? path (some x) := by
    refine hpath.congr fun z hz => ?_
    rw [f₃ z (by grind), f₂ z (by grind), f₁ z (by grind)]
  have hroot₃ : t₃.root = rootAbove path (some x) := by rw [r₃, r₂, r₁, hroot]
  obtain ⟨t₄, e₄, k₄, r₄, hpath₄, g₄⟩ := replaceChild_linked hpath₃ hpn hxp hroot₃ (some y)
  have f₄ : ∀ z, z ∉ pathHandles path → t₄.nodes.get? z = t₃.nodes.get? z :=
    fun z hz => g₄ z fun h => hz (above_mem_pathHandles h)
  have hy₄ : t₄.nodes.get? y = some (Node.branch side cy ey (above path) b.root d.root) := by
    rw [f₄ y hyp, hy₃]
  obtain ⟨t₅, (e₅ : t₄.setChild y side (some x) = .ok t₅), k₅, r₅, hy₅, f₅⟩ :=
    update_linked (·.withChild side (some x)) hy₄
  rw [Node.withChild_branch_self] at hy₅
  have hx₅ : t₅.nodes.get? x = some (Node.branch side cx ex (above path) a.root b.root) := by
    rw [f₅ x hxy, f₄ x hxp, f₃ x hxy, f₂ x hxb, hx₁]
  obtain ⟨t₆, (e₆ : t₅.setParent x (some y) = .ok t₆), k₆, r₆, hx₆, f₆⟩ :=
    update_linked (Node.reparent (some y)) hx₅
  rw [Node.reparent_branch] at hx₆
  have hk : tree.Relinked t₆ := k₁.trans (k₂.trans (k₃.trans (k₄.trans (k₅.trans k₆))))
  refine ⟨t₆, ?_, hk, ?_, ?_, fun z hzx hzy hzb hzp => ?_⟩
  · rw [Tree.rotate, node_eq hx]
    simp only [ok_bind, Node.child_branch_other, Node.parent_branch]
    rw [node_eq hy]
    simp only [ok_bind, Node.child_branch_self, e₁, e₂, e₃, e₄, e₅, e₆]
  · rw [r₆, r₅, r₄, root_plug, root_branch]
  · have hy₆ : t₆.nodes.get? y = some (Node.branch side cy ey (above path) (some x) d.root) := by
      rw [f₆ y (Ne.symm hxy), hy₅]
    refine linked_plug_iff.mpr ⟨linked_branch_iff.mpr ⟨?_, linked_branch_iff.mpr ⟨hx₆, ?_, ?_⟩, ?_⟩,
      ?_⟩
    · rw [root_branch, hy₆]
    · refine ha.congr fun z hz => ?_
      rw [f₆ z (by grind), f₅ z (by grind), f₄ z (by grind), f₃ z (by grind), f₂ z (by grind),
        f₁ z (by grind)]
    · refine hb₂.congr fun z hz => ?_
      rw [f₆ z (by grind), f₅ z (by grind), f₄ z (by grind), f₃ z (by grind)]
    · refine hd.congr fun z hz => ?_
      rw [f₆ z (by grind), f₅ z (by grind), f₄ z (by grind), f₃ z (by grind), f₂ z (by grind),
        f₁ z (by grind)]
    · rw [root_branch]
      refine hpath₄.congr fun z hz => ?_
      rw [f₆ z (by grind), f₅ z (by grind)]
  · rw [f₆ z hzx, f₅ z hzy, g₄ z hzp, f₃ z hzy, g₂ z hzb, f₁ z hzx]

/-- A rotation in a tree that has a shape. -/
theorem HasShape.rotate
    (h : tree.HasShape (plug path (branch side cx x ex a (branch side cy y ey b d)))) :
    ∃ after, tree.rotate side x = .ok after ∧ tree.Relinked after ∧
      after.HasShape (plug path (branch side cy y ey (branch side cx x ex a b) d)) := by
  obtain ⟨after, hrotate, hk, hroot, hlinked, -⟩ := rotate_linked h.linked h.nodup h.root_eq
  refine ⟨after, hrotate, hk, h.relinked hk ?_ hroot hlinked⟩
  rw [handles_plug_congr inorder_rotate]

/-! ### Step by step -/

/-- A relation between trees that holds wherever a child link, a parent link or the root reference
is led elsewhere holds between a tree and what a rotation makes of it. -/
theorem rotate_steps {R : Tree → Tree → Prop} (hrefl : ∀ t, R t t)
    (htrans : ∀ t u v, R t u → R u v → R t v)
    (hchild : ∀ t u x side child, t.setChild x side child = .ok u → R t u)
    (hparent : ∀ t u x parent, t.setParent x parent = .ok u → R t u)
    (hroot : ∀ (t : Tree) root, R t { t with root }) {after : Tree}
    (h : tree.rotate side x = .ok after) : R tree after := by
  have hadopt : ∀ t u child parent, t.adopt child parent = .ok u → R t u := by
    intro t u child parent h
    cases child with
    | none => exact Except.ok.inj h ▸ hrefl t
    | some child => exact hparent t u child parent h
  have hreplace : ∀ t u parent old new, t.replaceChild parent old new = .ok u → R t u := by
    intro t u parent old new h
    cases parent with
    | none => exact Except.ok.inj h ▸ hroot t new
    | some parent =>
      obtain ⟨node, -, h⟩ := bind_eq_ok_iff.mp h
      split at h
      · exact hchild t u _ _ _ h
      · split at h
        · exact hchild t u _ _ _ h
        · cases h
  obtain ⟨node, -, h⟩ := bind_eq_ok_iff.mp h
  cases hpivot : node.child side.other with
  | none =>
    rw [hpivot] at h
    cases h
  | some pivot =>
    rw [hpivot] at h
    obtain ⟨pivotNode, -, h⟩ := bind_eq_ok_iff.mp h
    obtain ⟨t₁, h₁, h⟩ := bind_eq_ok_iff.mp h
    obtain ⟨t₂, h₂, h⟩ := bind_eq_ok_iff.mp h
    obtain ⟨t₃, h₃, h⟩ := bind_eq_ok_iff.mp h
    obtain ⟨t₄, h₄, h⟩ := bind_eq_ok_iff.mp h
    obtain ⟨t₅, h₅, h⟩ := bind_eq_ok_iff.mp h
    refine htrans _ t₁ _ (hchild _ _ _ _ _ h₁) (htrans _ t₂ _ (hadopt _ _ _ _ h₂) ?_)
    refine htrans _ t₃ _ (hparent _ _ _ _ h₃) (htrans _ t₄ _ (hreplace _ _ _ _ _ h₄) ?_)
    exact htrans _ t₅ _ (hchild _ _ _ _ _ h₅) (hparent _ _ _ _ h)

end Tree

end MeteredMap
