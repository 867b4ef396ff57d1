import MeteredMap.Proofs.Tree.RepairRemove
import MeteredMap.Proofs.Tree.Sound
import MeteredMap.Proofs.Tree.Walks

/-!
# Removal from a sound tree

A removal from a sound tree of an entry that is there. It ends, it keeps the tree sound, and it
takes exactly this entry out of the order. If the entry's node has two children, the entry that
follows moves to its slot and the slot of that one is freed; no other entry moves.

## Main definitions

* `MeteredMap.Shape.without` : a shape with a node spliced out, its colours restored.
* `MeteredMap.Shape.Removes` : one entry taken out of an order, slot by slot.
* `MeteredMap.Shape.Excision`, `MeteredMap.Shape.Excises` : the node that a removal splices out.

## Main results

* `MeteredMap.Tree.HasShape.isolate` : the entry at a node with at most one child.
* `MeteredMap.Tree.HasShape.splice` : a node unlinked.
* `MeteredMap.Tree.Sound.removeAt_of_excises`, `MeteredMap.Tree.Sound.removeAt` : the whole removal.
-/

namespace MeteredMap

namespace Shape

variable {side : Side} {c : Color} {x : Handle} {e e' : Entry} {a b s child : Shape} {n : Nat}
  {path : List Frame}

/-- The shape around a place, after a node of colour `c` was spliced out there above `child`. -/
def without (path : List Frame) (c : Color) (child : Shape) : Shape :=
  match c with
  | .red => plug path child
  | .black => repairRemove path child

@[simp] theorem inorder_without :
    (without path c child).inorder = (plug path child).inorder := by
  cases c
  · rfl
  · rw [without, inorder_repairRemove]

/-- The colour rules do not depend on the entries. -/
theorem Balanced.relabel (h : (branch side c x e a b).Balanced n) :
    (branch side c x e' a b).Balanced n := by
  cases c
  · exact balanced_red_iff.mpr (balanced_red_iff.mp h)
  · exact balanced_black_iff.mpr (balanced_black_iff.mp h)

/-- What is left where a node with one child at most was spliced out lacks a black level if that
node was black. -/
theorem Balanced.lacking (h : (branch side .black x e child Shape.absent).Balanced n) :
    n = 1 ∧ Lacking child 0 := by
  obtain ⟨m, rfl, hchild, habsent⟩ := balanced_black_iff.mp h
  obtain rfl : m = 0 := balanced_absent_iff.mp habsent
  refine ⟨rfl, ?_⟩
  cases hc : child.color with
  | black => exact Or.inl ⟨hc, hchild⟩
  | red =>
    obtain ⟨y, ey, a, b, rfl⟩ := exists_branch_of_red .left hc
    refine Or.inr ⟨hc, ?_⟩
    rw [recolor_branch]
    exact balanced_black_succ_iff.mpr (balanced_red_iff.mp hchild).2

/-- Splicing out a node with at most one child keeps the colour rules. -/
theorem Balanced.without (h : (branch side c x e child Shape.absent).Balanced n)
    (hp : Fits path c n) :
    (without path c child).color = .black ∧ ∃ m, (without path c child).Balanced m := by
  cases c with
  | red =>
    obtain ⟨⟨hc, -⟩, hchild, -⟩ := balanced_red_iff.mp h
    exact hchild.plug (hc ▸ hp.toBlack)
  | black =>
    obtain ⟨rfl, hlacking⟩ := h.lacking
    exact hlacking.repairRemove hp

/-- One entry taken out of an order: `before` holds `e` at `x`, and `after` does without it. Either
the slot `x` is freed, or the entry that follows moves there and its slot is. The handle `next` is
where the following entry is afterwards. -/
inductive Removes (x : Handle) (e : Entry) : (before : List (Handle × Entry)) →
    (freed : Handle) → (next : Option Handle) → (after : List (Handle × Entry)) → Prop
  | direct (pre post : List (Handle × Entry)) :
      Removes x e (pre ++ (x, e) :: post) x (post.head?.map Prod.fst) (pre ++ post)
  | swapped (pre post : List (Handle × Entry)) (y : Handle) (ey : Entry) :
      Removes x e (pre ++ (x, e) :: (y, ey) :: post) y (some x) (pre ++ (x, ey) :: post)

namespace Removes

variable {before after : List (Handle × Entry)} {freed : Handle} {next : Option Handle}

theorem mem (h : Removes x e before freed next after) : (x, e) ∈ before := by
  cases h <;> simp

theorem freed_mem (h : Removes x e before freed next after) : freed ∈ before.map Prod.fst := by
  cases h <;> simp

theorem length (h : Removes x e before freed next after) : after.length + 1 = before.length := by
  cases h <;> simp <;> omega

/-- The entries are those before without the removed one, in the same order. -/
theorem split (h : Removes x e before freed next after) :
    ∃ pre post, before = pre ++ (x, e) :: post ∧
      after.map Prod.snd = pre.map Prod.snd ++ post.map Prod.snd := by
  cases h with
  | direct pre post => exact ⟨pre, post, rfl, by simp⟩
  | swapped pre post y ey => exact ⟨pre, (_, ey) :: post, rfl, by simp⟩

end Removes

/-! ### The node to splice out -/

/-- What is spliced out for a removal: a node with at most one child, in its place. -/
structure Excision where
  /-- The node. -/
  target : Handle
  /-- Where the entry is afterwards that follows the removed one. -/
  next : Option Handle
  /-- The removed entry. -/
  entry : Entry
  /-- What is around the node. -/
  path : List Frame
  /-- The side of the only child. -/
  side : Side
  color : Color
  /-- The only child. -/
  child : Shape

/-- The removal of the entry at `x` splices out the node at `x` or, if that one has two children,
the node of the entry that follows, whose entry moves to `x`. -/
inductive Excises (x : Handle) : Shape → Excision → Prop
  | noLeft (path : List Frame) (c : Color) (e : Entry) (r : Shape) :
      Excises x (plug path (branch .left c x e absent r))
        ⟨x, (r.inorder ++ pathAfter path).head?.map Prod.fst, e, path, .right, c, r⟩
  | noRight (path : List Frame) (c : Color) (e : Entry) (l : Shape) :
      Excises x (plug path (branch .left c x e l absent))
        ⟨x, (pathAfter path).head?.map Prod.fst, e, path, .left, c, l⟩
  | both (path : List Frame) (c : Color) (e : Entry) (l : Shape) (hl : l ≠ absent)
      (p : List Frame) (hp : ∀ f ∈ p, f.side = .left) (cy : Color) (y : Handle) (ey : Entry)
      (b : Shape) :
      Excises x (plug path (branch .left c x e l (plug p (branch .left cy y ey absent b))))
        ⟨y, some x, e, p ++ ⟨.right, c, x, ey, l⟩ :: path, .right, cy, b⟩

/-- Some node is spliced out for every entry that is removed. -/
theorem exists_excises (h : x ∈ s.handles) : ∃ site, Excises x s site := by
  obtain ⟨path, c, e, l, r, rfl⟩ := exists_plug_of_mem .left h
  by_cases hl : l = absent
  · subst hl
    exact ⟨_, .noLeft path c e r⟩
  · by_cases hr : r = absent
    · subst hr
      exact ⟨_, .noRight path c e l⟩
    · obtain ⟨p, cy, y, ey, b, rfl, hp⟩ := exists_plug_outermost .left hr
      exact ⟨_, .both path c e l hl p hp cy y ey b⟩

/-- A place below the right child of a node, as a place in the whole. -/
theorem plug_below {l : Shape} (p path : List Frame) (s : Shape) :
    plug path (branch .left c x e l (plug p s)) = plug (p ++ ⟨.right, c, x, e, l⟩ :: path) s := by
  rw [plug_append]
  rfl

/-- Around a node there is a node on top. -/
theorem exists_root_plug (path : List Frame) (side : Side) (c : Color) (x : Handle) (e : Entry)
    (a b : Shape) : ∃ y, (plug path (branch side c x e a b)).root = some y := by
  rw [root_plug, root_branch]
  cases path with
  | nil => exact ⟨x, rfl⟩
  | cons f path =>
    obtain ⟨y, hy, -⟩ := exists_rootAbove_cons f path (some x)
    exact ⟨y, hy⟩

/-- What is not absent has a node on top. -/
theorem exists_root (h : s ≠ absent) : ∃ x, s.root = some x := by
  obtain ⟨x, e, _, _, hs⟩ := (absent_or_branch .left _).resolve_left h
  exact ⟨x, by rw [hs, root_branch]⟩

namespace Excises

variable {site : Excision}

/-- The order without the removed entry. -/
theorem removes (h : Excises x s site) :
    Removes x site.entry s.inorder site.target site.next (plug site.path site.child).inorder := by
  cases h with
  | noLeft path c e r =>
    rw [inorder_plug_branch, inorder_plug, List.append_assoc]
    simpa [inorder] using
      Removes.direct (x := x) (e := e) (pathBefore path) (r.inorder ++ pathAfter path)
  | noRight path c e l =>
    rw [inorder_plug_branch, inorder_plug]
    exact Removes.direct (x := x) (e := e) (pathBefore path ++ l.inorder) (pathAfter path)
  | both path c e l hl p hp cy y ey b =>
    have hnil : beyond Side.right.other p = [] := beyond_eq_nil hp
    have hbelow : ∀ t : Shape, (plug p t).inorder = t.inorder ++ beyond .right p := by
      intro t
      have hplug := toward_plug .right p t
      rwa [hnil] at hplug
    have hafter : (plug path (branch .left c x ey l (plug p b))).inorder =
        (pathBefore path ++ l.inorder) ++
          (x, ey) :: (b.inorder ++ beyond .right p ++ pathAfter path) := by
      rw [inorder_plug_branch, hbelow]
    rw [inorder_plug_branch, ← plug_below, hafter, hbelow]
    simpa [branch, inorder] using Removes.swapped (x := x) (e := e) (pathBefore path ++ l.inorder)
      (b.inorder ++ beyond .right p ++ pathAfter path) y ey

/-- The node obeys the colour rules in its place, whichever entry it holds. -/
theorem balanced (h : Excises x s site) (hn : ∃ n, s.Balanced n) (hblack : s.color = .black) :
    ∃ n, (branch site.side site.color site.target site.entry site.child absent).Balanced n ∧
      Fits site.path site.color n := by
  obtain ⟨n, hn⟩ := hn
  cases h with
  | noLeft path c e r =>
    obtain ⟨m, hm, hfits⟩ := hn.unplug hblack
    rw [color_branch] at hfits
    exact ⟨m, hm, hfits⟩
  | noRight path c e l =>
    obtain ⟨m, hm, hfits⟩ := hn.unplug hblack
    rw [color_branch] at hfits
    exact ⟨m, hm, hfits⟩
  | both path c e l hl p hp cy y ey b =>
    obtain ⟨m, hm, hfits⟩ := hn.unplug hblack
    rw [color_branch] at hfits
    have hrelabel : (branch .left c x ey l (plug p (branch .left cy y ey absent b))).Balanced m :=
      hm.relabel
    obtain ⟨hblack', k, hk⟩ := hrelabel.plug hfits
    rw [plug_below] at hblack' hk
    obtain ⟨j, hj, hfits'⟩ := hk.unplug hblack'
    rw [color_branch] at hfits'
    exact ⟨j, hj.relabel, hfits'⟩

end Excises

end Shape

namespace Tree

open Shape

variable {α : Type} {tree mid after : Tree} {side : Side} {c : Color} {x y : Handle}
  {e ex ey : Entry} {a b s t child : Shape} {path : List Frame} {vacant : List Handle}

/-! ### Splicing -/

/-- What unlinking a node and freeing its slot does beyond links. -/
structure Freed (before : Tree) (vacant : List Handle) (x : Handle) (after : Tree) : Prop where
  akin : Akin before after
  wellFormed : after.nodes.WellFormed (x :: vacant)
  slotSize : after.nodes.slotSize = before.nodes.slotSize
  live : after.nodes.live + 1 = before.nodes.live
  capacity : after.nodes.capacity = before.nodes.capacity
  size : after.nodes.slots.size = before.nodes.slots.size

theorem Freed.relinked (h : Freed tree vacant x mid) (hk : Relinked mid after) :
    Freed tree vacant x after where
  akin := h.akin.trans hk.akin
  wellFormed := h.wellFormed.kept hk.nodes
  slotSize := hk.nodes.slotSize.trans h.slotSize
  live := by rw [hk.nodes.live, h.live]
  capacity := hk.nodes.capacity.trans h.capacity
  size := hk.nodes.size.trans h.size

theorem Relinked.freed (hk : Relinked tree mid) (h : Freed mid vacant x after) :
    Freed tree vacant x after where
  akin := hk.akin.trans h.akin
  wellFormed := h.wellFormed
  slotSize := h.slotSize.trans hk.nodes.slotSize
  live := h.live.trans hk.nodes.live
  capacity := h.capacity.trans hk.nodes.capacity
  size := h.size.trans hk.nodes.size

namespace HasShape

/-- The only child of a node is found by looking on one side and then on the other. -/
theorem left_orElse_right (side : Side) (c : Color) (e : Entry) (p child : Option Handle) :
    ((Node.branch side c e p child none).left <|> (Node.branch side c e p child none).right) =
      child := by
  cases side <;> cases child <;> rfl

/-- A node with at most one child, unlinked and taken out of its slot. -/
theorem splice (h : tree.HasShape (plug path (branch side c x e child absent)))
    (hwf : tree.nodes.WellFormed vacant) (hlive : 0 < tree.nodes.live) :
    ∃ after, tree.splice x = .ok (Node.branch side c e (above path) child.root none, after) ∧
      after.HasShape (plug path child) ∧ tree.Freed vacant x after := by
  have hnodup := nodup_branch_iff.mp h.nodup
  simp only [handles_absent, List.append_nil, List.nodup_cons, List.nodup_append, List.mem_append,
    not_or] at hnodup
  obtain ⟨⟨hxc, hxp⟩, hcn, hpn, hcp⟩ := hnodup
  have hself : tree.nodes.get? x = some (Node.branch side c e (above path) child.root none) :=
    h.get?_branch
  obtain ⟨hbranch, hpath⟩ := linked_plug_iff.mp h.linked
  obtain ⟨-, hchild, -⟩ := linked_branch_iff.mp hbranch
  have hroot := h.root_eq
  rw [root_plug] at hroot
  rw [root_branch] at hpath hroot
  -- The child is hung below the frame.
  obtain ⟨t₁, e₁, k₁, r₁, hchild₁, frame₁⟩ := adopt_linked hchild hcn (above path)
  have hpath₁ : PathLinked t₁.nodes.get? path (some x) :=
    hpath.congr fun y hy => frame₁ y fun hyc => hcp y (root_mem_handles hyc) y hy rfl
  -- The frame is led to the child.
  obtain ⟨t₂, e₂, k₂, r₂, hpath₂, frame₂⟩ :=
    replaceChild_linked hpath₁ hpn hxp (r₁.trans hroot) child.root
  have hchild₂ : child.Linked t₂.nodes.get? (above path) :=
    hchild₁.congr fun y hy => frame₂ y fun hyp => hcp y hy y (above_mem_pathHandles hyp) rfl
  have hself₂ : t₂.nodes.get? x = some (Node.branch side c e (above path) child.root none) := by
    rw [frame₂ x fun hyp => hxp (above_mem_pathHandles hyp),
      frame₁ x fun hyc => hxc (root_mem_handles hyc), hself]
  -- The slot is freed.
  have hk := k₁.trans k₂
  have hlive₂ : 0 < t₂.nodes.live := by rwa [hk.nodes.live]
  obtain ⟨nodes, e₃, htaken⟩ := (hwf.kept hk.nodes).take hself₂ hlive₂
  refine ⟨{ t₂ with nodes }, ?_, ⟨?_, ?_, ?_, fun y hy => ?_⟩, hk.freed ⟨⟨rfl, rfl, rfl⟩,
    htaken.wellFormed, htaken.slotSize, htaken.live, htaken.capacity, htaken.size⟩⟩
  · rw [Tree.splice, node_eq hself]
    simp only [ok_bind, left_orElse_right, Node.parent_branch, e₁, e₂, e₃, pure_eq_ok]
  · rw [root_plug]
    exact r₂
  · refine linked_plug_iff.mpr ⟨hchild₂.congr fun y hy => ?_, hpath₂.congr fun y hy => ?_⟩
    · exact htaken.get?_ne y (ne_of_mem_of_not_mem hy hxc)
    · exact htaken.get?_ne y (ne_of_mem_of_not_mem hy hxp)
  · rw [nodup_plug_iff, List.nodup_append]
    exact ⟨hcn, hpn, hcp⟩
  · have hyx : y ≠ x := by
      rintro rfl
      have hnone : nodes.get? y = none := htaken.get?_self
      rw [show nodes.get? y = none from hnone] at hy
      cases hy
    have hlive : (tree.nodes.get? y).isSome := by
      rw [← hk.nodes.isSome_get? y, ← htaken.get?_ne y hyx]
      exact hy
    have hmem := handles_plug_branch_perm.mem_iff.mp (h.covers y hlive)
    simp only [handles_absent, List.append_nil, List.mem_cons, List.mem_append] at hmem
    exact mem_handles_plug.mpr (hmem.resolve_left hyx)

/-! ### The node to splice out -/

/-- A node below the right child of another one is in another slot. -/
theorem ne_of_below {l : Shape} {p : List Frame} {cy : Color}
    (h : tree.HasShape
      (plug path (branch .left c x ex l (plug p (branch .left cy y ey a b))))) : x ≠ y := by
  rintro rfl
  rw [plug_below] at h
  refine h.root_notMem root_branch (mem_pathHandles (f := ⟨.right, c, x, ex, l⟩) ?_)
  exact List.mem_append_right p List.mem_cons_self

/-- The entries of two nodes exchanged, the second of them below the first one's right child. -/
private theorem swapEntries {l : Shape} {p : List Frame} {cy : Color}
    (h : tree.HasShape
      (plug path (branch .left c x ex l (plug p (branch .left cy y ey a b))))) :
    ∃ after, tree.swapEntries x y = .ok after ∧ tree.Relinked after ∧
      after.HasShape
        (plug path (branch .left c x ey l (plug p (branch .left cy y ex a b)))) := by
  have hx := h.get?_branch
  have hplace := h
  rw [plug_below] at hplace
  have hy := hplace.get?_branch
  have hxy : x ≠ y := h.ne_of_below
  let swapped : Tree := tree.revise x fun _ =>
    Node.branch .left c ey (above path) l.root (plug p (branch .left cy y ey a b)).root
  have h₁ : swapped.HasShape
      (plug path (branch .left c x ey l (plug p (branch .left cy y ey a b)))) := h.revise rfl
  rw [plug_below] at h₁
  have h₂ : (swapped.revise y fun _ =>
      Node.branch .left cy ex (above (p ++ ⟨.right, c, x, ex, l⟩ :: path)) a.root b.root).HasShape
        (plug (p ++ ⟨.right, c, x, ey, l⟩ :: path) (branch .left cy y ex a b)) :=
    h₁.revise (by cases p <;> rfl)
  rw [← plug_below] at h₂
  refine ⟨_, ?_, (Relinked.revise tree x _).trans (.revise _ y _), h₂⟩
  rw [Tree.swapEntries, Arena.modifyPair_eq_revise hxy hx hy]
  rfl

/-- The entry at a node with two children, brought to the node of the entry that follows. -/
private theorem isolate_of_children {l : Shape} {p : List Frame} {cy : Color} (hl : l ≠ absent)
    (hp : ∀ f ∈ p, f.side = .left)
    (h : tree.HasShape
      (plug path (branch .left c x e l (plug p (branch .left cy y ey absent b))))) :
    ∃ after, tree.isolate x = .ok (y, some x, after) ∧ tree.Relinked after ∧
      after.HasShape
        (plug path (branch .left c x ey l (plug p (branch .left cy y e absent b)))) := by
  obtain ⟨z, hz⟩ := exists_root_plug p .left cy y ey absent b
  obtain ⟨w, hw⟩ := exists_root hl
  have hright : tree.HasShape
      (plug (⟨.right, c, x, e, l⟩ :: path) (plug p (branch .left cy y ey absent b))) := h
  obtain ⟨y', hextreme, hhead⟩ := hright.extreme .left hz
  have hfirst : (plug p (branch .left cy y ey absent b)).toward Side.left.other =
      (y, ey) :: (b.toward .right ++ beyond .right p) := by
    have hnil : beyond Side.right.other p = [] := beyond_eq_nil hp
    rw [Side.other, toward_plug, hnil]
    simp [branch, inorder]
  obtain rfl : y = y' := by
    rw [hfirst] at hhead
    simpa using hhead
  obtain ⟨after, hswap, hk, hafter⟩ := h.swapEntries
  refine ⟨after, ?_, hk, hafter⟩
  rw [Tree.isolate, h.node_of_place]
  simp only [ok_bind, Node.branch, hz, hw, hextreme, hswap, pure_eq_ok]

/-- The entry to remove, brought to a node with at most one child. -/
theorem isolate (h : tree.HasShape s) {site : Excision} (hx : Excises x s site) :
    ∃ after, tree.isolate x = .ok (site.target, site.next, after) ∧ tree.Relinked after ∧
      after.HasShape (plug site.path
        (branch site.side site.color site.target site.entry site.child absent)) := by
  cases hx with
  | noLeft path c e r =>
    have hforward : (plug path (branch .left c x e absent r)).toward .right =
        pathBefore path ++ (x, e) :: (r.inorder ++ pathAfter path) :=
      (inorder_plug_branch path c x e absent r).trans (by simp [inorder])
    refine ⟨tree, ?_, .refl tree, h⟩
    rw [Tree.isolate, h.node_of_place, ok_bind, successor, h.neighbor hforward]
    rfl
  | noRight path c e l =>
    have hforward : (plug path (branch .left c x e l absent)).toward .right =
        (pathBefore path ++ l.inorder) ++ (x, e) :: pathAfter path :=
      inorder_plug_branch path c x e l absent
    refine ⟨tree, ?_, .refl tree, h⟩
    rw [Tree.isolate, h.node_of_place, ok_bind, successor, h.neighbor hforward]
    cases l <;> rfl
  | both path c e l hl p hp cy y ey b =>
    obtain ⟨after, heq, hk, hafter⟩ := h.isolate_of_children hl hp
    rw [plug_below] at hafter
    exact ⟨after, heq, hk, hafter⟩

end HasShape

/-! ### The operation -/

/-- The memory after the two blocks of an entry went back depends on the lengths alone. -/
theorem Akin.releaseBlocks_eq [Allocator α] (h : Akin tree after) (memory : α) :
    after.releaseBlocks memory = tree.releaseBlocks memory := by
  rw [releaseBlocks, releaseBlocks, h.keyLayout, h.valueLayout]

namespace Sound

/-- A removal that splices out the node at a site. -/
theorem removeAt_of_excises [Allocator α] {site : Excision} (h : tree.Sound s vacant)
    (hx : Excises x s site) (memory : α) :
    ∃ after, tree.removeAt memory x =
        .ok (⟨site.entry, site.next⟩, after, tree.releaseBlocks memory) ∧
      after.Sound (without site.path site.color site.child) (site.target :: vacant) ∧
      Akin tree after ∧ after.nodes.capacity = tree.nodes.capacity := by
  obtain ⟨y, next, e, path, side, c, child⟩ := site
  obtain ⟨t₁, e₁, k₁, h₁⟩ := h.hasShape.isolate hx
  obtain ⟨n, hn, hfits⟩ := hx.balanced h.balanced h.black
  have hremoves := hx.removes
  dsimp only at e₁ h₁ hn hfits hremoves ⊢
  have hwf := h.wellFormed.kept k₁.nodes
  have hlive : 0 < t₁.nodes.live := by
    rw [k₁.nodes.live, h.live_eq]
    have hlength := hremoves.length
    rw [Shape.size]
    omega
  obtain ⟨t₂, e₂, h₂, f₂⟩ := h₁.splice hwf hlive
  have hfreed : tree.Freed vacant y t₂ := k₁.freed f₂
  -- The colour rules are restored, if they have to be.
  obtain ⟨t₃, e₃, k₃, h₃⟩ : ∃ t₃, (match c with
      | .red => pure t₂
      | .black => t₂.repairRemove child.root (above path)) = Except.ok t₃ ∧ t₂.Relinked t₃ ∧
        t₃.HasShape (without path c child) := by
    cases c with
    | red => exact ⟨t₂, rfl, .refl t₂, h₂⟩
    | black =>
      obtain ⟨rfl, hlacking⟩ := hn.lacking
      have hlength : path.length ≤ t₂.nodes.slots.size := Nat.le_of_lt_succ h₂.length_path_lt
      exact h₂.repairRemove hlacking hfits hlength
  have hfreed' := hfreed.relinked k₃
  obtain ⟨hblack, hbal⟩ := hn.without hfits
  refine ⟨t₃, ?_, ?_, hfreed'.akin, hfreed'.capacity⟩
  · rw [Tree.removeAt, e₁]
    simp only [ok_bind, e₂, HasShape.left_orElse_right, Node.color_branch, Node.parent_branch,
      Node.entry_branch]
    cases c <;> simp only [e₃, ok_bind, pure_eq_ok, hfreed'.akin.releaseBlocks_eq]
  · obtain ⟨pre, post, hbefore, hafter⟩ := hremoves.split
    have hentries : s.entries = pre.map Prod.snd ++ e :: post.map Prod.snd := by
      simp [Shape.entries, hbefore]
    have hrest : (without path c child).entries = pre.map Prod.snd ++ post.map Prod.snd := by
      rw [Shape.entries, inorder_without, hafter]
    refine h.ofAkin hfreed'.akin h₃ hblack hbal hfreed'.wellFormed ?_ hfreed'.slotSize ?_ ?_
    · have hlength := hremoves.length
      have hlive' := hfreed'.live
      rw [h.live_eq] at hlive'
      rw [Shape.size] at hlive' ⊢
      rw [inorder_without]
      omega
    · intro e' he'
      refine h.admits e' ?_
      rw [hentries]
      rw [hrest] at he'
      simp only [List.mem_append, List.mem_cons] at he' ⊢
      tauto
    · intro ho
      have hascending := h.ordered ho
      rw [hentries] at hascending
      rw [hrest]
      exact hascending.removed

/-- A removal of an entry that is there. -/
theorem removeAt [Allocator α] (h : tree.Sound s vacant) (hx : x ∈ s.handles) (memory : α) :
    ∃ e next freed after t,
      tree.removeAt memory x = .ok (⟨e, next⟩, after, tree.releaseBlocks memory) ∧
      after.Sound t (freed :: vacant) ∧ Akin tree after ∧
      Removes x e s.inorder freed next t.inorder ∧
      after.nodes.capacity = tree.nodes.capacity := by
  obtain ⟨site, hsite⟩ := exists_excises hx
  obtain ⟨after, heq, hafter, hk, hcapacity⟩ := h.removeAt_of_excises hsite memory
  refine ⟨site.entry, site.next, site.target, after, _, heq, hafter, hk, ?_, hcapacity⟩
  rw [inorder_without]
  exact hsite.removes

end Sound

end Tree

end MeteredMap
