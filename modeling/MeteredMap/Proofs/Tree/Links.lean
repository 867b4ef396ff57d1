import MeteredMap.Proofs.Arena.Vacancy
import MeteredMap.Proofs.Shape.Repair
import MeteredMap.Proofs.Steps
import MeteredMap.Tree.Rotate

/-!
# Links that spell out a shape

A tree *has a shape* if the links in its slots, read from the root down, spell it out: child
links lead where the shape has children, parent links lead back, no handle occurs twice, and every
live handle occurs. Changing links is proved correct here as changing the shape.

## Main definitions

* `MeteredMap.Shape.Linked`, `MeteredMap.Shape.PathLinked` : the slots of a shape and of a path hold
  nodes with the links that the shape and the path prescribe.
* `MeteredMap.Tree.HasShape` : the links of a tree spell out a shape.
* `MeteredMap.Tree.Relinked` : nothing but the root and the nodes in occupied slots differs.

## Main results

* `MeteredMap.Shape.linked_plug_iff` : the links around a place.
* `MeteredMap.Tree.HasShape.setColor`, `MeteredMap.Tree.HasShape.rotate` : a node recoloured, and a
  rotation, anywhere in a shape.
-/

namespace MeteredMap

/-! ### Nodes by side -/

namespace Node

/-- The node with the child `near` on `side` and the child `far` on the other side. -/
def branch (side : Side) (color : Color) (entry : Entry) (parent near far : Option Handle) : Node :=
  match side with
  | .left => { entry, color, parent, left := near, right := far }
  | .right => { entry, color, parent, left := far, right := near }

/-- The node with another parent link. -/
def reparent (parent : Option Handle) (node : Node) : Node :=
  { node with parent }

/-- The node in another colour. -/
def recolor (color : Color) (node : Node) : Node :=
  { node with color }

variable {side : Side} {c c' : Color} {e : Entry} {p p' a a' b b' : Option Handle}

@[simp] theorem branch_other : branch side.other c e p a b = branch side c e p b a := by
  cases side <;> rfl

@[simp] theorem child_branch_self : (branch side c e p a b).child side = a := by
  cases side <;> rfl

@[simp] theorem child_branch_other : (branch side c e p a b).child side.other = b := by
  cases side <;> rfl

@[simp] theorem parent_branch : (branch side c e p a b).parent = p := by
  cases side <;> rfl

@[simp] theorem color_branch : (branch side c e p a b).color = c := by
  cases side <;> rfl

@[simp] theorem entry_branch : (branch side c e p a b).entry = e := by
  cases side <;> rfl

@[simp] theorem withChild_branch_self :
    (branch side c e p a b).withChild side a' = branch side c e p a' b := by
  cases side <;> rfl

@[simp] theorem withChild_branch_other :
    (branch side c e p a b).withChild side.other b' = branch side c e p a b' := by
  cases side <;> rfl

@[simp] theorem reparent_branch : (branch side c e p a b).reparent p' = branch side c e p' a b := by
  cases side <;> rfl

@[simp] theorem recolor_branch : (branch side c e p a b).recolor c' = branch side c' e p a b := by
  cases side <;> rfl

end Node

/-! ### Linked shapes and paths -/

namespace Shape

/-- Every node of the shape lies in its slot, with the links that the shape prescribes, below
`parent`. -/
def Linked (look : Handle → Option Node) : Option Handle → Shape → Prop
  | _, absent => True
  | parent, node color x entry left right =>
    look x = some { entry, color, parent, left := left.root, right := right.root } ∧
      left.Linked look (some x) ∧ right.Linked look (some x)

/-- Every node on the path and beside it lies in its slot, with the links that the path
prescribes, where `hole` is the node in the place of the path. -/
def PathLinked (look : Handle → Option Node) : List Frame → Option Handle → Prop
  | [], _ => True
  | f :: path, hole =>
    look f.handle =
        some (Node.branch f.side f.color f.entry (above path) hole f.aside.root) ∧
      f.aside.Linked look (some f.handle) ∧ PathLinked look path (some f.handle)

/-- The uppermost node, where `hole` is the node in the place of a path. -/
def rootAbove : List Frame → Option Handle → Option Handle
  | [], hole => hole
  | f :: path, _ => rootAbove path (some f.handle)

variable {look look' : Handle → Option Node} {side : Side} {c : Color} {x : Handle} {e : Entry}
  {a b s : Shape} {p hole : Option Handle} {path : List Frame}

theorem linked_branch_iff : (branch side c x e a b).Linked look p ↔
    look x = some (Node.branch side c e p a.root b.root) ∧ a.Linked look (some x) ∧
      b.Linked look (some x) := by
  cases side
  · exact Iff.rfl
  · simp only [branch, Linked, Node.branch, and_comm (a := a.Linked look (some x))]

theorem Linked.congr (h : s.Linked look p) (heq : ∀ y ∈ s.handles, look' y = look y) :
    s.Linked look' p := by
  induction s generalizing p with
  | absent => exact trivial
  | node c x e l r ihl ihr =>
    have hmem : ∀ y, y ∈ (node c x e l r).handles ↔ y = x ∨ y ∈ l.handles ∨ y ∈ r.handles :=
      fun y => mem_handles_node
    obtain ⟨hx, hl, hr⟩ := h
    refine ⟨?_, ihl hl fun y hy => ?_, ihr hr fun y hy => ?_⟩
    · rw [heq x ((hmem x).mpr (Or.inl rfl)), hx]
    · exact heq y ((hmem y).mpr (Or.inr (Or.inl hy)))
    · exact heq y ((hmem y).mpr (Or.inr (Or.inr hy)))

theorem PathLinked.congr (h : PathLinked look path hole)
    (heq : ∀ y ∈ pathHandles path, look' y = look y) : PathLinked look' path hole := by
  induction path generalizing hole with
  | nil => exact trivial
  | cons f path ih =>
    obtain ⟨hf, ha, hp⟩ := h
    simp only [pathHandles, List.mem_cons, List.mem_append] at heq
    refine ⟨?_, ha.congr fun y hy => heq y (Or.inr (Or.inl hy)),
      ih hp fun y hy => heq y (Or.inr (Or.inr hy))⟩
    rw [heq f.handle (Or.inl rfl), hf]

/-- The links around a place. -/
theorem linked_plug_iff : (plug path s).Linked look none ↔
    s.Linked look (above path) ∧ PathLinked look path s.root := by
  induction path generalizing s with
  | nil => simp [plug, PathLinked]
  | cons f path ih =>
    rw [plug, ih, Frame.fill, linked_branch_iff, root_branch]
    simp only [PathLinked, above_cons]
    tauto

/-- The node on top of what is in a place. -/
theorem Linked.look_branch (h : (plug path (branch side c x e a b)).Linked look none) :
    look x = some (Node.branch side c e (above path) a.root b.root) :=
  (linked_branch_iff.mp (linked_plug_iff.mp h).1).1

theorem root_plug : (plug path s).root = rootAbove path s.root := by
  induction path generalizing s with
  | nil => rfl
  | cons f path ih => rw [plug, ih, Frame.fill, root_branch, rootAbove]

theorem exists_rootAbove_cons (f : Frame) (path : List Frame) (hole : Option Handle) :
    ∃ x, rootAbove (f :: path) hole = some x ∧ x ∈ pathHandles (f :: path) := by
  induction path generalizing f hole with
  | nil => exact ⟨f.handle, rfl, List.mem_cons_self⟩
  | cons g path ih =>
    obtain ⟨x, hx, hmem⟩ := ih g (some f.handle)
    exact ⟨x, hx, List.mem_cons_of_mem _ (List.mem_append_right _ hmem)⟩

/-- A node that is there lies in its slot. -/
theorem Linked.exists_of_mem (h : s.Linked look p) (hx : x ∈ s.handles) :
    ∃ node, look x = some node := by
  induction s generalizing p with
  | absent => cases hx
  | node c y e l r ihl ihr =>
    obtain ⟨hy, hl, hr⟩ := h
    rcases mem_handles_node.mp hx with rfl | hx | hx
    · exact ⟨_, hy⟩
    · exact ihl hl hx
    · exact ihr hr hx

end Shape

/-! ### Trees with a shape -/

namespace Tree

/-- The tree with the node at a handle changed, if the handle is live. -/
def revise (tree : Tree) (handle : Handle) (change : Node → Node) : Tree :=
  { tree with nodes := tree.nodes.revise handle change }

variable {tree before middle after : Tree} {x : Handle} {n : Node}

theorem update_eq_revise (change : Node → Node) (h : tree.nodes.get? x = some n) :
    tree.update x change = .ok (tree.revise x change) := by
  unfold update
  rw [Arena.modify_eq_revise change h]
  rfl

theorem node_eq (h : tree.nodes.get? x = some n) : tree.node x = .ok n :=
  Arena.get_eq_ok_iff.mpr h

/-- A node whose other child differs has a child on the side where it is found by comparing. -/
theorem side_of_child {side : Side} {c : Color} {e : Entry} {p hole far : Option Handle}
    (h : far ≠ hole) :
    (if (Node.branch side c e p hole far).left = hole then Side.left else Side.right) = side := by
  cases side <;> simp [Node.branch, h]

/-- Nothing but the root and the nodes in occupied slots differs. -/
structure Relinked (before after : Tree) : Prop where
  nodes : before.nodes.Kept after.nodes
  keyLayout : after.keyLayout = before.keyLayout
  valueLayout : after.valueLayout = before.valueLayout
  comparator : after.comparator = before.comparator

theorem Relinked.refl (tree : Tree) : Relinked tree tree :=
  ⟨.refl _, rfl, rfl, rfl⟩

theorem Relinked.trans (h : Relinked before middle) (h' : Relinked middle after) :
    Relinked before after :=
  ⟨h.nodes.trans h'.nodes, h'.keyLayout.trans h.keyLayout, h'.valueLayout.trans h.valueLayout,
    h'.comparator.trans h.comparator⟩

theorem Relinked.revise (tree : Tree) (x : Handle) (change : Node → Node) :
    Relinked tree (tree.revise x change) :=
  ⟨.revise _ _ _, rfl, rfl, rfl⟩

theorem Relinked.setRoot (tree : Tree) (root : Option Handle) :
    Relinked tree { tree with root } :=
  ⟨.refl _, rfl, rfl, rfl⟩

/-- All that changing the node at a live handle does. -/
theorem update_linked (change : Node → Node) (h : tree.nodes.get? x = some n) :
    ∃ after, tree.update x change = .ok after ∧ tree.Relinked after ∧ after.root = tree.root ∧
      after.nodes.get? x = some (change n) ∧
      ∀ z, z ≠ x → after.nodes.get? z = tree.nodes.get? z := by
  refine ⟨_, update_eq_revise change h, .revise _ _ _, rfl, ?_, fun z hz => ?_⟩
  · rw [revise, Arena.get?_revise_self, h, Option.map_some]
  · exact Arena.get?_revise_ne change hz

/-- The links of the tree spell out the shape. -/
structure HasShape (tree : Tree) (shape : Shape) : Prop where
  root_eq : tree.root = shape.root
  linked : shape.Linked tree.nodes.get? none
  nodup : shape.handles.Nodup
  covers : ∀ x, (tree.nodes.get? x).isSome → x ∈ shape.handles

namespace HasShape

open Shape

variable {side : Side} {c c' cx cy : Color} {x y : Handle} {e ex ey : Entry} {a b s t : Shape}
  {path : List Frame} {hole : Option Handle}

/-- The handles of a shape are exactly the live ones. -/
theorem mem_handles_iff (h : tree.HasShape s) :
    x ∈ s.handles ↔ (tree.nodes.get? x).isSome := by
  constructor
  · intro hx
    obtain ⟨n, hn⟩ := h.linked.exists_of_mem hx
    rw [hn]
    rfl
  · exact h.covers x

/-- The node on top of what is in a place. -/
theorem get?_branch (h : tree.HasShape (plug path (branch side c x e a b))) :
    tree.nodes.get? x = some (Node.branch side c e (above path) a.root b.root) :=
  h.linked.look_branch

/-- The node right above a place. -/
theorem get?_frame {f : Frame} (h : tree.HasShape (plug (f :: path) s)) :
    tree.nodes.get? f.handle =
      some (Node.branch f.side f.color f.entry (above path) s.root f.aside.root) :=
  (linked_plug_iff.mp h.linked).2.1

theorem colorAt_root (h : tree.HasShape (plug path s)) : tree.colorAt s.root = .ok s.color := by
  rcases absent_or_branch .left s with hs | ⟨x, e, a, b, hs⟩
  · rw [hs]
    rfl
  · rw [hs] at h ⊢
    rw [root_branch, colorAt, node_eq h.get?_branch]
    simp

/-- The node on top of what is in a place has the place's frame as its parent. -/
theorem exists_get?_root (h : tree.HasShape (plug path s)) (hroot : s.root = some x) :
    ∃ node, tree.nodes.get? x = some node ∧ node.parent = above path := by
  obtain ⟨e, a, b, hs⟩ := exists_branch_of_root .left hroot
  exact ⟨_, (hs ▸ h).get?_branch, Node.parent_branch⟩

/-- What is in a place is nowhere else. -/
theorem root_notMem (h : tree.HasShape (plug path s)) (hs : s.root = some x) :
    x ∉ pathHandles path := by
  intro hx
  have hnodup := nodup_plug_iff.mp h.nodup
  rw [List.nodup_append] at hnodup
  exact hnodup.2.2 x (root_mem_handles hs) x hx rfl

/-- The frame's other child is not what is in the place. -/
theorem aside_root_ne {f : Frame} (h : tree.HasShape (plug (f :: path) s))
    (hs : s.root = some x) : f.aside.root ≠ some x := fun haside =>
  h.root_notMem hs (List.mem_cons_of_mem _ (List.mem_append_left _ (root_mem_handles haside)))

/-- What is below a frame is not the root. -/
theorem root_ne {f : Frame} (h : tree.HasShape (plug (f :: path) s)) : s.root ≠ tree.root := by
  intro hroot
  obtain ⟨x, hx, hmem⟩ : ∃ x, rootAbove (f :: path) s.root = some x ∧ x ∈ pathHandles (f :: path) :=
    exists_rootAbove_cons f path s.root
  rw [h.root_eq, root_plug, hx] at hroot
  exact h.root_notMem hroot hmem

/-- Another shape with the same handles is spelled out if root and links say so. -/
theorem relinked (h : before.HasShape s) (hk : Relinked before after)
    (hhandles : t.handles.Perm s.handles) (hroot : after.root = t.root)
    (hlinked : t.Linked after.nodes.get? none) : after.HasShape t where
  root_eq := hroot
  linked := hlinked
  nodup := hhandles.nodup_iff.mpr h.nodup
  covers x hx := hhandles.mem_iff.mpr (h.covers x ((hk.nodes.isSome_get? x).mp hx))

/-- The node on top of what is in a place, changed but for its links. -/
theorem revise {e' : Entry} {change : Node → Node}
    (h : tree.HasShape (plug path (branch side c x e a b)))
    (hchange : change (Node.branch side c e (above path) a.root b.root) =
      Node.branch side c' e' (above path) a.root b.root) :
    (tree.revise x change).HasShape (plug path (branch side c' x e' a b)) := by
  have hnodup := nodup_branch_iff.mp h.nodup
  obtain ⟨hx, -⟩ := List.nodup_cons.mp hnodup
  simp only [List.mem_append, not_or] at hx
  obtain ⟨⟨hxa, hxb⟩, hxp⟩ := hx
  obtain ⟨hbranch, hpath⟩ := linked_plug_iff.mp h.linked
  obtain ⟨hself, ha, hb⟩ := linked_branch_iff.mp hbranch
  have hframe : ∀ y, y ≠ x → (tree.revise x change).nodes.get? y = tree.nodes.get? y :=
    fun y hy => Arena.get?_revise_ne change hy
  refine h.relinked (.revise tree x change) ?_ ?_ ?_
  · exact handles_plug_branch_perm.trans handles_plug_branch_perm.symm
  · have hroot : tree.root = (plug path (branch side c x e a b)).root := h.root_eq
    rw [root_plug, root_branch] at hroot ⊢
    exact hroot
  · refine linked_plug_iff.mpr ⟨linked_branch_iff.mpr ⟨?_, ?_, ?_⟩, ?_⟩
    · rw [Tree.revise, Arena.get?_revise_self, hself, Option.map_some, hchange]
    · exact ha.congr fun y hy => hframe y (ne_of_mem_of_not_mem hy hxa)
    · exact hb.congr fun y hy => hframe y (ne_of_mem_of_not_mem hy hxb)
    · rw [root_branch] at hpath ⊢
      exact hpath.congr fun y hy => hframe y (ne_of_mem_of_not_mem hy hxp)

/-- A node recoloured. -/
theorem setColor (h : tree.HasShape (plug path (branch side c x e a b))) (c' : Color) :
    ∃ after, tree.setColor x c' = .ok after ∧ tree.Relinked after ∧
      after.HasShape (plug path (branch side c' x e a b)) :=
  ⟨_, update_eq_revise (Node.recolor c') h.get?_branch, .revise _ _ _,
    h.revise Node.recolor_branch⟩

end HasShape

end Tree

end MeteredMap
