import Mathlib.Data.List.Nodup
import MeteredMap.Tree.Node

/-!
# Shapes

The tree that the links of a slot table spell out, as a tree in its own right: nodes with their
handles, colours and entries, nested as the child links lead. What the operations of a map do to
links is stated and proved as what they do to shapes.

A place inside a shape is a *path*: the frames that are passed on the way up from the place to
the root, the nearest one first. A frame is a node without the child through which the way goes,
and `plug` puts a shape into the place that a path leads to.

## Main definitions

* `MeteredMap.Shape` : trees of nodes with handles.
* `MeteredMap.Shape.branch` : a node by the side of its first child, so that the two mirrored forms
  of a rotation or a repair are one.
* `MeteredMap.Shape.inorder`, `MeteredMap.Shape.handles`, `MeteredMap.Shape.entries` : the nodes in
  order.
* `MeteredMap.Frame`, `MeteredMap.Shape.plug` : paths and the shapes around them.

## Main results

* `MeteredMap.Shape.inorder_plug` : the order around a place.
* `MeteredMap.Shape.handles_plug_perm` : the handles around a place, each as often as it occurs.
-/

namespace MeteredMap

/-- Nodes with their handles, nested as their child links lead. -/
inductive Shape where
  | absent
  | node (color : Color) (handle : Handle) (entry : Entry) (left right : Shape)

namespace Shape

/-- The handle of the uppermost node. -/
def root : Shape → Option Handle
  | absent => none
  | node _ handle .. => some handle

/-- The colour of the uppermost node. What is absent counts as black. -/
def color : Shape → Color
  | absent => .black
  | node color .. => color

/-- The shape with its uppermost node in another colour. -/
def recolor (color : Color) : Shape → Shape
  | absent => absent
  | node _ handle entry left right => node color handle entry left right

/-- The node with `near` below it on `side` and `far` on the other side. -/
def branch (side : Side) (color : Color) (handle : Handle) (entry : Entry) (near far : Shape) :
    Shape :=
  match side with
  | .left => node color handle entry near far
  | .right => node color handle entry far near

/-- The nodes in order, each with its handle and its entry. -/
def inorder : Shape → List (Handle × Entry)
  | absent => []
  | node _ handle entry left right => left.inorder ++ (handle, entry) :: right.inorder

/-- The handles in order. -/
def handles (shape : Shape) : List Handle :=
  shape.inorder.map Prod.fst

/-- The entries in order. -/
def entries (shape : Shape) : List Entry :=
  shape.inorder.map Prod.snd

/-- The number of nodes. -/
def size (shape : Shape) : Nat :=
  shape.inorder.length

/-- The number of nodes on the longest way down. -/
def height : Shape → Nat
  | absent => 0
  | node _ _ _ left right => max left.height right.height + 1

variable {side : Side} {c c' : Color} {x : Handle} {e : Entry} {a b s : Shape}

/-! ### Branches -/

@[simp] theorem branch_other : branch side.other c x e a b = branch side c x e b a := by
  cases side <;> rfl

@[simp] theorem root_branch : (branch side c x e a b).root = some x := by
  cases side <;> rfl

@[simp] theorem color_branch : (branch side c x e a b).color = c := by
  cases side <;> rfl

@[simp] theorem recolor_branch :
    (branch side c x e a b).recolor c' = branch side c' x e a b := by
  cases side <;> rfl

@[simp] theorem root_recolor : (s.recolor c).root = s.root := by
  cases s <;> rfl

@[simp] theorem inorder_recolor : (s.recolor c).inorder = s.inorder := by
  cases s <;> rfl

theorem recolor_color : s.recolor s.color = s := by
  cases s <;> rfl

/-- Every shape is absent or a branch, for a side of choice. -/
theorem absent_or_branch (side : Side) (s : Shape) :
    s = absent ∨ ∃ x e a b, s = branch side s.color x e a b := by
  cases s with
  | absent => exact Or.inl rfl
  | node c x e l r =>
    right
    cases side
    · exact ⟨x, e, l, r, rfl⟩
    · exact ⟨x, e, r, l, rfl⟩

/-- A shape with an uppermost node is a branch there, for a side of choice. -/
theorem exists_branch_of_root (side : Side) (h : s.root = some x) :
    ∃ e a b, s = branch side s.color x e a b := by
  rcases absent_or_branch side s with hs | ⟨y, e, a, b, hs⟩
  · rw [hs] at h
    cases h
  · rw [hs, root_branch] at h
    cases h
    exact ⟨e, a, b, hs⟩

/-- A red shape is a branch, for a side of choice. -/
theorem exists_branch_of_red (side : Side) (h : s.color = .red) :
    ∃ x e a b, s = branch side .red x e a b := by
  rcases absent_or_branch side s with hs | ⟨x, e, a, b, hs⟩
  · rw [hs] at h
    cases h
  · exact ⟨x, e, a, b, by rw [hs, h]⟩

/-! ### Order -/

/-- Two lists with an element between them, the first one on `side` of it. -/
def arrange {α : Type} (side : Side) (near : List α) (middle : α) (far : List α) : List α :=
  match side with
  | .left => near ++ middle :: far
  | .right => far ++ middle :: near

theorem inorder_branch :
    (branch side c x e a b).inorder = arrange side a.inorder (x, e) b.inorder := by
  cases side <;> rfl

/-- A rotation keeps the order. -/
theorem inorder_rotate {cx cy : Color} {x y : Handle} {ex ey : Entry} {a b d : Shape} :
    (branch side cy y ey (branch side cx x ex a b) d).inorder =
      (branch side cx x ex a (branch side cy y ey b d)).inorder := by
  cases side <;> simp [branch, inorder]

@[simp] theorem handles_absent : absent.handles = [] := rfl

@[simp] theorem handles_recolor : (s.recolor c).handles = s.handles := by
  simp [handles]

theorem handles_branch : (branch side c x e a b).handles = arrange side a.handles x b.handles := by
  cases side <;> simp [handles, branch, inorder, arrange]

theorem handles_branch_perm :
    (branch side c x e a b).handles.Perm (x :: (a.handles ++ b.handles)) := by
  rw [handles_branch]
  cases side
  · exact List.perm_middle
  · exact List.perm_middle.trans (List.perm_append_comm.cons x)

@[simp] theorem mem_handles_branch {y : Handle} :
    y ∈ (branch side c x e a b).handles ↔ y = x ∨ y ∈ a.handles ∨ y ∈ b.handles := by
  rw [handles_branch_perm.mem_iff, List.mem_cons, List.mem_append]

theorem mem_handles_node {y : Handle} :
    y ∈ (node c x e a b).handles ↔ y = x ∨ y ∈ a.handles ∨ y ∈ b.handles :=
  show y ∈ (branch .left c x e a b).handles ↔ _ from mem_handles_branch

theorem root_mem_handles (h : s.root = some x) : x ∈ s.handles := by
  obtain ⟨e, a, b, hs⟩ := exists_branch_of_root .left h
  rw [hs, mem_handles_branch]
  exact Or.inl rfl

theorem length_handles : s.handles.length = s.size :=
  List.length_map ..

@[simp] theorem size_absent : absent.size = 0 := rfl

theorem size_branch : (branch side c x e a b).size = a.size + b.size + 1 := by
  rw [← length_handles, handles_branch_perm.length_eq, List.length_cons, List.length_append,
    length_handles, length_handles]

theorem size_node : (node c x e a b).size = a.size + b.size + 1 :=
  show (branch .left c x e a b).size = _ from size_branch

end Shape

/-! ### Paths -/

/-- A node on the way from a place up to the root, without the child on `side`, through which the
way goes. -/
structure Frame where
  /-- The side of the missing child. -/
  side : Side
  color : Color
  handle : Handle
  entry : Entry
  /-- What is below the node on the other side. -/
  aside : Shape

namespace Frame

/-- The node with its missing child put in. -/
def fill (frame : Frame) (s : Shape) : Shape :=
  .branch frame.side frame.color frame.handle frame.entry s frame.aside

/-- The nodes that come before a frame's missing child, in order. -/
def before (frame : Frame) : List (Handle × Entry) :=
  match frame.side with
  | .left => []
  | .right => frame.aside.inorder ++ [(frame.handle, frame.entry)]

/-- The nodes that come after a frame's missing child, in order. -/
def after (frame : Frame) : List (Handle × Entry) :=
  match frame.side with
  | .left => (frame.handle, frame.entry) :: frame.aside.inorder
  | .right => []

theorem inorder_fill (frame : Frame) (s : Shape) :
    (frame.fill s).inorder = frame.before ++ s.inorder ++ frame.after := by
  obtain ⟨side, c, x, e, aside⟩ := frame
  cases side <;> simp [fill, before, after, Shape.branch, Shape.inorder]

end Frame

namespace Shape

/-- The node right above the place of a path. -/
def above (path : List Frame) : Option Handle :=
  path.head?.map Frame.handle

/-- The handles on a path and beside it. -/
def pathHandles : List Frame → List Handle
  | [] => []
  | f :: path => f.handle :: (f.aside.handles ++ pathHandles path)

/-- The shape in the place of a path, together with all around it. -/
def plug : List Frame → Shape → Shape
  | [], s => s
  | f :: path, s => plug path (f.fill s)

/-- The nodes before the place of a path, in order. -/
def pathBefore : List Frame → List (Handle × Entry)
  | [] => []
  | f :: path => pathBefore path ++ f.before

/-- The nodes after the place of a path, in order. -/
def pathAfter : List Frame → List (Handle × Entry)
  | [] => []
  | f :: path => f.after ++ pathAfter path

@[simp] theorem above_nil : above [] = none := rfl

@[simp] theorem above_cons (f : Frame) (path : List Frame) : above (f :: path) = some f.handle :=
  rfl

/-- The order around a place. -/
theorem inorder_plug (path : List Frame) (s : Shape) :
    (plug path s).inorder = pathBefore path ++ s.inorder ++ pathAfter path := by
  induction path generalizing s with
  | nil => simp [plug, pathBefore, pathAfter]
  | cons f path ih => simp [plug, pathBefore, pathAfter, ih, Frame.inorder_fill]

/-- The order around the node at a place. -/
theorem inorder_plug_branch (path : List Frame) (c : Color) (x : Handle) (e : Entry)
    (l r : Shape) : (plug path (branch .left c x e l r)).inorder =
      (pathBefore path ++ l.inorder) ++ (x, e) :: (r.inorder ++ pathAfter path) := by
  simp [inorder_plug, branch, inorder]

/-- The handles around a place, each as often as it occurs. -/
theorem handles_plug_perm (path : List Frame) (s : Shape) :
    (plug path s).handles.Perm (s.handles ++ pathHandles path) := by
  induction path generalizing s with
  | nil => simp [plug, pathHandles]
  | cons f path ih =>
    refine (ih (f.fill s)).trans ?_
    refine (handles_branch_perm.append_right (pathHandles path)).trans ?_
    simpa [pathHandles, List.append_assoc] using (List.perm_middle (a := f.handle)).symm

theorem mem_handles_plug {path : List Frame} {s : Shape} {x : Handle} :
    x ∈ (plug path s).handles ↔ x ∈ s.handles ∨ x ∈ pathHandles path := by
  rw [(handles_plug_perm path s).mem_iff, List.mem_append]

theorem nodup_plug_iff {path : List Frame} {s : Shape} :
    (plug path s).handles.Nodup ↔ (s.handles ++ pathHandles path).Nodup :=
  (handles_plug_perm path s).nodup_iff

theorem handles_plug_branch_perm {path : List Frame} {side : Side} {c : Color} {x : Handle}
    {e : Entry} {a b : Shape} :
    (plug path (branch side c x e a b)).handles.Perm
      (x :: (a.handles ++ b.handles ++ pathHandles path)) :=
  (handles_plug_perm path _).trans (handles_branch_perm.append_right _)

theorem nodup_branch_iff {path : List Frame} {side : Side} {c : Color} {x : Handle} {e : Entry}
    {a b : Shape} :
    (plug path (branch side c x e a b)).handles.Nodup ↔
      (x :: (a.handles ++ b.handles ++ pathHandles path)).Nodup :=
  handles_plug_branch_perm.nodup_iff

theorem size_plug (path : List Frame) (s : Shape) :
    (plug path s).size = s.size + (pathHandles path).length := by
  rw [← length_handles, (handles_plug_perm path s).length_eq, List.length_append, length_handles]

theorem length_le_pathHandles (path : List Frame) : path.length ≤ (pathHandles path).length := by
  induction path with
  | nil => exact Nat.le_refl 0
  | cons f path ih =>
    simp only [pathHandles, List.length_cons, List.length_append]
    omega

theorem mem_pathHandles {f : Frame} {path : List Frame} (h : f ∈ path) :
    f.handle ∈ pathHandles path := by
  induction path with
  | nil => cases h
  | cons g path ih =>
    rcases List.mem_cons.mp h with rfl | h
    · exact List.mem_cons_self
    · exact List.mem_cons_of_mem _ (List.mem_append_right _ (ih h))

/-- Two shapes with the same nodes in order leave the same order around a place. -/
theorem inorder_plug_congr {path : List Frame} {s t : Shape} (h : s.inorder = t.inorder) :
    (plug path s).inorder = (plug path t).inorder := by
  rw [inorder_plug, inorder_plug, h]

/-- Two shapes with the same nodes in order leave the same handles around a place. -/
theorem handles_plug_congr {path : List Frame} {s t : Shape} (h : s.inorder = t.inorder) :
    (plug path s).handles = (plug path t).handles :=
  congrArg (List.map Prod.fst) (inorder_plug_congr h)

/-- A path that goes on through the near child of a branch. -/
theorem plug_near (path : List Frame) (side : Side) (c : Color) (x : Handle) (e : Entry)
    (a b : Shape) :
    plug path (branch side c x e a b) = plug (⟨side, c, x, e, b⟩ :: path) a := rfl

/-- A path that goes on through the far child of a branch. -/
theorem plug_far (path : List Frame) (side : Side) (c : Color) (x : Handle) (e : Entry)
    (a b : Shape) :
    plug path (branch side c x e a b) = plug (⟨side.other, c, x, e, a⟩ :: path) b := by
  simp [plug, Frame.fill]

end Shape

end MeteredMap
