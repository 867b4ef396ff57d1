import MeteredMap.Proofs.Tree.Insertion
import MeteredMap.Proofs.Tree.Removal

/-!
# Renaming the handles of a shape

What is done to a shape by an insertion, a removal or a search looks at keys, colours and sides
only. It commutes with a renaming of handles, and the handles carried along are renamed.

## Main definitions

* `MeteredMap.Shape.rename`, `MeteredMap.Frame.rename` : shapes and frames with other handles.
* `MeteredMap.Drawing.rename` : a drawing with other handles.

## Main results

* `MeteredMap.Shape.locate_rename` : searches.
* `MeteredMap.Shape.repairInsert_rename`, `MeteredMap.Shape.repairRemove_rename` : repairs.
* `MeteredMap.Shape.withLeaf_rename`, `MeteredMap.Shape.without_rename` : a leaf more, a node less.
* `MeteredMap.Shape.Excises.rename` : the node that a removal splices out.
-/

namespace MeteredMap

namespace Shape

/-- The shape with every handle renamed. -/
def rename (f : Handle → Handle) : Shape → Shape
  | absent => absent
  | node c x e l r => node c (f x) e (l.rename f) (r.rename f)

end Shape

/-- The frame with every handle renamed. -/
def Frame.rename (f : Handle → Handle) (frame : Frame) : Frame :=
  { frame with handle := f frame.handle, aside := frame.aside.rename f }

namespace Shape

variable {f g : Handle → Handle} {side : Side} {c : Color} {x : Handle} {e : Entry}
  {a b s : Shape} {path : List Frame}

@[simp] theorem rename_branch :
    (branch side c x e a b).rename f = branch side c (f x) e (a.rename f) (b.rename f) := by
  cases side <;> rfl

@[simp] theorem root_rename : (s.rename f).root = s.root.map f := by
  cases s <;> rfl

@[simp] theorem color_rename : (s.rename f).color = s.color := by
  cases s <;> rfl

@[simp] theorem recolor_rename : (s.rename f).recolor c = (s.recolor c).rename f := by
  cases s <;> rfl

@[simp] theorem child_rename : (s.rename f).child side = (s.child side).rename f := by
  cases s <;> cases side <;> rfl

theorem rename_eq_absent_iff : s.rename f = absent ↔ s = absent := by
  cases s <;> simp [rename]

@[simp] theorem inorder_rename : (s.rename f).inorder = s.inorder.map (Prod.map f id) := by
  induction s with
  | absent => rfl
  | node c x e l r ihl ihr => simp [rename, inorder, ihl, ihr]

@[simp] theorem handles_rename : (s.rename f).handles = s.handles.map f := by
  simp [handles, Function.comp_def]

@[simp] theorem height_rename : (s.rename f).height = s.height := by
  induction s with
  | absent => rfl
  | node c x e l r ihl ihr => rw [rename, height, height, ihl, ihr]

/-- A renaming of the handles that occur. -/
theorem rename_congr (h : ∀ y ∈ s.handles, f y = g y) : s.rename f = s.rename g := by
  induction s with
  | absent => rfl
  | node c x e l r ihl ihr =>
    rw [rename, rename, h x (mem_handles_node.mpr (Or.inl rfl)),
      ihl fun y hy => h y (mem_handles_node.mpr (Or.inr (Or.inl hy))),
      ihr fun y hy => h y (mem_handles_node.mpr (Or.inr (Or.inr hy)))]

end Shape

/-! ### Paths -/

namespace Frame

open Shape

variable {f : Handle → Handle} {frame upper : Frame} {s t : Shape}

@[simp] theorem side_rename : (frame.rename f).side = frame.side := rfl

@[simp] theorem color_rename : (frame.rename f).color = frame.color := rfl

@[simp] theorem handle_rename : (frame.rename f).handle = f frame.handle := rfl

@[simp] theorem entry_rename : (frame.rename f).entry = frame.entry := rfl

@[simp] theorem aside_rename : (frame.rename f).aside = frame.aside.rename f := rfl

@[simp] theorem fill_rename (frame : Frame) (s : Shape) :
    (frame.rename f).fill (s.rename f) = (frame.fill s).rename f := by
  simp [fill]

/-- Raising a node looks at sides only. -/
theorem raise_rename :
    (frame.rename f).raise (upper.rename f) (s.rename f) =
      (frame.raise upper s).rename f := by
  by_cases h : frame.side = upper.side
  · have h' : (frame.rename f).side = (upper.rename f).side := h
    rw [raise_of_side_eq h, raise_of_side_eq h']
    simp
  · have h' : ¬ (frame.rename f).side = (upper.rename f).side := h
    rcases absent_or_branch upper.side s with rfl | ⟨x, e, a, b, hs⟩
    · have hfill : (frame.rename f).fill absent = (frame.fill absent).rename f :=
        fill_rename frame absent
      unfold raise
      rw [if_neg h, if_neg h']
      simp only [Shape.rename, hfill, fill_rename]
    · rw [hs, rename_branch, raise_of_side_ne h]
      exact (raise_of_side_ne h' _ _ _ _ _).trans (by simp)

/-- The end of a repair after a removal looks at colours and sides only. -/
theorem mend_rename :
    (frame.rename f).mend (s.rename f) = (frame.mend s).map (Shape.rename f) := by
  rcases absent_or_branch frame.side frame.aside with ha | ⟨y, ey, near, far, ha⟩
  · simp [mend, ha, Shape.rename]
  · have ha' : (frame.rename f).aside = branch (frame.rename f).side frame.aside.color (f y) ey
        (near.rename f) (far.rename f) := by
      rw [aside_rename, ha, rename_branch, color_branch]
      rfl
    cases hfar : far.color with
    | red =>
      rw [mend_of_far_red ha hfar, mend_of_far_red ha' (Shape.color_rename.trans hfar)]
      simp
    | black =>
      cases hnear : near.color with
      | red =>
        obtain ⟨x, ex, na, nb, rfl⟩ := exists_branch_of_red frame.side hnear
        rw [rename_branch] at ha'
        rw [mend_of_near_red ha hfar, mend_of_near_red ha' (Shape.color_rename.trans hfar)]
        simp
      | black =>
        rw [mend_of_black ha hnear hfar,
          mend_of_black ha' (Shape.color_rename.trans hnear) (Shape.color_rename.trans hfar)]
        rfl

theorem dim_rename : (frame.rename f).dim (s.rename f) = (frame.dim s).rename f := by
  simp [dim]

theorem lowered_rename : (frame.rename f).lowered = frame.lowered.rename f := by
  simp [lowered, Frame.rename]

theorem after_rename : (frame.rename f).after = frame.after.map (Prod.map f id) := by
  obtain ⟨side, c, x, e, aside⟩ := frame
  cases side
  · simp [after, Frame.rename]
  · rfl

theorem raised_rename (y : Handle) (ey : Entry) :
    (frame.rename f).raised (f y) ey = (frame.raised y ey).rename f := by
  simp [raised, Frame.rename]

end Frame

namespace Shape

variable {f g : Handle → Handle} {c : Color} {x : Handle} {e : Entry} {s child : Shape}
  {path : List Frame}

@[simp] theorem plug_rename (path : List Frame) (s : Shape) :
    plug (path.map (Frame.rename f)) (s.rename f) = (plug path s).rename f := by
  induction path generalizing s with
  | nil => rfl
  | cons frame path ih => rw [List.map_cons, plug, plug, Frame.fill_rename, ih]

/-- A renaming of the handles on and beside a path. -/
theorem map_rename_congr (h : ∀ y ∈ pathHandles path, f y = g y) :
    path.map (Frame.rename f) = path.map (Frame.rename g) := by
  induction path with
  | nil => rfl
  | cons frame path ih =>
    have hframe : frame.rename f = frame.rename g := by
      rw [Frame.rename, Frame.rename, h frame.handle List.mem_cons_self,
        rename_congr fun y hy => h y (List.mem_cons_of_mem _ (List.mem_append_left _ hy))]
    rw [List.map_cons, List.map_cons, hframe,
      ih fun y hy => h y (List.mem_cons_of_mem _ (List.mem_append_right _ hy))]

/-! ### Searches and repairs -/

/-- A search looks at keys only. -/
theorem locate_rename (compare : Blob → Blob → Ordering) (key : Blob) (path : List Frame)
    (s : Shape) :
    locate compare key (path.map (Frame.rename f)) (s.rename f) =
      ((locate compare key path s).1.map (Frame.rename f),
        (locate compare key path s).2.rename f) := by
  induction s generalizing path with
  | absent => rfl
  | node c x e l r ihl ihr =>
    rw [rename, locate, locate]
    cases compare key e.key with
    | lt => exact ihl (⟨.left, c, x, e, r⟩ :: path)
    | eq => rfl
    | gt => exact ihr (⟨.right, c, x, e, l⟩ :: path)

theorem repairInsert_rename (path : List Frame) (s : Shape) :
    repairInsert (path.map (Frame.rename f)) (s.rename f) = (repairInsert path s).rename f := by
  induction path, s using repairInsert.induct with
  | case1 s => rfl
  | case2 frame s => exact Frame.fill_rename frame s
  | case3 frame upper path s hframe =>
    simp only [List.map_cons, repairInsert, Frame.color_rename, hframe, Frame.fill_rename,
      plug_rename]
  | case4 frame upper path s hupper hframe ih =>
    simp only [List.map_cons, repairInsert, Frame.color_rename, hframe, Frame.aside_rename,
      color_rename, hupper]
    rw [← ih]
    simp
  | case5 frame upper path s hupper hframe =>
    simp only [List.map_cons, repairInsert, Frame.color_rename, hframe, Frame.aside_rename,
      color_rename, hupper, Frame.raise_rename, plug_rename]

theorem repairRemove_rename (path : List Frame) (s : Shape) :
    repairRemove (path.map (Frame.rename f)) (s.rename f) = (repairRemove path s).rename f := by
  induction path generalizing s with
  | nil => exact recolor_rename
  | cons frame path ih =>
    cases hs : s.color with
    | red =>
      have hs' : (s.rename f).color = .red := color_rename.trans hs
      rw [repairRemove_of_red hs, repairRemove_of_red hs', recolor_rename, plug_rename]
    | black =>
      have hs' : (s.rename f).color = .black := color_rename.trans hs
      rcases absent_or_branch frame.side frame.aside with ha | ⟨y, ey, near, far, ha⟩
      · have ha' : (frame.rename f).aside = absent := by rw [Frame.aside_rename, ha]; rfl
        rw [List.map_cons, repairRemove, hs', ha', repairRemove, hs, ha]
        exact plug_rename (frame :: path) s
      · have ha' : (frame.rename f).aside = branch (frame.rename f).side frame.aside.color (f y) ey
            (near.rename f) (far.rename f) := by
          rw [Frame.aside_rename, ha, rename_branch, color_branch]
          rfl
        rw [List.map_cons]
        cases hc : frame.aside.color with
        | red =>
          rw [hc] at ha ha'
          rw [repairRemove_of_red_sibling hs ha, repairRemove_of_red_sibling hs' ha',
            Frame.raised_rename, Frame.lowered_rename, Frame.mend_rename, Frame.dim_rename,
            recolor_rename]
          cases frame.lowered.mend s with
          | some t => exact plug_rename (frame.raised y ey :: path) t
          | none =>
            exact plug_rename (frame.raised y ey :: path)
              ((frame.lowered.dim s).recolor .black)
        | black =>
          rw [hc] at ha ha'
          rw [repairRemove_of_black_sibling hs ha, repairRemove_of_black_sibling hs' ha',
            Frame.mend_rename]
          cases frame.mend s with
          | some t => exact plug_rename path t
          | none =>
            rw [Option.map_none, Frame.dim_rename]
            exact ih _

/-! ### A leaf more, a node less -/

theorem withLeaf_rename (path : List Frame) (x : Handle) (e : Entry) :
    withLeaf (path.map (Frame.rename f)) (f x) e = (withLeaf path x e).rename f := by
  rw [withLeaf, withLeaf, ← recolor_rename, ← repairInsert_rename]
  rfl

theorem without_rename (path : List Frame) (c : Color) (child : Shape) :
    without (path.map (Frame.rename f)) c (child.rename f) = (without path c child).rename f := by
  cases c
  · exact plug_rename path child
  · exact repairRemove_rename path child

theorem pathAfter_rename (path : List Frame) :
    pathAfter (path.map (Frame.rename f)) = (pathAfter path).map (Prod.map f id) := by
  induction path with
  | nil => rfl
  | cons frame path ih =>
    rw [List.map_cons, pathAfter, pathAfter, ih, Frame.after_rename, List.map_append]

/-- What is spliced out, with every handle renamed. -/
def Excision.rename (f : Handle → Handle) (site : Excision) : Excision :=
  { site with
    target := f site.target
    next := site.next.map f
    path := site.path.map (Frame.rename f)
    child := site.child.rename f }

private theorem head?_map_fst (l : List (Handle × Entry)) :
    (l.map (Prod.map f id)).head?.map Prod.fst = (l.head?.map Prod.fst).map f := by
  cases l <;> rfl

/-- Which node a removal splices out depends on which children are absent. -/
theorem Excises.rename {site : Excision} (h : Excises x s site) :
    Excises (f x) (s.rename f) (site.rename f) := by
  cases h with
  | noLeft path c e r =>
    rw [← plug_rename, rename_branch, Excision.rename, ← head?_map_fst, List.map_append,
      ← pathAfter_rename, ← inorder_rename]
    exact .noLeft _ c e _
  | noRight path c e l =>
    rw [← plug_rename, rename_branch, Excision.rename, ← head?_map_fst, ← pathAfter_rename]
    exact .noRight _ c e _
  | both path c e l hl p hp cy y ey b =>
    rw [← plug_rename, rename_branch, ← plug_rename, rename_branch, Excision.rename,
      List.map_append]
    refine .both _ c e _ (mt rename_eq_absent_iff.mp hl) _ ?_ cy _ ey _
    intro frame hframe
    obtain ⟨frame, hmem, rfl⟩ := List.mem_map.mp hframe
    exact hp frame hmem

/-- A search asks the comparator the same. -/
theorem calls_visits_rename (compare : Blob → Blob → Ordering) (key : Blob) (s : Shape) :
    Visit.calls key ((s.rename f).visits compare key) = Visit.calls key (s.visits compare key) := by
  induction s with
  | absent => rfl
  | node c x e l r ihl ihr =>
    rw [rename, visits, visits]
    cases compare key e.key with
    | lt => exact congrArg (_ :: ·) ihl
    | eq => rfl
    | gt => exact congrArg (_ :: ·) ihr

end Shape

/-! ### Drawings -/

/-- The node with every link renamed. -/
def Node.rename (f : Handle → Handle) (node : Node) : Node :=
  { node with
    parent := node.parent.map f
    left := node.left.map f
    right := node.right.map f }

/-- The drawing with every handle renamed. -/
def Drawing.rename (f : Handle → Handle) : Drawing → Drawing
  | absent => absent
  | node x n l r => node (f x) (n.rename f) (l.rename f) (r.rename f)

namespace Shape

variable {f : Handle → Handle} {s t : Shape} {parent parent' : Option Handle}

theorem drawing_rename (s : Shape) (parent : Option Handle) :
    (s.rename f).drawing (parent.map f) = (s.drawing parent).rename f := by
  induction s generalizing parent with
  | absent => rfl
  | node c x e l r ihl ihr =>
    rw [rename, drawing, drawing, Drawing.rename, ← ihl, ← ihr, root_rename, root_rename]
    rfl

/-- A drawing shows the whole shape. -/
theorem eq_of_drawing_eq (h : s.drawing parent = t.drawing parent') : s = t := by
  induction s generalizing t parent parent' with
  | absent =>
    cases t with
    | absent => rfl
    | node => cases h
  | node c x e l r ihl ihr =>
    cases t with
    | absent => cases h
    | node c' x' e' l' r' =>
      rw [drawing, drawing, Drawing.node.injEq] at h
      obtain ⟨rfl, hnode, hl, hr⟩ := h
      rw [Node.mk.injEq] at hnode
      obtain ⟨rfl, rfl, -⟩ := hnode
      rw [ihl hl, ihr hr]

end Shape

end MeteredMap
