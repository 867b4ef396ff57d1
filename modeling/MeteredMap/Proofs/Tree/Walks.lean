import Mathlib.Algebra.GroupWithZero.Nat
import Mathlib.Data.List.Perm.Subperm
import MeteredMap.Iterator
import MeteredMap.Proofs.Shape.Search
import MeteredMap.Proofs.Tree.Links
import MeteredMap.Tree.Drawing

/-!
# Walks through a shape

Every walk along the links of a tree that has a shape ends, and its answer can be read off the
shape: a walk meets no node twice, and there are no more nodes than slots.

## Main results

* `MeteredMap.Tree.HasShape.extreme`, `MeteredMap.Tree.HasShape.outermost` : outermost nodes.
* `MeteredMap.Tree.HasShape.neighbor` : the next node in order.
* `MeteredMap.Tree.HasShape.height` : the height.
* `MeteredMap.Tree.HasShape.descend` : a search.
* `MeteredMap.Tree.HasShape.entries` : all entries in order.
* `MeteredMap.Tree.HasShape.drawing` : the whole tree as its links lead.
-/

namespace MeteredMap

namespace Shape

/-- The shape with the nodes as they lie in their slots, below `parent`. -/
def drawing (parent : Option Handle) : Shape → Drawing
  | absent => .absent
  | node color x entry left right =>
    .node x { entry, color, parent, left := left.root, right := right.root }
      (left.drawing (some x)) (right.drawing (some x))

variable {tree : Tree} {s : Shape} {p : Option Handle}

/-- There are no more nodes than slots. -/
theorem Linked.size_le (h : s.Linked tree.nodes.get? p) (hn : s.handles.Nodup) :
    s.size ≤ tree.nodes.slots.size := by
  have hnodup : (s.handles.map Handle.index).Nodup := by
    refine (List.nodup_map_iff_inj_on hn).mpr fun x _ y _ hindex => ?_
    by_contra hne
    exact Handle.index_ne hne hindex
  have hsub : s.handles.map Handle.index ⊆ List.range tree.nodes.slots.size := by
    intro i hi
    obtain ⟨x, hx, rfl⟩ := List.mem_map.mp hi
    obtain ⟨n, hn⟩ := h.exists_of_mem hx
    exact List.mem_range.mpr (Arena.index_lt_of_get? hn)
  have hle := (hnodup.subperm hsub).length_le
  rwa [List.length_map, length_handles, List.length_range] at hle

/-- What is found from the uppermost node down. -/
theorem Linked.drawWithin (h : s.Linked tree.nodes.get? p) {fuel : Nat} (hfuel : s.size ≤ fuel) :
    tree.drawWithin fuel s.root = .ok (s.drawing p) := by
  induction s generalizing p fuel with
  | absent =>
    rw [root, Tree.drawWithin.eq_def]
    rfl
  | node c x e l r ihl ihr =>
    obtain ⟨hx, hl, hr⟩ := h
    rw [size_node] at hfuel
    obtain ⟨fuel, rfl⟩ : ∃ k, fuel = k + 1 := ⟨fuel - 1, by omega⟩
    have hleft := ihl hl (show l.size ≤ fuel by omega)
    have hright := ihr hr (show r.size ≤ fuel by omega)
    rw [root, Tree.drawWithin, Tree.node_eq hx]
    simp only [ok_bind, hleft, hright, pure_eq_ok]
    rfl

/-- The drawing of a tree whose links lead through a shape from the root down. -/
theorem Linked.drawing_eq (h : s.Linked tree.nodes.get? none) (hn : s.handles.Nodup)
    (hroot : tree.root = s.root) : tree.drawing = .ok (s.drawing none) := by
  rw [Tree.drawing, hroot]
  exact h.drawWithin (Nat.le_succ_of_le (h.size_le hn))

end Shape

namespace Tree

open Shape

variable {tree : Tree} {side : Side} {c : Color} {x y : Handle} {e : Entry} {a b s t : Shape}
  {path : List Frame}

namespace HasShape

/-! ### Sizes -/

/-- There are no more nodes than slots. -/
theorem size_le (h : tree.HasShape s) : s.size ≤ tree.nodes.slots.size :=
  h.linked.size_le h.nodup

theorem length_path_lt (h : tree.HasShape (plug path s)) : path.length < tree.walkBound := by
  have hle := h.size_le
  rw [size_plug] at hle
  have hpath := length_le_pathHandles path
  rw [walkBound]
  omega

theorem size_lt (h : tree.HasShape (plug path s)) : s.size < tree.walkBound := by
  have hle := h.size_le
  rw [size_plug] at hle
  rw [walkBound]
  omega

/-! ### Single nodes -/

theorem node_of_place (h : tree.HasShape (plug path (branch side c x e a b))) :
    tree.node x = .ok (Node.branch side c e (above path) a.root b.root) :=
  node_eq h.get?_branch

/-- The node of an entry. -/
theorem exists_node_of_mem (h : tree.HasShape s) (hx : (x, e) ∈ s.inorder) :
    ∃ node, tree.node x = .ok node ∧ node.entry = e := by
  have hmem : x ∈ s.handles := List.mem_map.mpr ⟨(x, e), hx, rfl⟩
  obtain ⟨path, c, e', a, b, rfl⟩ := exists_plug_of_mem .right hmem
  have hx' : (x, e') ∈ (plug path (branch .right c x e' a b)).inorder := by
    rw [inorder_plug, inorder_branch]
    simp [arrange]
  obtain ⟨pre, post, hsplit⟩ := List.append_of_mem hx
  obtain ⟨pre', post', hsplit'⟩ := List.append_of_mem hx'
  obtain ⟨-, rfl, -⟩ := toward_split_unique .right h.nodup hsplit hsplit'
  exact ⟨_, h.node_of_place, Node.entry_branch⟩

/-- The entry of a node. -/
theorem entry_of_mem (h : tree.HasShape s) (hx : (x, e) ∈ s.inorder) : tree.entry x = .ok e := by
  obtain ⟨node, hnode, rfl⟩ := h.exists_node_of_mem hx
  rw [Tree.entry, hnode]
  rfl

/-! ### Outermost nodes -/

private theorem extremeWithin (h : tree.HasShape (plug path s)) (hx : s.root = some x) {fuel : Nat}
    (hfuel : s.size < fuel) :
    ∃ y, tree.extremeWithin side fuel x = .ok y ∧
      (s.toward side.other).head?.map Prod.fst = some y := by
  induction fuel generalizing path s x with
  | zero => omega
  | succ fuel ih =>
    obtain ⟨e, a, b, hs⟩ := exists_branch_of_root side hx
    rw [hs] at h hfuel ⊢
    rw [toward_branch_other]
    rw [Tree.extremeWithin, h.node_of_place]
    simp only [ok_bind, Node.child_branch_self]
    rcases absent_or_branch side a with ha | ⟨z, ez, a₁, a₂, ha⟩
    · refine ⟨x, ?_, ?_⟩
      · rw [ha]
        rfl
      · simp [ha]
    · have hroot : a.root = some z := by rw [ha, root_branch]
      rw [size_branch] at hfuel
      rw [plug_near] at h
      obtain ⟨y, hy, hhead⟩ := ih h hroot (by omega)
      refine ⟨y, ?_, ?_⟩
      · rw [hroot]
        exact hy
      · rw [List.head?_append]
        cases hl : (a.toward side.other).head? with
        | none => simp [hl] at hhead
        | some pair => simpa [hl] using hhead

/-- The outermost node on a side of what is in a place. -/
theorem extreme (h : tree.HasShape (plug path s)) (side : Side) (hx : s.root = some x) :
    ∃ y, tree.extreme side x = .ok y ∧ (s.toward side.other).head?.map Prod.fst = some y :=
  h.extremeWithin hx h.size_lt

/-- The outermost node of the tree on a side. -/
theorem outermost (h : tree.HasShape s) :
    tree.outermost side = .ok ((s.toward side.other).head?.map Prod.fst) := by
  rw [Tree.outermost, h.root_eq]
  rcases absent_or_branch side s with rfl | ⟨x, e, a, b, hs⟩
  · cases side <;> rfl
  · have hroot : s.root = some x := by rw [hs, root_branch]
    obtain ⟨y, hy, hhead⟩ := HasShape.extreme (show tree.HasShape (plug [] s) from h) side hroot
    rw [hroot, hhead]
    dsimp only
    rw [hy]
    rfl

/-! ### The next node -/

private theorem climbWithin (h : tree.HasShape (plug path s)) (hx : s.root = some x) {fuel : Nat}
    (hfuel : path.length < fuel) :
    tree.climbWithin side fuel x = .ok ((beyond side path).head?.map Prod.fst) := by
  obtain ⟨fuel, rfl⟩ : ∃ k, fuel = k + 1 := ⟨fuel - 1, by omega⟩
  obtain ⟨node, hnode, hparent⟩ := h.exists_get?_root hx
  induction path generalizing s x fuel node with
  | nil =>
    rw [Tree.climbWithin, node_eq hnode]
    simp only [ok_bind, hparent, above_nil]
    rfl
  | cons f path ih =>
    have haside := h.aside_root_ne hx
    rw [Tree.climbWithin, node_eq hnode]
    simp only [ok_bind, hparent, above_cons]
    rw [node_eq h.get?_frame]
    simp only [ok_bind]
    by_cases hside : f.side = side
    · have hroot : (f.fill s).root = some f.handle := root_branch
      have hup : tree.HasShape (plug path (f.fill s)) := h
      obtain ⟨node', hnode', hparent'⟩ := hup.exists_get?_root hroot
      rw [← hside, Node.child_branch_other, if_neg haside, beyond_cons_self rfl]
      rw [List.length_cons] at hfuel
      obtain ⟨fuel, rfl⟩ : ∃ k, fuel = k + 1 := ⟨fuel - 1, by omega⟩
      have hrest := ih hup hroot fuel (by omega) node' hnode' hparent'
      rwa [← hside] at hrest
    · have hother : f.side = side.other := by
        cases hf : f.side <;> cases hs : side <;> simp_all [Side.other]
      rw [← hother, Node.child_branch_self, hx, if_pos rfl, beyond_cons_other hother]
      rfl

/-- The next node from a place toward a side: the first one met below on that side or, if there is
none, the first one beyond the place. -/
private theorem neighbor_of_place (h : tree.HasShape (plug path (branch side c x e a b))) :
    tree.neighbor side x = .ok ((a.toward side ++ beyond side path).head?.map Prod.fst) := by
  rw [Tree.neighbor, h.node_of_place]
  simp only [ok_bind, Node.child_branch_self]
  rcases absent_or_branch side a with rfl | ⟨z, ez, a₁, a₂, ha⟩
  · rw [toward_absent, List.nil_append]
    exact h.climbWithin root_branch h.length_path_lt
  · have hroot : a.root = some z := by rw [ha, root_branch]
    rw [plug_near] at h
    obtain ⟨y, hy, hhead⟩ := h.extreme side.other hroot
    rw [Side.other_other] at hhead
    rw [hroot]
    dsimp only
    rw [hy, map_ok, List.head?_append]
    cases hl : (a.toward side).head? with
    | none => simp [hl] at hhead
    | some pair => simpa [hl] using hhead.symm

/-- The node that a walk toward a side meets next. -/
theorem neighbor {pre post : List (Handle × Entry)} (h : tree.HasShape s)
    (hs : s.toward side = pre ++ (x, e) :: post) :
    tree.neighbor side x = .ok (post.head?.map Prod.fst) := by
  have hmem : x ∈ s.handles := by
    have hpair : (x, e) ∈ s.toward side := by simp [hs]
    exact List.mem_map.mpr ⟨(x, e), (mem_toward_iff side).mp hpair, rfl⟩
  obtain ⟨path, c, e', a, b, rfl⟩ := exists_plug_of_mem side hmem
  have hplace : (plug path (branch side c x e' a b)).toward side =
      ((beyond side.other path).reverse ++ b.toward side) ++
        (x, e') :: (a.toward side ++ beyond side path) := by
    rw [toward_plug, toward_branch]
    simp
  obtain ⟨-, -, rfl⟩ := toward_split_unique side h.nodup hs hplace
  exact h.neighbor_of_place

/-- From every node, the walk to the next one ends. -/
theorem exists_neighbor (h : tree.HasShape s) (hx : x ∈ s.handles) (side : Side) :
    ∃ next, tree.neighbor side x = .ok next := by
  obtain ⟨pair, hpair, rfl⟩ := List.mem_map.mp hx
  obtain ⟨pre, post, hsplit⟩ := List.append_of_mem ((mem_toward_iff side).mpr hpair)
  exact ⟨_, h.neighbor hsplit⟩

/-! ### Searches -/

private theorem descendWithin (h : tree.HasShape (plug path s)) (key : Blob) {fuel : Nat}
    (hfuel : s.size ≤ fuel) :
    tree.descendWithin key fuel s.root = .ok (s.visits tree.comparator.compare key) := by
  induction s generalizing path fuel with
  | absent =>
    rw [Shape.root, Tree.descendWithin.eq_def]
    rfl
  | node c x e l r ihl ihr =>
    have hbranch : tree.HasShape (plug path (branch .left c x e l r)) := h
    have hleft : tree.HasShape (plug (⟨.left, c, x, e, r⟩ :: path) l) := h
    have hright : tree.HasShape (plug (⟨.right, c, x, e, l⟩ :: path) r) := h
    have hsize : (branch .left c x e l r).size ≤ fuel := hfuel
    rw [size_branch] at hsize
    obtain ⟨fuel, rfl⟩ : ∃ k, fuel = k + 1 := ⟨fuel - 1, by omega⟩
    have hl := ihl hleft (show l.size ≤ fuel by omega)
    have hr := ihr hright (show r.size ≤ fuel by omega)
    have hx := hbranch.node_of_place
    rw [Shape.root, Tree.descendWithin, hx, visits]
    simp only [ok_bind, Node.branch]
    cases hcompare : tree.comparator.compare key e.key with
    | lt => simp only [hl, ok_bind, pure_eq_ok]
    | eq => rfl
    | gt => simp only [hr, ok_bind, pure_eq_ok]

/-- A search meets the nodes that the shape prescribes. -/
theorem descend (h : tree.HasShape s) (key : Blob) :
    tree.descend key = .ok (s.visits tree.comparator.compare key) := by
  have hplug : tree.HasShape (plug [] s) := h
  rw [Tree.descend, h.root_eq]
  exact hplug.descendWithin key (Nat.le_of_lt hplug.size_lt)

/-- The node that a search finds. -/
theorem search (h : tree.HasShape s) (key : Blob) :
    tree.search key =
      .ok ⟨(locate tree.comparator.compare key [] s).2.root,
        Visit.calls key (s.visits tree.comparator.compare key)⟩ := by
  rw [Tree.search, h.descend, ok_bind, arrival_visits, found?_arrivalAt]
  rfl

/-- A search by key fails, or finds an entry. -/
theorem exists_find (h : tree.HasShape s) (key : Blob) :
    (∃ cause calls, tree.find key = .ok ⟨.error cause, calls⟩) ∨
      ∃ x e calls, tree.find key = .ok ⟨.ok x, calls⟩ ∧ (x, e) ∈ s.inorder := by
  rw [Tree.find]
  cases tree.checkKey key with
  | error cause => exact Or.inl ⟨cause, [], rfl⟩
  | ok =>
    dsimp only
    rw [h.search, ok_bind]
    cases hfound : (locate tree.comparator.compare key [] s).2.root with
    | none => exact Or.inl ⟨.keyNotFound, _, rfl⟩
    | some x =>
      obtain ⟨pair, hpair, rfl⟩ := List.mem_map.mp (root_locate_mem hfound)
      exact Or.inr ⟨pair.1, pair.2, _, rfl, hpair⟩

/-! ### The height -/

/-- The deepest level that is reached from shapes, each below so many levels, and `best`. -/
private def deepest : List (Nat × Shape) → Nat → Nat
  | [], best => best
  | (above, s) :: forest, best => max (above + s.height) (deepest forest best)

private theorem deepest_max (forest : List (Nat × Shape)) (best depth : Nat) :
    deepest forest (max best depth) = max (deepest forest best) depth := by
  induction forest with
  | nil => rfl
  | cons p forest ih => rw [deepest, deepest, ih, Nat.max_assoc]

private theorem le_deepest (forest : List (Nat × Shape)) (best : Nat) :
    best ≤ deepest forest best := by
  induction forest with
  | nil => exact Nat.le_refl best
  | cons p forest ih => exact Nat.le_trans ih (Nat.le_max_right _ _)

/-- The nodes that wait, told from shapes that are each below so many levels. -/
private def waiting (forest : List (Nat × Shape)) : List (Handle × Nat) :=
  forest.flatMap fun p => p.2.root.toList.map (·, p.1 + 1)

-- An absent shape waits without a node, and changes nothing as its level was counted already.
private theorem deepestWithin : ∀ (forest : List (Nat × Shape)) (fuel best : Nat),
    (∀ p ∈ forest, p.1 ≤ best ∧ ∃ path, tree.HasShape (plug path p.2)) →
    (forest.map (·.2.size)).sum ≤ fuel →
    tree.deepestWithin fuel (waiting forest) best = .ok (deepest forest best)
  | [], fuel, best, _, _ => by
    rw [waiting, List.flatMap_nil, Tree.deepestWithin.eq_def]
    rfl
  | (depth, .absent) :: forest, fuel, best, hforest, hfuel => by
    have hrest := deepestWithin forest fuel best
      (fun p hp => hforest p (List.mem_cons_of_mem _ hp)) (by simpa using hfuel)
    have hdepth : depth ≤ best := (hforest _ List.mem_cons_self).1
    have hle := le_deepest forest best
    rw [deepest, Shape.height, Nat.add_zero, Nat.max_eq_right (Nat.le_trans hdepth hle), ← hrest]
    rfl
  | (depth, .node c x e l r) :: forest, fuel, best, hforest, hfuel => by
    obtain ⟨hdepth, path, hplace⟩ := hforest _ List.mem_cons_self
    have hbranch : tree.HasShape (plug path (branch .left c x e l r)) := hplace
    have hsize : (branch .left c x e l r).size + (forest.map (·.2.size)).sum ≤ fuel := by
      simpa [branch] using hfuel
    rw [size_branch] at hsize
    obtain ⟨fuel, rfl⟩ : ∃ k, fuel = k + 1 := ⟨fuel - 1, by omega⟩
    have hnext := deepestWithin ((depth + 1, r) :: (depth + 1, l) :: forest) fuel
      (max best (depth + 1)) (by
        intro p hp
        rcases List.mem_cons.mp hp with rfl | hp
        · exact ⟨Nat.le_max_right _ _, ⟨.right, c, x, e, l⟩ :: path, hplace⟩
        rcases List.mem_cons.mp hp with rfl | hp
        · exact ⟨Nat.le_max_right _ _, ⟨.left, c, x, e, r⟩ :: path, hplace⟩
        · obtain ⟨hle, hshape⟩ := hforest p (List.mem_cons_of_mem _ hp)
          exact ⟨Nat.le_trans hle (Nat.le_max_left _ _), hshape⟩) (by
        simp only [List.map_cons, List.sum_cons]
        omega)
    have hwaiting : waiting ((depth, .node c x e l r) :: forest) =
        (x, depth + 1) :: waiting forest := rfl
    rw [hwaiting, Tree.deepestWithin, hbranch.node_of_place, ok_bind]
    refine hnext.trans (congrArg Except.ok ?_)
    rw [deepest, deepest, deepest, deepest_max, Shape.height]
    have hle := le_deepest forest best
    omega
termination_by forest => (forest.map fun p => 2 * p.2.size + 1).sum
decreasing_by
  all_goals simp only [List.map_cons, List.sum_cons]
  · omega
  · have hsize : (branch .left c x e l r).size = l.size + r.size + 1 := size_branch
    rw [branch] at hsize
    omega

/-- The height of a tree is the number of nodes on the longest way down. -/
theorem height (h : tree.HasShape s) : tree.height = .ok s.height := by
  have hplug : tree.HasShape (plug [] s) := h
  have heq := deepestWithin [(0, s)] tree.walkBound 0
    (by simpa using ⟨[], hplug⟩) (by simpa using Nat.le_of_lt hplug.size_lt)
  rw [Tree.height, h.root_eq]
  simpa [waiting, deepest] using heq

/-! ### Drawings -/

/-- The drawing of a tree shows its shape. -/
theorem drawing (h : tree.HasShape s) : tree.drawing = .ok (s.drawing none) :=
  h.linked.drawing_eq h.nodup h.root_eq

/-! ### Iterations -/

private theorem drainUpTo (h : tree.HasShape s) {pre post : List (Handle × Entry)} {it : Iterator}
    (hs : s.toward side.other = pre ++ post) (hend : it.endAt side = post.head?.map Prod.fst)
    (hremaining : it.remaining = post.length) :
    Iterator.drainUpTo tree side post.length it = .ok (post.map Prod.snd) := by
  induction post generalizing pre it with
  | nil => rfl
  | cons pair post ih =>
    obtain ⟨x, e⟩ := pair
    have hentry : tree.entry x = .ok e :=
      h.entry_of_mem ((mem_toward_iff side.other).mp (by simp [hs]))
    have hnext := h.neighbor hs
    have hsplit : s.toward side.other = (pre ++ [(x, e)]) ++ post := by simpa using hs
    have hmoved : (it.advance side (post.head?.map Prod.fst)).endAt side =
        post.head?.map Prod.fst := by cases side <;> rfl
    have hfewer : (it.advance side (post.head?.map Prod.fst)).remaining = post.length := by
      cases side <;> simp [Iterator.advance, hremaining]
    have hrest := ih hsplit hmoved hfewer
    rw [List.length_cons, Iterator.drainUpTo, Iterator.take, if_neg (by simp [hremaining]), hend]
    simp only [List.head?_cons, Option.map_some, hnext, hentry, ok_bind, pure_eq_ok, hrest]
    rfl

/-- An iteration over all entries shows them in order. -/
theorem entries (h : tree.HasShape s) (hlive : tree.nodes.live = s.size) :
    tree.entries = .ok s.entries := by
  have hfirst : tree.first = .ok (s.inorder.head?.map Prod.fst) := h.outermost
  have hlast : tree.last = .ok ((s.toward .left).head?.map Prod.fst) := h.outermost
  rw [Tree.entries, Tree.iterator, hfirst, hlast]
  simp only [ok_bind, pure_eq_ok, Tree.size, hlive, Iterator.drain]
  have hstart : s.toward Side.left.other = [] ++ s.inorder := rfl
  exact h.drainUpTo hstart rfl rfl

end HasShape

end Tree

end MeteredMap
