import MeteredMap.Proofs.Shape.Basic

/-!
# Order in a shape

The nodes of a shape as a walk toward one side meets them, and what of it lies beyond a place. A
walk toward the right meets the nodes in order, a walk toward the left backwards.

## Main definitions

* `MeteredMap.Shape.toward`, `MeteredMap.Shape.beyond` : the nodes of a shape, and those beyond a
  place, as a walk toward a side meets them.

## Main results

* `MeteredMap.Shape.toward_plug` : the walk through a shape passes what is before a place, what is
  in it and what is beyond it.
* `MeteredMap.Shape.exists_plug_of_mem` : every node has a place.
* `MeteredMap.Shape.exists_plug_outermost` : the place of the outermost node on a side.
-/

namespace MeteredMap

namespace Shape

/-- The nodes of a shape, as a walk toward a side meets them. -/
def toward (side : Side) (s : Shape) : List (Handle × Entry) :=
  match side with
  | .left => s.inorder.reverse
  | .right => s.inorder

/-- The nodes beyond a place, as a walk toward a side meets them. -/
def beyond (side : Side) : List Frame → List (Handle × Entry)
  | [] => []
  | f :: path =>
    if f.side = side then beyond side path
    else (f.handle, f.entry) :: (f.aside.toward side ++ beyond side path)

variable {side : Side} {c : Color} {x : Handle} {e : Entry} {a b s : Shape}
  {f : Frame} {path : List Frame}

@[simp] theorem toward_right : s.toward .right = s.inorder := rfl

@[simp] theorem toward_absent : absent.toward side = [] := by
  cases side <;> rfl

theorem toward_other : s.toward side.other = (s.toward side).reverse := by
  cases side
  · exact (List.reverse_reverse _).symm
  · rfl

theorem mem_toward_iff (side : Side) {pair : Handle × Entry} :
    pair ∈ s.toward side ↔ pair ∈ s.inorder := by
  cases side
  · exact List.mem_reverse
  · exact Iff.rfl

theorem toward_branch :
    (branch side c x e a b).toward side = b.toward side ++ (x, e) :: a.toward side := by
  cases side <;> simp [toward, branch, inorder]

theorem toward_branch_other : (branch side c x e a b).toward side.other =
    a.toward side.other ++ (x, e) :: b.toward side.other := by
  rw [← branch_other, toward_branch]

theorem beyond_cons_self (h : f.side = side) : beyond side (f :: path) = beyond side path :=
  if_pos h

theorem beyond_cons_other (h : f.side = side.other) : beyond side (f :: path) =
    (f.handle, f.entry) :: (f.aside.toward side ++ beyond side path) :=
  if_neg (h ▸ side.other_ne)

/-- Nothing lies beyond a place that is reached by going toward the side all the way. -/
theorem beyond_eq_nil (h : ∀ f ∈ path, f.side = side) : beyond side path = [] := by
  induction path with
  | nil => rfl
  | cons f path ih =>
    rw [beyond_cons_self (h f List.mem_cons_self)]
    exact ih fun g hg => h g (List.mem_cons_of_mem f hg)

/-- The walk through a shape passes what is before a place, what is in it and what is beyond it. -/
theorem toward_plug (side : Side) (path : List Frame) (s : Shape) :
    (plug path s).toward side =
      (beyond side.other path).reverse ++ s.toward side ++ beyond side path := by
  induction path generalizing s with
  | nil => simp [plug, beyond]
  | cons f path ih =>
    rw [plug, ih, Frame.fill]
    by_cases h : f.side = side
    · have hother : f.side = side.other.other := by rw [h, Side.other_other]
      rw [beyond_cons_self h, beyond_cons_other hother, h, toward_branch, toward_other]
      simp
    · have hother : f.side = side.other := by
        cases hf : f.side <;> cases hs : side <;> simp_all [Side.other]
      rw [beyond_cons_other hother, beyond_cons_self hother, hother, branch_other, toward_branch]
      simp

theorem plug_append (p path : List Frame) (s : Shape) :
    plug (p ++ path) s = plug path (plug p s) := by
  induction p generalizing s with
  | nil => rfl
  | cons f p ih => exact ih (f.fill s)

/-- Every node has a place. -/
theorem exists_plug_of_mem (side : Side) (h : x ∈ s.handles) :
    ∃ path c e a b, s = plug path (branch side c x e a b) := by
  induction s with
  | absent => cases h
  | node c y ey l r ihl ihr =>
    rcases mem_handles_node.mp h with rfl | h | h
    · have hroot : (node c x ey l r).root = some x := rfl
      obtain ⟨e, a, b, heq⟩ := exists_branch_of_root side hroot
      exact ⟨[], _, e, a, b, heq⟩
    · obtain ⟨p, c', e, a, b, hl⟩ := ihl h
      refine ⟨p ++ [⟨.left, c, y, ey, r⟩], c', e, a, b, ?_⟩
      rw [plug_append, ← hl]
      rfl
    · obtain ⟨p, c', e, a, b, hr⟩ := ihr h
      refine ⟨p ++ [⟨.right, c, y, ey, l⟩], c', e, a, b, ?_⟩
      rw [plug_append, ← hr]
      rfl

/-- The outermost node on a side is reached by going toward that side all the way, and has nothing
more on that side. -/
theorem exists_plug_outermost (side : Side) (h : s ≠ absent) :
    ∃ path c x e a, s = plug path (branch side c x e absent a) ∧ ∀ f ∈ path, f.side = side := by
  induction hn : s.size using Nat.strongRecOn generalizing s with
  | _ n ih =>
    obtain ⟨x, e, a, b, hs⟩ := (absent_or_branch side s).resolve_left h
    by_cases ha : a = absent
    · exact ⟨[], _, x, e, b, ha ▸ hs, fun f hf => by cases hf⟩
    · have hlt : a.size < n := by
        rw [← hn, hs, size_branch]
        omega
      obtain ⟨p, c, y, ey, d, hplug, hp⟩ := ih a.size hlt ha rfl
      refine ⟨p ++ [⟨side, s.color, x, e, b⟩], c, y, ey, d, ?_, fun f hf => ?_⟩
      · rw [plug_append, ← hplug]
        exact hs
      · rcases List.mem_append.mp hf with hf | hf
        · exact hp f hf
        · rw [List.mem_singleton.mp hf]

/-- A walk meets every node once, so what comes before it and after it is determined. -/
theorem toward_split_unique (side : Side) {pre pre' post post' : List (Handle × Entry)}
    {e' : Entry} (hnodup : s.handles.Nodup) (h : s.toward side = pre ++ (x, e) :: post)
    (h' : s.toward side = pre' ++ (x, e') :: post') : pre = pre' ∧ e = e' ∧ post = post' := by
  have hmap : ((s.toward side).map Prod.fst).Nodup := by
    cases side
    · rw [toward, List.map_reverse]
      exact List.nodup_reverse.mpr hnodup
    · exact hnodup
  have hnot : ∀ {p q : List (Handle × Entry)} {d : Entry}, s.toward side = p ++ (x, d) :: q →
      ∀ pair ∈ p, pair.1 ≠ x := by
    intro p q d hd pair hpair heq
    rw [hd, List.map_append, List.nodup_append] at hmap
    exact hmap.2.2 _ (List.mem_map_of_mem hpair) x (by simp) heq
  have hpre : ∀ {p q : List (Handle × Entry)} {d : Entry}, s.toward side = p ++ (x, d) :: q →
      (s.toward side).takeWhile (fun pair => pair.1 ≠ x) = p := by
    intro p q d hd
    rw [hd, List.takeWhile_append_of_pos fun pair hpair => by simpa using hnot hd pair hpair]
    simp
  obtain rfl : pre = pre' := (hpre h).symm.trans (hpre h')
  have hrest := List.append_cancel_left (h.symm.trans h')
  simp only [List.cons.injEq, Prod.mk.injEq, true_and] at hrest
  exact ⟨rfl, hrest⟩

end Shape

end MeteredMap
