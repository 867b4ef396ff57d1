import MeteredMap.Proofs.Shape.Balance

/-!
# Repairs of shapes

What the repairs after an insertion and after a removal do to a shape, as functions on a shape
and the path above it. They look at colours and sides only, never at a handle.

## Main definitions

* `MeteredMap.Shape.repairInsert` : the colour rules restored above a red shape.
* `MeteredMap.Shape.repairRemove` : the colour rules restored above a shape that lacks a black
  level.

## Main results

* `MeteredMap.Shape.inorder_repairInsert`, `MeteredMap.Shape.inorder_repairRemove` : repairs keep
  the order.
* `MeteredMap.Shape.Balanced.repairInsert`, `MeteredMap.Shape.Lacking.repairRemove` : repairs
  restore the balance.
-/

namespace MeteredMap

namespace Shape

/-- The child on a side. -/
def child (side : Side) : Shape → Shape
  | absent => absent
  | node _ _ _ left right =>
    match side with
    | .left => left
    | .right => right

@[simp] theorem child_branch_self {side : Side} {c : Color} {x : Handle} {e : Entry}
    {a b : Shape} : (branch side c x e a b).child side = a := by
  cases side <;> rfl

@[simp] theorem child_branch_other {side : Side} {c : Color} {x : Handle} {e : Entry}
    {a b : Shape} : (branch side c x e a b).child side.other = b := by
  cases side <;> rfl

end Shape

namespace Frame

open Shape

/-! ### The end of a repair after an insertion -/

/-- The shape below the red frame `f` and the frame `g` above it, with a node raised above both:
that of `f` if both are on one side, and that of `s`, which lies between them, otherwise. -/
def raise (f g : Frame) (s : Shape) : Shape :=
  if f.side = g.side then
    branch g.side .black f.handle f.entry s (branch g.side .red g.handle g.entry f.aside g.aside)
  else
    match s with
    | absent => g.fill (f.fill absent)
    | node _ x e _ _ =>
      branch g.side .black x e
        (branch g.side f.color f.handle f.entry f.aside (s.child g.side))
        (branch g.side .red g.handle g.entry (s.child g.side.other) g.aside)

theorem raise_of_side_eq {f g : Frame} (h : f.side = g.side) (s : Shape) :
    f.raise g s =
      branch g.side .black f.handle f.entry s
        (branch g.side .red g.handle g.entry f.aside g.aside) :=
  if_pos h

theorem raise_of_side_ne {f g : Frame} (h : f.side ≠ g.side) (c : Color) (x : Handle) (e : Entry)
    (a b : Shape) :
    f.raise g (branch g.side c x e a b) =
      branch g.side .black x e (branch g.side f.color f.handle f.entry f.aside a)
        (branch g.side .red g.handle g.entry b g.aside) := by
  unfold raise
  rw [if_neg h]
  cases g.side <;> rfl

theorem inorder_raise (f g : Frame) (s : Shape) :
    (f.raise g s).inorder = (g.fill (f.fill s)).inorder := by
  obtain ⟨fs, fc, p, ep, fa⟩ := f
  obtain ⟨gs, gc, q, eq, ga⟩ := g
  by_cases h : fs = gs
  · subst h
    rw [raise_of_side_eq (by rfl)]
    cases fs <;> simp [fill, branch, inorder]
  · cases s with
    | absent => simp [raise, h]
    | node c x e l r =>
      cases fs <;> cases gs <;> simp_all [raise, fill, branch, inorder, child, Side.other]

/-! ### The end of a repair after a removal -/

/-- The shape below a frame with a lacking shape `s` put in, if a nephew is red: with the sibling
raised above the frame's node or, if only the near nephew is red, with that one raised. The
sibling is taken for black. -/
def mend (f : Frame) (s : Shape) : Option Shape :=
  match f.aside with
  | absent => none
  | node _ y ey _ _ =>
    let near := f.aside.child f.side
    let far := f.aside.child f.side.other
    match far.color, near with
    | .red, _ =>
      some (branch f.side f.color y ey (branch f.side .black f.handle f.entry s near)
        (far.recolor .black))
    | .black, node .red x ex _ _ =>
      some (branch f.side f.color x ex
        (branch f.side .black f.handle f.entry s (near.child f.side))
        (branch f.side .black y ey (near.child f.side.other) far))
    | .black, _ => none

/-- The shape below a frame with its other child reddened. -/
def dim (f : Frame) (s : Shape) : Shape :=
  branch f.side f.color f.handle f.entry s (f.aside.recolor .red)

variable {f : Frame} {c : Color} {x y : Handle} {ex ey : Entry} {near far na nb : Shape}

theorem mend_of_far_red (h : f.aside = branch f.side c y ey near far) (hfar : far.color = .red)
    (s : Shape) :
    f.mend s =
      some (branch f.side f.color y ey (branch f.side .black f.handle f.entry s near)
        (far.recolor .black)) := by
  obtain ⟨side, fc, p, ep, aside⟩ := f
  dsimp only at h ⊢
  subst h
  cases side <;> simp [mend, branch, child, hfar, Side.other]

theorem mend_of_near_red
    (h : f.aside = branch f.side c y ey (branch f.side .red x ex na nb) far)
    (hfar : far.color = .black) (s : Shape) :
    f.mend s =
      some (branch f.side f.color x ex (branch f.side .black f.handle f.entry s na)
        (branch f.side .black y ey nb far)) := by
  obtain ⟨side, fc, p, ep, aside⟩ := f
  dsimp only at h ⊢
  subst h
  cases side <;> simp [mend, branch, child, hfar, Side.other]

theorem mend_of_black (h : f.aside = branch f.side c y ey near far) (hnear : near.color = .black)
    (hfar : far.color = .black) (s : Shape) : f.mend s = none := by
  obtain ⟨side, fc, p, ep, aside⟩ := f
  dsimp only at h ⊢
  subst h
  cases near with
  | absent => cases side <;> simp [mend, branch, child, hfar, Side.other]
  | node nc z ez l r =>
    have hnc : nc = .black := hnear
    subst hnc
    cases side <;> simp [mend, branch, child, hfar, Side.other]

theorem mend_eq_none_iff (h : f.aside = branch f.side c y ey near far) (s : Shape) :
    f.mend s = none ↔ near.color = .black ∧ far.color = .black := by
  constructor
  · intro hnone
    cases hfar : far.color with
    | red =>
      rw [mend_of_far_red h hfar] at hnone
      cases hnone
    | black =>
      cases hnear : near.color with
      | red =>
        obtain ⟨x, ex, na, nb, rfl⟩ := exists_branch_of_red f.side hnear
        rw [mend_of_near_red h hfar] at hnone
        cases hnone
      | black => exact ⟨rfl, rfl⟩
  · rintro ⟨hnear, hfar⟩
    exact mend_of_black h hnear hfar s

theorem inorder_mend {s t : Shape} (h : f.mend s = some t) : t.inorder = (f.fill s).inorder := by
  rcases absent_or_branch f.side f.aside with ha | ⟨y, ey, near, far, ha⟩
  · simp [mend, ha] at h
  · cases hfar : far.color with
    | red =>
      rw [mend_of_far_red ha hfar, Option.some.injEq] at h
      rw [← h, fill, ha]
      cases f.side <;> simp [branch, inorder]
    | black =>
      cases hnear : near.color with
      | red =>
        obtain ⟨x, ex, na, nb, rfl⟩ := exists_branch_of_red f.side hnear
        rw [mend_of_near_red ha hfar, Option.some.injEq] at h
        rw [← h, fill, ha]
        cases f.side <;> simp [branch, inorder]
      | black =>
        rw [mend_of_black ha hnear hfar] at h
        cases h

@[simp] theorem inorder_dim (f : Frame) (s : Shape) : (f.dim s).inorder = (f.fill s).inorder := by
  rw [dim, fill, inorder_branch, inorder_branch, inorder_recolor]

/-- The frame of a red sibling, once it was raised: the node of `f`, now red, is below it, with
the near nephew in the place of the sibling. -/
def lowered (f : Frame) : Frame :=
  { f with color := .red, aside := f.aside.child f.side }

/-- The frame around `f.lowered`: the sibling, now black, with the far nephew beside it. -/
def raised (f : Frame) (y : Handle) (ey : Entry) : Frame :=
  ⟨f.side, .black, y, ey, f.aside.child f.side.other⟩

theorem inorder_raised_lowered (h : f.aside = branch f.side c y ey near far) (s : Shape) :
    ((f.raised y ey).fill (f.lowered.fill s)).inorder = (f.fill s).inorder := by
  obtain ⟨side, fc, p, ep, aside⟩ := f
  dsimp only at h ⊢
  subst h
  cases side <;> simp [raised, lowered, fill, branch, inorder, child, Side.other]

end Frame

namespace Shape

/-! ### Repair after an insertion -/

/-- The shape around a path whose place holds a red shape, after the repair. A red uncle lets the
conflict climb two levels by recolouring; otherwise raising a node ends it. -/
def repairInsert : List Frame → Shape → Shape
  | [], s => s
  | [f], s => f.fill s
  | f :: g :: path, s =>
    match f.color, g.aside.color with
    | .black, _ => plug path (g.fill (f.fill s))
    | .red, .red =>
      repairInsert path
        (branch g.side .red g.handle g.entry ((f.fill s).recolor .black)
          (g.aside.recolor .black))
    | .red, .black => plug path (f.raise g s)

/-- The repair after an insertion keeps the order. -/
theorem inorder_repairInsert (path : List Frame) (s : Shape) :
    (repairInsert path s).inorder = (plug path s).inorder := by
  induction path, s using repairInsert.induct with
  | case1 s => rfl
  | case2 f s => rfl
  | case3 f g path s hf => simp [repairInsert, hf, plug]
  | case4 f g path s hg hf ih =>
    rw [repairInsert, hf, hg]
    refine ih.trans (inorder_plug_congr ?_)
    rw [inorder_branch, inorder_recolor, inorder_recolor, ← inorder_branch]
    rfl
  | case5 f g path s hg hf =>
    rw [repairInsert, hf, hg]
    exact inorder_plug_congr (f.inorder_raise g s)

/-! ### Repair after a removal -/

/-- The shape around a path whose place holds a shape that lacks a black level, after the repair.
A red shape makes the lack good by turning black. A red sibling is raised first. Two black
nephews let the lack climb one level by recolouring; otherwise raising a node ends it. -/
def repairRemove : List Frame → Shape → Shape
  | [], s => s.recolor .black
  | f :: path, s =>
    match s.color, f.aside with
    | .red, _ => plug (f :: path) (s.recolor .black)
    | .black, absent => plug (f :: path) s
    | .black, node .red y ey _ _ =>
      plug (f.raised y ey :: path)
        ((f.lowered.mend s).getD ((f.lowered.dim s).recolor .black))
    | .black, node .black .. =>
      match f.mend s with
      | some t => plug path t
      | none => repairRemove path (f.dim s)

section Equations

variable {f : Frame} {path : List Frame} {s t : Shape} {y : Handle} {ey : Entry}
  {near far : Shape}

theorem repairRemove_of_red (h : s.color = .red) :
    repairRemove path s = plug path (s.recolor .black) := by
  cases path with
  | nil => rfl
  | cons f path => rw [repairRemove, h]

theorem repairRemove_of_red_sibling (hs : s.color = .black)
    (ha : f.aside = branch f.side .red y ey near far) :
    repairRemove (f :: path) s =
      plug (f.raised y ey :: path)
        ((f.lowered.mend s).getD ((f.lowered.dim s).recolor .black)) := by
  rw [repairRemove, hs]
  cases hside : f.side <;> simp only [ha, hside, branch]

theorem repairRemove_of_black_sibling (hs : s.color = .black)
    (ha : f.aside = branch f.side .black y ey near far) :
    repairRemove (f :: path) s =
      match f.mend s with
      | some t => plug path t
      | none => repairRemove path (f.dim s) := by
  rw [repairRemove, hs]
  cases hside : f.side <;> simp only [ha, hside, branch]

end Equations

/-- The repair after a removal keeps the order. -/
theorem inorder_repairRemove (path : List Frame) (s : Shape) :
    (repairRemove path s).inorder = (plug path s).inorder := by
  induction path generalizing s with
  | nil => exact inorder_recolor
  | cons f path ih =>
    cases hs : s.color with
    | red =>
      rw [repairRemove_of_red hs]
      exact inorder_plug_congr inorder_recolor
    | black =>
      rcases absent_or_branch f.side f.aside with ha | ⟨y, ey, near, far, ha⟩
      · rw [repairRemove, hs, ha]
      · cases hc : f.aside.color with
        | red =>
          rw [hc] at ha
          rw [repairRemove_of_red_sibling hs ha]
          refine (inorder_plug_congr ?_ : (plug path _).inorder = (plug path (f.fill s)).inorder)
          rw [← Frame.inorder_raised_lowered ha, Frame.inorder_fill,
            Frame.inorder_fill (f.raised y ey)]
          cases hm : f.lowered.mend s with
          | some t => rw [Option.getD_some, Frame.inorder_mend hm]
          | none => rw [Option.getD_none, inorder_recolor, Frame.inorder_dim]
        | black =>
          rw [hc] at ha
          rw [repairRemove_of_black_sibling hs ha]
          cases hm : f.mend s with
          | some t => exact inorder_plug_congr (Frame.inorder_mend hm)
          | none => exact (ih (f.dim s)).trans (inorder_plug_congr (f.inorder_dim s))

/-! ### Balance -/

/-- The repair after an insertion restores the balance, but may leave the root red. -/
theorem Balanced.repairInsert {path : List Frame} {s : Shape} {n : Nat} (hs : s.Balanced n)
    (hred : s.color = .red) (hp : Fits path .black n) :
    ∃ m, (repairInsert path s).Balanced m := by
  induction path, s using Shape.repairInsert.induct generalizing n with
  | case1 s => exact ⟨n, hs⟩
  | case2 f s =>
    -- The only frame is the root's, which is black.
    cases hp with
    | red _ _ _ hp => cases hp
    | black _ hf ha _ =>
      refine ⟨n + 1, ?_⟩
      rw [Shape.repairInsert, Frame.fill, hf]
      exact balanced_black_succ_iff.mpr ⟨hs, ha⟩
  | case3 f g path s hf =>
    cases hp with
    | red hf' _ _ _ => simp [hf] at hf'
    | black _ _ ha hp =>
      have hfill : (f.fill s).Balanced (n + 1) := by
        rw [Frame.fill, hf]
        exact balanced_black_succ_iff.mpr ⟨hs, ha⟩
      have hcolor : (f.fill s).color = .black := by rw [Frame.fill, color_branch, hf]
      rw [← hcolor] at hp
      obtain ⟨-, m, hm⟩ := hfill.plug hp
      refine ⟨m, ?_⟩
      rw [Shape.repairInsert, hf]
      exact hm
  | case4 f g path s hg hf ih =>
    cases hp with
    | black _ hf' _ _ => simp [hf] at hf'
    | red _ hac ha hp =>
      cases hp with
      | black _ hgc hga hp =>
        have hparent : ((f.fill s).recolor .black).Balanced (n + 1) := by
          rw [Frame.fill, recolor_branch]
          exact balanced_black_succ_iff.mpr ⟨hs, ha⟩
        obtain ⟨u, eu, ua, ub, hu⟩ := exists_branch_of_red .left hg
        have huncle : (g.aside.recolor .black).Balanced (n + 1) := by
          rw [hu] at hga ⊢
          rw [recolor_branch]
          exact balanced_black_succ_iff.mpr (balanced_red_iff.mp hga).2
        rw [Shape.repairInsert, hf, hg]
        refine ih (balanced_red_iff.mpr ⟨⟨?_, ?_⟩, hparent, huncle⟩) color_branch hp
        · rw [Frame.fill, recolor_branch, color_branch]
        · rw [hu, recolor_branch, color_branch]
  | case5 f g path s hg hf =>
    cases hp with
    | black _ hf' _ _ => simp [hf] at hf'
    | red _ hac ha hp =>
      cases hp with
      | black _ hgc hga hp =>
        have hraise : (f.raise g s).Balanced (n + 1) ∧ (f.raise g s).color = .black := by
          by_cases hside : f.side = g.side
          · rw [Frame.raise_of_side_eq hside, color_branch]
            exact ⟨balanced_black_succ_iff.mpr
              ⟨hs, balanced_red_iff.mpr ⟨⟨hac, hg⟩, ha, hga⟩⟩, rfl⟩
          · obtain ⟨x, e, a, b, rfl⟩ := exists_branch_of_red g.side hred
            obtain ⟨⟨hxa, hxb⟩, hba, hbb⟩ := balanced_red_iff.mp hs
            rw [Frame.raise_of_side_ne hside, color_branch, hf]
            exact ⟨balanced_black_succ_iff.mpr
              ⟨balanced_red_iff.mpr ⟨⟨hac, hxa⟩, ha, hba⟩,
                balanced_red_iff.mpr ⟨⟨hxb, hg⟩, hbb, hga⟩⟩, rfl⟩
        rw [← hraise.2] at hp
        obtain ⟨-, m, hm⟩ := hraise.1.plug hp
        refine ⟨m, ?_⟩
        rw [Shape.repairInsert, hf, hg]
        exact hm

/-- A shape that lacks a black level to be of black height `n + 1`: a black one of height `n`, or
a red one that turning black makes good. -/
def Lacking (s : Shape) (n : Nat) : Prop :=
  s.color = .black ∧ s.Balanced n ∨ s.color = .red ∧ (s.recolor .black).Balanced (n + 1)

variable {f : Frame} {path : List Frame} {s t : Shape} {n : Nat} {c : Color} {y : Handle}
  {ey : Entry} {near far : Shape}

private theorem Fits.replace {f' : Frame} (hp : Fits (f :: path) .black n)
    (hf : f'.color = f.color) (hc : f'.aside.color = .black) (ha : f'.aside.Balanced n) :
    Fits (f' :: path) .black n := by
  cases hp with
  | red hfc _ _ hp => exact .red (hf.trans hfc) hc ha hp
  | black _ hfc _ hp => exact .black _ (hf.trans hfc) ha hp

/-- Below a black sibling with a red nephew, raising a node ends the repair. -/
theorem Balanced.mend (hs : s.Balanced n) (ha : f.aside = branch f.side .black y ey near far)
    (hnear : near.Balanced n) (hfar : far.Balanced n) (hp : Fits (f :: path) .black (n + 1))
    (ht : f.mend s = some t) : ∃ m, t.Balanced m ∧ Fits path t.color m := by
  cases hfc : far.color with
  | red =>
    rw [Frame.mend_of_far_red ha hfc, Option.some.injEq] at ht
    obtain ⟨z, ez, a, b, rfl⟩ := exists_branch_of_red f.side hfc
    have hz := (balanced_red_iff.mp hfar).2
    have hlow : (branch f.side .black f.handle f.entry s near).Balanced (n + 1) :=
      balanced_black_succ_iff.mpr ⟨hs, hnear⟩
    rw [← ht, recolor_branch]
    refine hlow.fill (f := ⟨f.side, f.color, y, ey, branch f.side .black z ez a b⟩) ?_
    rw [color_branch]
    exact hp.replace rfl color_branch (balanced_black_succ_iff.mpr hz)
  | black =>
    cases hnc : near.color with
    | black =>
      rw [Frame.mend_of_black ha hnc hfc] at ht
      cases ht
    | red =>
      obtain ⟨x, ex, na, nb, rfl⟩ := exists_branch_of_red f.side hnc
      rw [Frame.mend_of_near_red ha hfc, Option.some.injEq] at ht
      obtain ⟨-, hna, hnb⟩ := balanced_red_iff.mp hnear
      have hlow : (branch f.side .black f.handle f.entry s na).Balanced (n + 1) :=
        balanced_black_succ_iff.mpr ⟨hs, hna⟩
      rw [← ht]
      refine hlow.fill (f := ⟨f.side, f.color, x, ex, branch f.side .black y ey nb far⟩) ?_
      rw [color_branch]
      exact hp.replace rfl color_branch (balanced_black_succ_iff.mpr ⟨hnb, hfar⟩)

/-- Below a black sibling with two black nephews, reddening the sibling moves the lack up. -/
theorem Balanced.dim (hs : s.Balanced n)
    (ha : f.aside = branch f.side .black y ey near far) (hnc : near.color = .black)
    (hfc : far.color = .black) (hnear : near.Balanced n) (hfar : far.Balanced n)
    (hp : Fits (f :: path) .black (n + 1)) :
    ∃ m, Lacking (f.dim s) m ∧ Fits path .black (m + 1) := by
  have hred : (branch f.side .red y ey near far).Balanced n :=
    balanced_red_iff.mpr ⟨⟨hnc, hfc⟩, hnear, hfar⟩
  cases hp with
  | red hf _ _ hp =>
    refine ⟨n, Or.inr ⟨?_, ?_⟩, hp.toBlack⟩
    · rw [Frame.dim, color_branch, hf]
    · rw [Frame.dim, ha, recolor_branch, recolor_branch]
      exact balanced_black_succ_iff.mpr ⟨hs, hred⟩
  | black _ hf _ hp =>
    refine ⟨n + 1, Or.inl ⟨?_, ?_⟩, hp⟩
    · rw [Frame.dim, color_branch, hf]
    · rw [Frame.dim, ha, recolor_branch, hf]
      exact balanced_black_succ_iff.mpr ⟨hs, hred⟩

/-- Repairing a shape that lacks a black level restores the balance, with a black root. -/
theorem Lacking.repairRemove (hs : Lacking s n) (hp : Fits path .black (n + 1)) :
    (repairRemove path s).color = .black ∧ ∃ m, (repairRemove path s).Balanced m := by
  induction path generalizing s n with
  | nil =>
    rcases hs with ⟨hc, hs⟩ | ⟨-, hs⟩
    · have hsame : s.recolor .black = s := hc ▸ recolor_color
      rw [Shape.repairRemove, hsame]
      exact ⟨hc, n, hs⟩
    · rw [Shape.repairRemove]
      exact ⟨by cases s <;> rfl, n + 1, hs⟩
  | cons f path ih =>
    rcases hs with ⟨hsc, hs⟩ | ⟨hsc, hs⟩
    · have ha : f.aside.Balanced (n + 1) := by
        cases hp with
        | red _ _ ha _ => exact ha
        | black _ _ ha _ => exact ha
      rcases absent_or_branch f.side f.aside with hf | ⟨y, ey, near, far, hf⟩
      · exact absurd hf ha.ne_absent
      · cases hac : f.aside.color with
        | red =>
          rw [hac] at hf
          rw [repairRemove_of_red_sibling hsc hf]
          rw [hf] at ha
          obtain ⟨⟨hnc, hfc⟩, hnear, hfar⟩ := balanced_red_iff.mp ha
          have hlow : f.lowered.aside = near := by rw [Frame.lowered, hf, child_branch_self]
          have hpath : Fits (f.lowered :: f.raised y ey :: path) .black (n + 1) := by
            cases hp with
            | red _ hac' _ _ => simp [hac] at hac'
            | black _ _ _ hp =>
              refine .red rfl ?_ ?_ (.black _ rfl ?_ hp)
              · rw [hlow, hnc]
              · rw [hlow]
                exact hnear
              · rw [Frame.raised, hf, child_branch_other]
                exact hfar
          obtain ⟨z, ez, na, nb, hna⟩ :=
            (absent_or_branch f.side near).resolve_left hnear.ne_absent
          rw [hnc] at hna
          rw [hna] at hnear hlow
          obtain ⟨hba, hbb⟩ := balanced_black_succ_iff.mp hnear
          cases hm : f.lowered.mend s with
          | some t =>
            obtain ⟨m, ht, hfits⟩ := hs.mend hlow hba hbb hpath hm
            exact ht.plug hfits
          | none =>
            obtain ⟨hac, hbc⟩ := (Frame.mend_eq_none_iff hlow s).mp hm
            obtain ⟨m, ⟨hcolor, -⟩ | ⟨-, hdim⟩, hfits⟩ := hs.dim hlow hac hbc hba hbb hpath
            · simp [Frame.dim, Frame.lowered] at hcolor
            · refine hdim.plug ?_
              rwa [Frame.dim, recolor_branch, color_branch]
        | black =>
          rw [hac] at hf
          rw [repairRemove_of_black_sibling hsc hf]
          rw [hf] at ha
          obtain ⟨hnear, hfar⟩ := balanced_black_succ_iff.mp ha
          cases hm : f.mend s with
          | some t =>
            obtain ⟨m, ht, hfits⟩ := hs.mend hf hnear hfar hp hm
            exact ht.plug hfits
          | none =>
            obtain ⟨hnc, hfc⟩ := (Frame.mend_eq_none_iff hf s).mp hm
            obtain ⟨m, hdim, hfits⟩ := hs.dim hf hnc hfc hnear hfar hp
            exact ih hdim hfits
    · rw [repairRemove_of_red hsc]
      refine hs.plug ?_
      rwa [show (s.recolor .black).color = .black by cases s <;> rfl]

end Shape

end MeteredMap
