import MeteredMap.Proofs.Shape.Basic

/-!
# Balanced shapes

The colour rules of a red-black tree: no red node has a red child, and all ways down from a node
to an absent child meet the same number of black nodes. A shape that keeps them is *balanced*, at
the height that counts its black nodes on a way down.

A path *fits* a black height if a balanced shape of that height can be put into its place; one
that fits red shapes fits black ones as well.

## Main definitions

* `MeteredMap.Shape.Balanced` : the colour rules, with the black height.
* `MeteredMap.Shape.Fits` : paths around the place of a balanced shape.

## Main results

* `MeteredMap.Shape.Balanced.plug`, `MeteredMap.Shape.Balanced.unplug` : a shape around a place is
  balanced with a black root exactly if the place is filled with a balanced shape that fits.
-/

namespace MeteredMap

namespace Shape

/-- The colour rules, with the number of black nodes on every way down. -/
inductive Balanced : Shape → Nat → Prop
  | absent : Balanced absent 0
  | red {x : Handle} {e : Entry} {l r : Shape} {n : Nat} (hlc : l.color = .black)
      (hrc : r.color = .black) (hl : Balanced l n) (hr : Balanced r n) :
      Balanced (node .red x e l r) n
  | black {x : Handle} {e : Entry} {l r : Shape} {n : Nat} (hl : Balanced l n)
      (hr : Balanced r n) : Balanced (node .black x e l r) (n + 1)

/-- A balanced shape of black height `n` can be put into the place of the path if it is black, or
if it has the colour `c`. The root has to be black. -/
inductive Fits : List Frame → Color → Nat → Prop
  | root (n : Nat) : Fits [] .black n
  | red {f : Frame} {path : List Frame} {n : Nat} (hf : f.color = .red)
      (hc : f.aside.color = .black) (ha : f.aside.Balanced n) (hp : Fits path .red n) :
      Fits (f :: path) .black n
  | black {f : Frame} {path : List Frame} {n : Nat} (c : Color) (hf : f.color = .black)
      (ha : f.aside.Balanced n) (hp : Fits path .black (n + 1)) : Fits (f :: path) c n

variable {side : Side} {c : Color} {x : Handle} {e : Entry} {a b s : Shape} {n : Nat}
  {f : Frame} {path : List Frame}

/-! ### Branches -/

@[simp] theorem balanced_absent_iff : absent.Balanced n ↔ n = 0 := by
  constructor
  · intro h
    cases h
    rfl
  · rintro rfl
    exact .absent

theorem balanced_red_iff : (branch side .red x e a b).Balanced n ↔
    (a.color = .black ∧ b.color = .black) ∧ a.Balanced n ∧ b.Balanced n := by
  constructor
  · intro h
    cases side <;> cases h <;> simp_all
  · rintro ⟨⟨hac, hbc⟩, ha, hb⟩
    cases side
    · exact .red hac hbc ha hb
    · exact .red hbc hac hb ha

theorem balanced_black_iff : (branch side .black x e a b).Balanced n ↔
    ∃ m, n = m + 1 ∧ a.Balanced m ∧ b.Balanced m := by
  constructor
  · intro h
    cases side <;> cases h <;> simp_all
  · rintro ⟨m, rfl, ha, hb⟩
    cases side
    · exact .black ha hb
    · exact .black hb ha

theorem balanced_black_succ_iff : (branch side .black x e a b).Balanced (n + 1) ↔
    a.Balanced n ∧ b.Balanced n := by
  simp [balanced_black_iff]

/-- A shape of positive black height is there. -/
theorem Balanced.ne_absent (h : s.Balanced (n + 1)) : s ≠ Shape.absent := by
  rintro rfl
  cases h

theorem Balanced.recolor_black (h : s.Balanced n) : ∃ m, (s.recolor .black).Balanced m := by
  cases h with
  | absent => exact ⟨0, .absent⟩
  | red _ _ hl hr => exact ⟨_, .black hl hr⟩
  | black hl hr => exact ⟨_, .black hl hr⟩

/-! ### Paths -/

theorem Fits.toBlack (h : Fits path c n) : Fits path .black n := by
  cases h with
  | root n => exact .root n
  | red hf hc ha hp => exact .red hf hc ha hp
  | black c hf ha hp => exact .black _ hf ha hp

/-- A frame around a balanced shape that fits. -/
theorem Balanced.fill (hs : s.Balanced n) (hp : Fits (f :: path) s.color n) :
    ∃ m, (f.fill s).Balanced m ∧ Fits path (f.fill s).color m := by
  generalize hc : s.color = c at hp
  cases hp with
  | red hf hac ha hp =>
    refine ⟨n, ?_, ?_⟩
    · rw [Frame.fill, hf]
      exact balanced_red_iff.mpr ⟨⟨hc, hac⟩, hs, ha⟩
    · rwa [Frame.fill, color_branch, hf]
  | black _ hf ha hp =>
    refine ⟨n + 1, ?_, ?_⟩
    · rw [Frame.fill, hf]
      exact balanced_black_succ_iff.mpr ⟨hs, ha⟩
    · rwa [Frame.fill, color_branch, hf]

/-- What is put into a place that it fits makes a balanced shape with a black root. -/
theorem Balanced.plug (hs : s.Balanced n) (hp : Fits path s.color n) :
    (plug path s).color = .black ∧ ∃ m, (plug path s).Balanced m := by
  induction path generalizing s n with
  | nil =>
    generalize hc : s.color = c at hp
    cases hp
    exact ⟨hc, n, hs⟩
  | cons f path ih =>
    obtain ⟨m, hm, hfits⟩ := hs.fill hp
    exact ih hm hfits

/-- What is found in a place of a balanced shape with a black root is balanced and fits. -/
theorem Balanced.unplug (hs : (Shape.plug path s).Balanced n)
    (hc : (Shape.plug path s).color = .black) : ∃ m, s.Balanced m ∧ Fits path s.color m := by
  induction path generalizing s with
  | nil =>
    refine ⟨n, hs, ?_⟩
    rw [show s.color = .black from hc]
    exact .root n
  | cons f path ih =>
    obtain ⟨m, hm, hfits⟩ := ih hs hc
    rw [Frame.fill, color_branch] at hfits
    cases hfc : f.color with
    | red =>
      rw [Frame.fill, hfc] at hm
      rw [hfc] at hfits
      obtain ⟨⟨hsc, hac⟩, hs, ha⟩ := balanced_red_iff.mp hm
      exact ⟨m, hs, hsc ▸ .red hfc hac ha hfits⟩
    | black =>
      rw [Frame.fill, hfc] at hm
      rw [hfc] at hfits
      obtain ⟨k, rfl, hs, ha⟩ := balanced_black_iff.mp hm
      exact ⟨k, hs, .black _ hfc ha hfits⟩

end Shape

end MeteredMap
