import MeteredMap.Proofs.Memory.Exchange

/-!
# Memories that answer alike

Two memories, possibly of different kinds, with different counters and different owners of what they
have granted, may still grant and refuse the same requests, now and whatever is asked of them and
given back to them later. Which blocks may be given back matters: a budget whose limit has sunk
below what is in use grants nothing, however much it got back. So memories are compared together
with the blocks that may go back to both, and these may go back once a request was granted.

## Main definitions

* `MeteredMap.Allocator.Mirrors` : relations that requests and releases preserve.
* `MeteredMap.Allocator.Alike` : memories that stand in such a relation.

## Main results

* `MeteredMap.Budget.alike` : budgets with as many bytes remaining, over memories that are alike.
-/

namespace MeteredMap

variable {α β : Type}

namespace Allocator

/-- A relation between memories that all requests and releases preserve, so that related memories
grant and refuse the same. It depends on the blocks that may be given back to both, and on whether
a request has been granted yet: before that, nothing goes back. -/
structure Mirrors [Allocator α] [Allocator β] (R : Bool → List Layout → α → β → Prop) :
    Prop where
  allocate : ∀ {touched held a b} {layout : Layout}, R touched held a b → 0 < layout.size →
    (∃ a' b', Allocator.allocate a layout = .granted a' ∧
        Allocator.allocate b layout = .granted b' ∧ R true (layout :: held) a' b') ∨
      ∃ a' b', Allocator.allocate a layout = .refused a' ∧
        Allocator.allocate b layout = .refused b' ∧ R touched held a' b'
  release : ∀ {held a b} {layout : Layout}, R true (layout :: held) a b →
    R true held (Allocator.release a layout) (Allocator.release b layout)
  perm : ∀ {touched held held' a b}, held.Perm held' → R touched held a b → R touched held' a b

/-- Two memories that grant and refuse the same, now and later, where the blocks in `held` may be
given back to both. -/
def Alike [Allocator α] [Allocator β] (touched : Bool) (held : List Layout) (a : α) (b : β) :
    Prop :=
  ∃ R, Mirrors R ∧ R touched held a b

namespace Alike

variable [Allocator α] [Allocator β] {a : α} {b : β} {touched : Bool}
  {held held' rs : List Layout} {layout : Layout}

/-- A memory answers like itself. -/
theorem refl (touched : Bool) (held : List Layout) (a : α) : Alike touched held a a := by
  refine ⟨fun _ _ a b => a = b, ⟨?_, ?_, ?_⟩, rfl⟩
  · rintro touched held a _ layout rfl -
    cases hreply : Allocator.allocate a layout with
    | granted a' => exact Or.inl ⟨a', a', rfl, rfl, rfl⟩
    | refused a' => exact Or.inr ⟨a', a', rfl, rfl, rfl⟩
  · rintro held a _ layout rfl
    rfl
  · rintro touched held held' a b - h
    exact h

/-- A request is granted by both or refused by both. -/
theorem allocate (h : Alike touched held a b) (hpos : 0 < layout.size) :
    (∃ a' b', Allocator.allocate a layout = .granted a' ∧
        Allocator.allocate b layout = .granted b' ∧ Alike true (layout :: held) a' b') ∨
      ∃ a' b', Allocator.allocate a layout = .refused a' ∧
        Allocator.allocate b layout = .refused b' ∧ Alike touched held a' b' := by
  obtain ⟨R, hR, hab⟩ := h
  rcases hR.allocate hab hpos with ⟨a', b', ha, hb, hnext⟩ | ⟨a', b', ha, hb, hnext⟩
  · exact Or.inl ⟨a', b', ha, hb, R, hR, hnext⟩
  · exact Or.inr ⟨a', b', ha, hb, R, hR, hnext⟩

theorem perm (h : Alike touched held a b) (hperm : held.Perm held') :
    Alike touched held' a b := by
  obtain ⟨R, hR, hab⟩ := h
  exact ⟨R, hR, hR.perm hperm hab⟩

theorem release (h : Alike true (layout :: held) a b) :
    Alike true held (Allocator.release a layout) (Allocator.release b layout) := by
  obtain ⟨R, hR, hab⟩ := h
  exact ⟨R, hR, hR.release hab⟩

/-- Blocks given back one after the other. -/
theorem releases (h : Alike true (rs ++ held) a b) :
    Alike true held (rs.foldl Allocator.release a) (rs.foldl Allocator.release b) := by
  induction rs generalizing a b with
  | nil => exact h
  | cons layout rs ih => exact ih h.release

end Alike

end Allocator

namespace Budget

open Allocator

variable {budget : Budget α} {a : Budget α} {b : Budget β} {touched : Bool} {held : List Layout}
  {layout : Layout}

/-- A block given back that is in use leaves as many bytes less in use. -/
theorem toNat_inUse_refund (h : layout.size ≤ budget.inUse.toNat) (inner : α) :
    (budget.refund inner layout.size).inUse.toNat = budget.inUse.toNat - layout.size := by
  have hbound := budget.inUse.toNat_lt
  have hsize : (UInt64.ofNat layout.size).toNat = layout.size := by
    rw [UInt64.toNat_ofNat', Nat.mod_eq_of_lt (by omega)]
  rw [Budget.refund, UInt64.toNat_sub_of_le, hsize]
  rw [UInt64.le_iff_toNat_le, hsize]
  exact h

/-- The blocks are among those in use, and they fit under the limit once a request was granted. -/
private structure Carries (budget : Budget α) (touched : Bool) (held : List Layout) : Prop where
  sum_le : (held.map Layout.size).sum ≤ budget.inUse.toNat
  le_limit : touched = true → budget.inUse.toNat ≤ budget.limit.toNat

private theorem Carries.charge (h : budget.Carries touched held)
    (hfits : layout.size ≤ budget.remaining) (hpos : 0 < layout.size) (inner : α) :
    (budget.charge inner layout.size).Carries true (layout :: held) := by
  have hinUse := toNat_inUse_charge hfits inner
  have hsum := h.sum_le
  have hlimit : (budget.charge inner layout.size).limit = budget.limit := rfl
  rw [remaining] at hfits
  refine ⟨?_, fun _ => ?_⟩
  · rw [hinUse, List.map_cons, List.sum_cons]
    omega
  · rw [hinUse, hlimit]
    omega

private theorem Carries.refund (h : budget.Carries true (layout :: held)) (inner : α) :
    (budget.refund inner layout.size).Carries true held ∧
      (budget.refund inner layout.size).remaining = budget.remaining + layout.size := by
  have hsum := h.sum_le
  have hle := h.le_limit rfl
  rw [List.map_cons, List.sum_cons] at hsum
  have hinUse := toNat_inUse_refund (Nat.le_of_add_right_le hsum) inner
  have hlimit : (budget.refund inner layout.size).limit = budget.limit := rfl
  refine ⟨⟨?_, fun _ => ?_⟩, ?_⟩
  · rw [hinUse]
    omega
  · rw [hinUse, hlimit]
    omega
  · rw [remaining, remaining, hinUse, hlimit]
    omega

/-- Budgets are alike if as many bytes remain of both and the memories inside are alike. The bytes
in use, the limits and the counts may differ, as long as the blocks that may go back are in use. -/
theorem alike [Allocator α] [Allocator β] (hinner : Alike touched held a.inner b.inner)
    (hremaining : a.remaining = b.remaining)
    (ha : (held.map Layout.size).sum ≤ a.inUse.toNat)
    (hb : (held.map Layout.size).sum ≤ b.inUse.toNat)
    (hlimit : touched = true → a.inUse.toNat ≤ a.limit.toNat ∧ b.inUse.toNat ≤ b.limit.toNat) :
    Alike touched held a b := by
  refine ⟨fun touched held (a : Budget α) (b : Budget β) =>
    Alike touched held a.inner b.inner ∧ a.remaining = b.remaining ∧
      a.Carries touched held ∧ b.Carries touched held, ⟨?_, ?_, ?_⟩, hinner, hremaining,
      ⟨ha, fun ht => (hlimit ht).1⟩, ⟨hb, fun ht => (hlimit ht).2⟩⟩
  · rintro touched held a b layout ⟨hinner, hremaining, ha, hb⟩ hpos
    by_cases hfits : layout.size ≤ a.remaining
    · have hfits' : layout.size ≤ b.remaining := hremaining ▸ hfits
      simp only [Allocator.allocate, fits, decide_eq_true hfits, decide_eq_true hfits', if_true]
      rcases hinner.allocate hpos with ⟨i, j, hi, hj, hij⟩ | ⟨i, j, hi, hj, hij⟩
      · refine Or.inl ⟨_, _, by rw [hi], by rw [hj], hij, ?_, ha.charge hfits hpos i,
          hb.charge hfits' hpos j⟩
        rw [remaining_charge hfits, remaining_charge hfits', hremaining]
      · exact Or.inr ⟨{ a with inner := i }, { b with inner := j }, by rw [hi], by rw [hj], hij,
          hremaining, ⟨ha.sum_le, ha.le_limit⟩, ⟨hb.sum_le, hb.le_limit⟩⟩
    · have hfits' : ¬ layout.size ≤ b.remaining := hremaining ▸ hfits
      exact Or.inr ⟨a, b, allocate_of_not_fits hfits, allocate_of_not_fits hfits', hinner,
        hremaining, ha, hb⟩
  · rintro held a b layout ⟨hinner, hremaining, ha, hb⟩
    obtain ⟨ha', hra⟩ := ha.refund (Allocator.release a.inner layout)
    obtain ⟨hb', hrb⟩ := hb.refund (Allocator.release b.inner layout)
    have hremaining' := hra.trans ((congrArg (· + layout.size) hremaining).trans hrb.symm)
    exact ⟨hinner.release, hremaining', ha', hb'⟩
  · rintro touched held held' a b hperm ⟨hinner, hremaining, ha, hb⟩
    have hsum : (held.map Layout.size).sum = (held'.map Layout.size).sum :=
      (hperm.map Layout.size).sum_nat
    exact ⟨hinner.perm hperm, hremaining, ⟨hsum ▸ ha.sum_le, ha.le_limit⟩,
      ⟨hsum ▸ hb.sum_le, hb.le_limit⟩⟩

end Budget

end MeteredMap
