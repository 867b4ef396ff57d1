import Mathlib.Algebra.Group.Int.Defs
import MeteredMap.Proofs.Memory.Alike

/-!
# Nested budgets

A budget over a budget over a generous memory. All traffic goes through the outer one, which counts
nothing that the inner one refuses, so the counters of both stay equal. A request is granted exactly
if it fits into what remains of both.

## Main definitions

* `MeteredMap.Budget.FitsBoth` : requests that fit into what remains of both budgets.
* `MeteredMap.Budget.InStep` : the counters of both budgets are equal, and the inner one keeps to
  its limit.

## Main results

* `MeteredMap.Budget.allocate_of_fitsBoth`, `MeteredMap.Budget.allocate_of_not_fitsBoth` : one
  request.
* `MeteredMap.Budget.grantedBefore_lt_iff_of_nested` : a list of requests.
* `MeteredMap.Budget.InStep.charge`, `MeteredMap.Budget.InStep.release` : the budgets stay in step.
* `MeteredMap.Budget.le_inUse_of_traffic` : a counter that wraps around does not find its way back.
-/

namespace MeteredMap

namespace Budget

variable {β : Type} [Allocator β] {outer : Budget (Budget β)} {layout : Layout}

/-! ### Requests -/

/-- A block of so many bytes fits into what remains of both budgets. -/
def FitsBoth (outer : Budget (Budget β)) (size : Nat) : Prop :=
  size ≤ outer.remaining ∧ size ≤ outer.inner.remaining

instance (outer : Budget (Budget β)) (size : Nat) : Decidable (outer.FitsBoth size) :=
  inferInstanceAs (Decidable (_ ∧ _))

theorem allocate_of_fitsBoth (hg : Allocator.Generous outer.inner.inner)
    (h : outer.FitsBoth layout.size) :
    ∃ backing, Allocator.allocate outer layout =
        .granted (outer.charge (outer.inner.charge backing layout.size) layout.size) ∧
      Allocator.Generous backing := by
  obtain ⟨backing, heq, hbacking⟩ := allocate_of_fits hg h.2
  exact ⟨backing, by rw [allocate_eq_of_fits h.1, heq], hbacking⟩

theorem allocate_of_not_fitsBoth (h : ¬ outer.FitsBoth layout.size) :
    Allocator.allocate outer layout = .refused outer := by
  by_cases hfits : layout.size ≤ outer.remaining
  · have hnot : ¬ layout.size ≤ outer.inner.remaining := fun hle => h ⟨hfits, hle⟩
    have hinner := allocate_of_not_fits hnot
    rw [allocate_eq_of_fits hfits, hinner]
  · exact allocate_of_not_fits hfits

/-- Nested budgets over a generous memory refuse one of a list of requests exactly if together they
are larger than what remains of one of the two. -/
theorem grantedBefore_lt_iff_of_nested (hg : Allocator.Generous outer.inner.inner)
    (requests : List Layout) :
    Allocator.grantedBefore requests outer < requests.length ↔
      ¬ outer.FitsBoth (requests.map Layout.size).sum := by
  induction requests generalizing outer with
  | nil => simp [Allocator.grantedBefore, FitsBoth]
  | cons layout requests ih =>
    rw [List.map_cons, List.sum_cons, List.length_cons, Allocator.grantedBefore]
    by_cases h : outer.FitsBoth layout.size
    · obtain ⟨backing, heq, hbacking⟩ := allocate_of_fitsBoth hg h
      have hinner : (outer.charge (outer.inner.charge backing layout.size) layout.size).inner =
          outer.inner.charge backing layout.size := rfl
      have hrest := @ih (outer.charge (outer.inner.charge backing layout.size) layout.size) hbacking
      rw [FitsBoth, hinner, remaining_charge h.1, remaining_charge h.2] at hrest
      obtain ⟨houter, hinner⟩ := h
      rw [heq, FitsBoth]
      dsimp only
      omega
    · rw [allocate_of_not_fitsBoth h]
      rw [FitsBoth] at h ⊢
      dsimp only
      omega

/-! ### Counters -/

/-- The counters of both budgets are equal, and no more is in use than the inner limit allows, which
does not move. -/
structure InStep (outer : Budget (Budget β)) (innerLimit : UInt64) : Prop where
  usage : outer.usage = outer.inner.usage
  limit : outer.inner.limit = innerLimit
  inUse_le : outer.inner.inUse ≤ innerLimit

variable {innerLimit : UInt64}

omit [Allocator β] in
theorem InStep.ofInner (backing : β) (outerLimit innerLimit : UInt64) :
    (Budget.ofInner (Budget.ofInner backing innerLimit) outerLimit).InStep innerLimit :=
  ⟨rfl, rfl, by simp [Budget.ofInner]⟩

omit [Allocator β] in
/-- A block that both budgets grant. -/
theorem InStep.charge {size : Nat} (h : outer.InStep innerLimit) (hfits : outer.FitsBoth size)
    (backing : β) :
    (outer.charge (outer.inner.charge backing size) size).InStep innerLimit := by
  refine ⟨congrArg (Usage.charge · size) h.usage, h.limit, ?_⟩
  have hinUse := toNat_inUse_charge hfits.2 backing
  have hinner := hfits.2
  have hbefore := UInt64.le_iff_toNat_le.mp h.inUse_le
  rw [remaining, h.limit] at hinner
  refine UInt64.le_iff_toNat_le.mpr ?_
  show (outer.inner.charge backing size).inUse.toNat ≤ innerLimit.toNat
  omega

/-- A block in use that goes back through both budgets. -/
theorem InStep.release (h : outer.InStep innerLimit) (hle : layout.size ≤ outer.inUse.toNat) :
    (Allocator.release outer layout).InStep innerLimit := by
  refine ⟨congrArg (Usage.refund · layout.size) h.usage, h.limit, UInt64.le_iff_toNat_le.mpr ?_⟩
  have hsame : outer.inUse = outer.inner.inUse := congrArg Usage.inUse h.usage
  have hinUse := toNat_inUse_refund (hsame ▸ hle) (Allocator.release outer.inner.inner layout)
  have hbefore := UInt64.le_iff_toNat_le.mp h.inUse_le
  show (outer.inner.refund (Allocator.release outer.inner.inner layout) layout.size).inUse.toNat ≤
    innerLimit.toNat
  omega

omit [Allocator β] in
/-- The outer limit may move. -/
theorem InStep.setLimit (h : outer.InStep innerLimit) (change : LimitChange) :
    (outer.setLimit change).InStep innerLimit := by
  cases change <;> exact ⟨h.usage, h.limit, h.inUse_le⟩

end Budget

/-! ### Counters that do not wrap around -/

namespace Budget

variable {α : Type} [Allocator α] {budget after : Budget α} {gs rs : List Layout} {layout : Layout}

/-- What is in use after a block went back, modulo the size of a word. -/
private theorem inUse_release {v : Int} (h : (budget.inUse.toNat : Int) = v % 2 ^ 64) :
    ((Allocator.release budget layout).inUse.toNat : Int) = (v - layout.size) % 2 ^ 64 := by
  have hrefund : (Allocator.release budget layout).inUse =
    budget.inUse - UInt64.ofNat layout.size := rfl
  rw [hrefund, UInt64.toNat_sub, UInt64.toNat_ofNat']
  omega

/-- A counter that stands, modulo the size of a word, for a number below zero does not get back to
one above: what would have to be granted for that does not fit. -/
private theorem nonneg_of_traffic (h : Traffic budget gs rs after) {v : Int} (hv : v < 2 ^ 64)
    (hinUse : (budget.inUse.toNat : Int) = v % 2 ^ 64)
    (hlast : 0 ≤ v + (gs.map Layout.size).sum - (rs.map Layout.size).sum) : 0 ≤ v := by
  induction h generalizing v with
  | refl budget => simpa using hlast
  | @granted budget middle after layout gs rs hreply ht ih =>
    refine Int.not_lt.mp fun hneg => ?_
    obtain ⟨hfits, inner, rfl⟩ := allocate_eq_granted hreply
    have hcharge := toNat_inUse_charge hfits inner
    have hlimit := budget.limit.toNat_lt
    rw [remaining] at hfits
    rw [List.map_cons, List.sum_cons] at hlast
    have hnonneg : 0 ≤ v + layout.size := ih (by omega) (by omega) (by omega)
    omega
  | @refused budget middle after layout gs rs hreply ht ih =>
    have husage := (Traffic.refused hreply (.refl middle)).usage_eq
    rw [Usage.settle_nil] at husage
    have hsame : middle.inUse = budget.inUse := congrArg Usage.inUse husage
    exact ih hv (hsame ▸ hinUse) hlast
  | @released budget after layout gs rs ht ih =>
    rw [List.map_cons, List.sum_cons] at hlast
    have hnonneg : 0 ≤ v - layout.size := ih (by omega) (inUse_release hinUse) (by omega)
    omega

/-- A block that goes back in the course of traffic is in use, if in the end no more went back than
was in use or granted. -/
theorem le_inUse_of_traffic (h : Traffic (Allocator.release budget layout) gs rs after)
    (hle : layout.size + (rs.map Layout.size).sum ≤
      budget.inUse.toNat + (gs.map Layout.size).sum) : layout.size ≤ budget.inUse.toNat := by
  have hbound := budget.inUse.toNat_lt
  have hinUse : (budget.inUse.toNat : Int) = (budget.inUse.toNat : Int) % 2 ^ 64 := by omega
  have hnonneg := nonneg_of_traffic h (by omega) (inUse_release hinUse) (by omega)
  omega

end Budget

end MeteredMap
