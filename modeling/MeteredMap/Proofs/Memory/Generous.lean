import Mathlib.Algebra.GroupWithZero.Nat
import MeteredMap.Proofs.Memory.Traffic

/-!
# Budgets over generous memories

A memory is *generous* if it grants every request, now and whatever is asked of it and given back
to it later. A budget over such a memory decides alone: it grants requests one after the other as
long as their sizes together fit into what remains of it.

## Main definitions

* `MeteredMap.Allocator.Generous` : memories that grant every request.

## Main results

* `MeteredMap.Budget.remaining_charge` : what remains of a budget after a request.
* `MeteredMap.Budget.allocate_of_fits`, `MeteredMap.Budget.allocate_of_not_fits` : one request.
* `MeteredMap.Budget.grantedBefore_lt_iff` : a list of requests.
-/

namespace MeteredMap

variable {α : Type}

namespace Budget

variable {budget : Budget α} {size : Nat}

/-- What fits is added to the bytes in use without wrapping around. -/
theorem toNat_inUse_charge (h : size ≤ budget.remaining) (inner : α) :
    (budget.charge inner size).inUse.toNat = budget.inUse.toNat + size := by
  have hlimit := budget.limit.toNat_lt
  have hinUse := budget.inUse.toNat_lt
  rw [remaining] at h
  have hsum : budget.inUse.toNat + size < 2 ^ 64 := by omega
  have hsize : size < 2 ^ 64 := by omega
  rw [charge, UInt64.toNat_add, UInt64.toNat_ofNat', Nat.mod_eq_of_lt hsize,
    Nat.mod_eq_of_lt hsum]

theorem remaining_charge (h : size ≤ budget.remaining) (inner : α) :
    (budget.charge inner size).remaining = budget.remaining - size := by
  rw [remaining, toNat_inUse_charge h, remaining]
  exact Nat.sub_add_eq _ _ _

end Budget

/-! ### Generous memories -/

variable [Allocator α] {memory : α}

/-- The memory grants every request, now and whatever is asked of it and given back to it later. -/
def Allocator.Generous (memory : α) : Prop :=
  ∃ kept : α → Prop, kept memory ∧
    (∀ m layout, kept m → ∃ m', Allocator.allocate m layout = .granted m' ∧ kept m') ∧
    ∀ m layout, kept m → kept (Allocator.release m layout)

theorem Allocator.Generous.allocate (h : Allocator.Generous memory) (layout : Layout) :
    ∃ after, Allocator.allocate memory layout = .granted after ∧ Allocator.Generous after := by
  obtain ⟨kept, hmemory, hallocate, hrelease⟩ := h
  obtain ⟨after, heq, hafter⟩ := hallocate memory layout hmemory
  exact ⟨after, heq, kept, hafter, hallocate, hrelease⟩

/-- The memory at the bottom is generous unless it has a ceiling. -/
theorem Heap.generous : Allocator.Generous (⟨none⟩ : Heap) := by
  refine ⟨(· = ⟨none⟩), rfl, ?_, fun _ _ h => h⟩
  rintro m layout rfl
  exact ⟨_, rfl, rfl⟩

namespace Budget

variable {budget : Budget α} {layout : Layout}

/-- What fits is for the inner memory to decide. -/
theorem allocate_eq_of_fits (h : layout.size ≤ budget.remaining) :
    Allocator.allocate budget layout =
      match Allocator.allocate budget.inner layout with
      | .granted inner => .granted (budget.charge inner layout.size)
      | .refused inner => .refused { budget with inner } :=
  if_pos (decide_eq_true h)

theorem allocate_of_fits (hg : Allocator.Generous budget.inner)
    (h : layout.size ≤ budget.remaining) :
    ∃ inner, Allocator.allocate budget layout = .granted (budget.charge inner layout.size) ∧
      Allocator.Generous inner := by
  obtain ⟨inner, heq, hinner⟩ := hg.allocate layout
  exact ⟨inner, by rw [allocate_eq_of_fits h, heq], hinner⟩

theorem allocate_of_not_fits (h : ¬ layout.size ≤ budget.remaining) :
    Allocator.allocate budget layout = .refused budget := by
  simp only [Allocator.allocate, fits, decide_eq_false h, Bool.false_eq_true, if_false]

/-- A budget over a generous memory refuses one of a list of requests exactly if together they are
larger than what remains of it. -/
theorem grantedBefore_lt_iff (hg : Allocator.Generous budget.inner) (requests : List Layout) :
    Allocator.grantedBefore requests budget < requests.length ↔
      budget.remaining < (requests.map Layout.size).sum := by
  induction requests generalizing budget with
  | nil => simp [Allocator.grantedBefore]
  | cons layout requests ih =>
    rw [List.map_cons, List.sum_cons, List.length_cons, Allocator.grantedBefore]
    by_cases h : layout.size ≤ budget.remaining
    · obtain ⟨inner, heq, hinner⟩ := allocate_of_fits hg h
      have hrest := ih (show Allocator.Generous (budget.charge inner layout.size).inner from hinner)
      rw [remaining_charge h] at hrest
      rw [heq]
      dsimp only
      omega
    · rw [allocate_of_not_fits h]
      dsimp only
      omega

end Budget

end MeteredMap
