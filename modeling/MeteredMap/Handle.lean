import MeteredMap.Fault

/-!
# Handles

A handle names a slot of a slot table by its index. Handles are 32-bit numbers of which one is
kept back to stand for "no handle", so the largest index is `2 ^ 32 - 2`; the bound is part of
the type.

## Main definitions

* `MeteredMap.Handle` : the index of a slot, with its bound.
* `MeteredMap.Handle.ofIndex?` : the handle of an index, where there is one.
-/

namespace MeteredMap

/-- The index of a slot. -/
structure Handle where
  /-- The position of the slot in its table. -/
  index : Nat
  /-- No index passes the largest one. -/
  index_le : index ≤ 4294967294
  deriving DecidableEq

namespace Handle

/-- The largest index that a handle can have. -/
def maxIndex : Nat := 4294967294

/-- The handle of an index, or nothing once the indices are used up. -/
def ofIndex? (index : Nat) : Option Handle :=
  if h : index ≤ maxIndex then some ⟨index, h⟩ else none

/-- The handle of an index that the caller promises to be small enough. -/
def ofIndex (index : Nat) : Except Fault Handle :=
  match ofIndex? index with
  | some handle => .ok handle
  | none => .error .handleTooLarge

theorem ofIndex?_index (handle : Handle) : ofIndex? handle.index = some handle := by
  have h : handle.index ≤ maxIndex := handle.index_le
  simp [ofIndex?, h]

theorem ofIndex?_eq_none_iff (index : Nat) : ofIndex? index = none ↔ maxIndex < index := by
  by_cases h : index ≤ maxIndex
  · simp [ofIndex?, h]
  · simp [ofIndex?, h, Nat.lt_of_not_le h]

end Handle

end MeteredMap
