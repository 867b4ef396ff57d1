/-!
# Sides

Every operation on a binary tree that has a left form and a right form is written once, for a
side: rotations, repairs, walks to a neighbour and both ends of an iterator.
-/

namespace MeteredMap

/-- Left or right. -/
inductive Side where
  | left
  | right
  deriving DecidableEq, Repr

/-- The opposite side. -/
def Side.other : Side → Side
  | left => right
  | right => left

@[simp] theorem Side.other_other (s : Side) : s.other.other = s := by
  cases s <;> rfl

theorem Side.other_ne (s : Side) : s.other ≠ s := by
  cases s <;> decide

theorem Side.eq_other_of_ne {s t : Side} (h : t ≠ s) : t = s.other := by
  revert h
  cases s <;> cases t <;> decide

end MeteredMap
