import Mathlib.Algebra.Order.Ring.Nat
import Mathlib.Order.Monotone.Basic
import MeteredMap.Proofs.Tree.Reachability

/-!
# Heights of reachable trees

A reachable tree is low: squaring one more than its number of entries outgrows two to the power of
its height. That alone would let a tree that uses every handle be 64 levels high. It never is,
because a tree with as few nodes as its black levels allow has no red node at all, and is then only
as high as it has black levels.

## Main definitions

* `MeteredMap.Drawing.height` : the number of nodes on the longest way down.

## Main results

* `MeteredMap.Shape.Balanced.pow_le_size`, `MeteredMap.Shape.Balanced.height_le` : the fewest nodes
  of a balanced shape and the most levels.
* `MeteredMap.Shape.Balanced.height_eq` : the levels of a balanced shape with the fewest nodes.
* `MeteredMap.Tree.Reachable.height_bound` : the height of a reachable tree.
-/

namespace MeteredMap

/-- The number of nodes on the longest way from the uppermost node down. -/
def Drawing.height : Drawing → Nat
  | absent => 0
  | node _ _ left right => max left.height right.height + 1

namespace Shape

variable {s : Shape} {n : Nat}

@[simp] theorem height_drawing (s : Shape) (parent : Option Handle) :
    (s.drawing parent).height = s.height := by
  induction s generalizing parent with
  | absent => rfl
  | node c x e l r ihl ihr => rw [drawing, Drawing.height, ihl, ihr, height]

/-! ### Balanced shapes -/

/-- Every level of black nodes doubles the number of ways down. -/
theorem Balanced.pow_le_size (h : s.Balanced n) : 2 ^ n ≤ s.size + 1 := by
  induction h with
  | absent => exact Nat.le_refl 1
  | red _ _ _ _ ihl ihr =>
    rw [size_node]
    omega
  | black _ _ ihl ihr =>
    rw [size_node, Nat.pow_succ]
    omega

/-- No two red nodes follow each other on a way down. -/
theorem Balanced.height_le (h : s.Balanced n) :
    s.height ≤ 2 * n + if s.color = .red then 1 else 0 := by
  induction h with
  | absent => exact Nat.zero_le _
  | red hlc hrc _ _ ihl ihr =>
    simp only [hlc, hrc, reduceCtorEq, if_false] at ihl ihr
    simp only [height, color, if_true]
    omega
  | black _ _ ihl ihr =>
    simp only [height, color, reduceCtorEq, if_false]
    split_ifs at ihl ihr <;> omega

/-- A balanced shape with the fewest nodes has black nodes only. -/
theorem Balanced.height_eq (h : s.Balanced n) (hsize : s.size + 1 = 2 ^ n) : s.height = n := by
  induction h with
  | absent => rfl
  | red _ _ hl hr =>
    have hleft := hl.pow_le_size
    have hright := hr.pow_le_size
    rw [size_node] at hsize
    omega
  | black hl hr ihl ihr =>
    have hleft := hl.pow_le_size
    have hright := hr.pow_le_size
    rw [size_node, Nat.pow_succ] at hsize
    rw [height, ihl (by omega), ihr (by omega), Nat.max_self]

/-- A balanced shape with a black root and fewer than `2 ^ k` nodes has fewer than `2 * k` levels:
only one that has the fewest nodes can have `k` black levels. -/
theorem Balanced.height_lt_of_size_lt {k : Nat} (h : s.Balanced n) (hc : s.color = .black)
    (hk : 0 < k) (hsize : s.size < 2 ^ k) : s.height < 2 * k := by
  have hpow := h.pow_le_size
  have hle := h.height_le
  simp only [hc, reduceCtorEq, if_false] at hle
  rcases Nat.lt_or_ge n k with hn | hn
  · omega
  · have hmono : 2 ^ k ≤ 2 ^ n := Nat.pow_le_pow_right (by decide) hn
    have hpow' : 2 ^ n ≤ 2 ^ k := by omega
    have hnk : n = k := Nat.le_antisymm ((Nat.pow_le_pow_iff_right (by decide)).mp hpow') hn
    have hheight := h.height_eq (by omega)
    omega

/-- Two to the power of the height of a balanced shape with a black root. -/
theorem Balanced.pow_height_le (h : s.Balanced n) (hc : s.color = .black) :
    2 ^ s.height ≤ (s.size + 1) ^ 2 := by
  have hle := h.height_le
  simp only [hc, reduceCtorEq, if_false, Nat.add_zero] at hle
  calc 2 ^ s.height
    _ ≤ 2 ^ (n * 2) := Nat.pow_le_pow_right (by decide) (Nat.mul_comm 2 n ▸ hle)
    _ = (2 ^ n) ^ 2 := Nat.pow_mul 2 n 2
    _ ≤ (s.size + 1) ^ 2 := Nat.pow_le_pow_left h.pow_le_size 2

end Shape

/-! ### Trees -/

namespace Tree

variable {tree : Tree}

/-- The height of a reachable tree is the number of nodes on the longest way from its root down.
Two to the power of it is at most the square of one more than the number of entries, and it stays
below 64 whatever the number of entries. -/
theorem Reachable.height_bound (h : Reachable tree) :
    ∃ drawing, tree.drawing = .ok drawing ∧ tree.height = .ok drawing.height ∧
      2 ^ drawing.height ≤ (tree.size + 1) ^ 2 ∧ drawing.height < 64 := by
  obtain ⟨s, vacant, hs⟩ := h.sound
  obtain ⟨n, hn⟩ := hs.balanced
  have hmax : s.size < 2 ^ 32 := by
    have hlive := hs.wellFormed.live_le_max
    rw [hs.live_eq, Handle.maxIndex] at hlive
    omega
  refine ⟨s.drawing none, hs.hasShape.drawing, ?_, ?_, ?_⟩
  · rw [Shape.height_drawing, hs.hasShape.height]
  · rw [Shape.height_drawing, hs.size_eq]
    exact hn.pow_height_le hs.black
  · rw [Shape.height_drawing]
    exact hn.height_lt_of_size_lt hs.black (by decide) hmax

theorem Reachable.height_bound_sample :
    ∃ after memory' drawing,
      Operation.runAll sampleRun sampleTree sampleMemory = .ok (after, memory') ∧
      after.drawing = .ok drawing ∧ after.height = .ok drawing.height ∧
      2 ^ drawing.height ≤ (after.size + 1) ^ 2 ∧ drawing.height < 64 := by
  obtain ⟨after, memory', hrun, hafter⟩ :=
    Operation.exists_runAll sampleRun sampleTree_reachable sampleMemory sampleRun_permitted
  obtain ⟨drawing, hdrawing⟩ := Reachable.height_bound hafter
  exact ⟨after, memory', drawing, hrun, hdrawing⟩

end Tree

end MeteredMap
