import Mathlib.Logic.Function.Iterate
import MeteredMap.Proofs.Tree.Removal

/-!
# Shedding

What happens to a map that only loses entries: its capacity and its sizes stay, and the memory gets
two blocks back for every entry that is gone. Reading a map, writing over its values and removing
entries are of this kind.

## Main definitions

* `MeteredMap.Tree.Sheds` : a change that took entries out and nothing else of the memory.
-/

namespace MeteredMap

namespace Tree

variable {α : Type} [Allocator α] {tree middle after : Tree} {s : Shape} {vacant : List Handle}
  {memory memory' memory'' : α} {n k : Nat} {x : Handle}

/-- So many entries are gone, with their blocks given back. The capacity and the lengths of keys
and values are as they were, and so is the comparator. -/
structure Sheds (tree : Tree) (memory : α) (n : Nat) (after : Tree) (memory' : α) : Prop where
  akin : Akin tree after
  capacity : after.nodes.capacity = tree.nodes.capacity
  size : after.size + n = tree.size
  memory : memory' = tree.releaseBlocks^[n] memory

theorem Sheds.refl (tree : Tree) (memory : α) : Sheds tree memory 0 tree memory :=
  ⟨.refl tree, rfl, rfl, rfl⟩

theorem Sheds.trans (h : Sheds tree memory n middle memory')
    (h' : Sheds middle memory' k after memory'') :
    Sheds tree memory (k + n) after memory'' where
  akin := h.akin.trans h'.akin
  capacity := h'.capacity.trans h.capacity
  size := by
    have hsize := h.size
    have hsize' := h'.size
    omega
  memory := by
    have hsame : middle.releaseBlocks (α := α) = tree.releaseBlocks :=
      funext fun m => h.akin.releaseBlocks_eq m
    rw [h'.memory, h.memory, hsame, Function.iterate_add_apply]

/-- A removal of an entry that is there sheds it. -/
theorem Sound.exists_removeAt (h : tree.Sound s vacant) (hx : x ∈ s.handles) (memory : α) :
    ∃ e next freed after t memory', tree.removeAt memory x = .ok (⟨e, next⟩, after, memory') ∧
      after.Sound t (freed :: vacant) ∧ Shape.Removes x e s.inorder freed next t.inorder ∧
      Sheds tree memory 1 after memory' := by
  obtain ⟨e, next, freed, after, t, heq, hafter, hk, hremoves, hcap⟩ := h.removeAt hx memory
  refine ⟨e, next, freed, after, t, _, heq, hafter, hremoves, hk, hcap, ?_, rfl⟩
  rw [h.size_eq, hafter.size_eq]
  exact hremoves.length

/-- A relinking of a sound tree sheds nothing. -/
theorem Relinked.sheds (h : Relinked tree after) (memory : α) :
    Sheds tree memory 0 after memory :=
  ⟨h.akin, h.nodes.capacity, h.nodes.live, rfl⟩

end Tree

end MeteredMap
