import MeteredMap.Tree.Basic

/-!
# Footprints

What a tree says about memory without asking for any: what its entries take up, what the next
insertion will ask for, and whether the memory announces that it would grant it.

## Main definitions

* `MeteredMap.Tree.entryFootprint`, `MeteredMap.Tree.memoryUsage` : what is taken up.
* `MeteredMap.Tree.insertFootprint` : what the next insertion asks for.
* `MeteredMap.Tree.canPerform` : whether the memory would grant that much.
-/

namespace MeteredMap

namespace Tree

/-- Bytes that one entry counts: its node, its key and its value. -/
def entryFootprint (tree : Tree) : Nat :=
  Node.footprint + tree.keySize + tree.valueSize

/-- Bytes that an empty map counts itself, without its memory and its comparator. -/
def ownFootprint : Nat := 80

/-- Bytes that a map counts, itself and all its entries, as a 64-bit word. -/
def memoryUsage (α : Type) [Allocator α] (tree : Tree) : Nat :=
  (ownFootprint + Allocator.footprint α + tree.comparator.footprint
    + tree.size * tree.entryFootprint) % UInt64.size

/-- Bytes that the next insertion asks for: a key block, a value block and either the growth of
the slot table or, while a slot is at hand, one node. Nothing if the table cannot grow or the sum
is no 64-bit word. -/
def insertFootprint (tree : Tree) : Option Nat := do
  let growth ← tree.nodes.growthBytes
  let bytes := tree.keySize + tree.valueSize + if growth = 0 then Node.footprint else growth
  if bytes < UInt64.size then some bytes else none

/-- Whether the memory announces room for an insertion, and for `required` bytes if that is more,
in one block. -/
def canPerform {α : Type} [Allocator α] (tree : Tree) (memory : α) (required : Nat) : Bool :=
  match tree.insertFootprint with
  | none => false
  | some needed =>
    match Layout.block (max needed required) with
    | .error _ => false
    | .ok layout => Allocator.canAllocate memory layout

end Tree

end MeteredMap
