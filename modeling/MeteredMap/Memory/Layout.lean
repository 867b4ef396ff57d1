import MeteredMap.Error

/-!
# Layouts

The size and the alignment of a request for memory. An object spans at most `2 ^ 63 - 1` bytes,
also after its size was rounded up to its alignment.

## Main definitions

* `MeteredMap.Layout` : size and alignment.
* `MeteredMap.Layout.ofSizeAlign?` : the layout of a size and an alignment, if it is valid.
* `MeteredMap.Layout.block` : the layout of a key or value block.
* `MeteredMap.Layout.table?` : the layout of a slot table.
-/

namespace MeteredMap

/-- What is asked of a memory: so many bytes, at a multiple of the alignment. -/
structure Layout where
  size : Nat
  align : Nat
  deriving DecidableEq, Repr

namespace Layout

/-- One more than the largest number of bytes that an object may span: `2 ^ 63`. -/
def bound : Nat := 0x8000000000000000

/-- The alignment of key and value blocks: one machine word. -/
def blockAlign : Nat := 8

/-- The layout of `size` bytes aligned to `align`. The alignment has to be a power of two, and
the size rounded up to it must not pass `2 ^ 63 - 1`. -/
def ofSizeAlign? (size align : Nat) : Option Layout :=
  if align = 1 <<< align.log2 ∧ size + align ≤ bound then some ⟨size, align⟩ else none

/-- The layout of a block for `size` bytes of a key or a value. -/
def block (size : Nat) : Except MapError Layout :=
  match ofSizeAlign? size blockAlign with
  | some layout => .ok layout
  | none => .error (.invalidArgument .blockTooLarge)

/-- The alignment of slot tables: that of the slots of a tree, one machine word. Slots of smaller
elements could do with less, but a memory counts bytes and no alignment. -/
def tableAlign : Nat := 8

/-- The layout of a slot table of `bytes` bytes. A table is a whole number of slots and a slot a
whole number of alignments, so rounding adds nothing, and only the size itself can be too large. -/
def table? (bytes : Nat) : Option Layout :=
  if bytes < bound then some ⟨bytes, tableAlign⟩ else none

theorem block_eq_ok_iff {size : Nat} {layout : Layout} :
    block size = .ok layout ↔ size + 8 ≤ bound ∧ layout = ⟨size, 8⟩ := by
  have hpow : (8 : Nat) = 1 <<< Nat.log2 8 := by decide
  unfold block ofSizeAlign? blockAlign
  by_cases h : size + 8 ≤ bound
  · rw [if_pos ⟨hpow, h⟩]
    constructor
    · intro heq
      cases heq
      exact ⟨h, rfl⟩
    · rintro ⟨_, rfl⟩
      rfl
  · rw [if_neg (fun both => h both.2)]
    constructor
    · intro heq
      cases heq
    · intro both
      exact absurd both.1 h

theorem table?_eq_some_iff {bytes : Nat} {layout : Layout} :
    table? bytes = some layout ↔ bytes < bound ∧ layout = ⟨bytes, 8⟩ := by
  unfold table? tableAlign
  by_cases h : bytes < bound
  · rw [if_pos h]
    constructor
    · intro heq
      cases heq
      exact ⟨h, rfl⟩
    · rintro ⟨_, rfl⟩
      rfl
  · rw [if_neg h]
    constructor
    · intro heq
      cases heq
    · intro both
      exact absurd both.1 h

end Layout

end MeteredMap
