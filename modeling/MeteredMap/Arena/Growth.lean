import MeteredMap.Arena.Basic

/-!
# Growth of arenas

Where an arena's slots come from. A full table at least doubles: the memory is asked for a new
table while the old one is still held, and only then gets the old one back. What a growth will
ask for can be told beforehand (`Arena.growthBytes`).

## Main definitions

* `MeteredMap.Arena.grownCapacity` : the capacity after a growth.
* `MeteredMap.Arena.reserve` : makes sure that one more element fits.
* `MeteredMap.Arena.growthBytes` : the bytes that `reserve` would ask for.
* `MeteredMap.Arena.insert` : puts in an element, growing the table if it has to.
-/

namespace MeteredMap

namespace Arena

variable {ε α : Type}

/-- The fewest slots that a table with slots of this size grows to. -/
def leastCapacity (slotSize : Nat) : Nat :=
  if slotSize = 1 then 8 else if slotSize ≤ 1024 then 4 else 1

/-- The capacity to which a full table of `capacity` slots grows. -/
def grownCapacity (slotSize capacity : Nat) : Nat :=
  max (max (2 * capacity) (capacity + 1)) (leastCapacity slotSize)

/-- Gives the table back to the memory. A table of no bytes was never asked for. -/
def releaseTable [Allocator α] (arena : Arena ε) (memory : α) : α :=
  if arena.capacity * arena.slotSize = 0 then memory
  else Allocator.release memory ⟨arena.capacity * arena.slotSize, Layout.tableAlign⟩

/-- Replaces a full table by a larger one. The old table is held until the new one is there. -/
def grow [Allocator α] (arena : Arena ε) (memory : α) :
    Outcome (Arena ε) α (Except MapError Unit) :=
  let capacity := grownCapacity arena.slotSize arena.capacity
  match Layout.table? (capacity * arena.slotSize) with
  | none => ⟨.error .noMemory, arena, memory⟩
  | some layout =>
    match Allocator.allocate memory layout with
    | .refused memory => ⟨.error .noMemory, arena, memory⟩
    | .granted memory => ⟨.ok (), { arena with capacity }, arena.releaseTable memory⟩

/-- Whether no slot is at hand: none is vacant, and the table has none behind those in use. -/
def isFull (arena : Arena ε) : Bool :=
  arena.free.isNone && arena.slots.size == arena.capacity

/-- Makes sure that the next element needs no further memory. -/
def reserve [Allocator α] (arena : Arena ε) (memory : α) :
    Outcome (Arena ε) α (Except MapError Unit) :=
  if arena.free.isSome then
    ⟨.ok (), arena, memory⟩
  else if Handle.maxIndex < arena.slots.size then
    ⟨.error .overflow, arena, memory⟩
  else if arena.slots.size < arena.capacity then
    ⟨.ok (), arena, memory⟩
  else
    arena.grow memory

/-- The bytes that `reserve` would ask for, or nothing if the table cannot grow. It is worked out
from the number of slots in use alone, which is the capacity whenever the table is full. -/
def growthBytes (arena : Arena ε) : Option Nat :=
  if arena.free.isSome then
    some 0
  else if Handle.maxIndex < arena.slots.size then
    none
  else if arena.slots.size < arena.capacity then
    some 0
  else
    let bytes := grownCapacity arena.slotSize arena.slots.size * arena.slotSize
    if bytes < Layout.bound then some bytes else none

/-- Puts an element into the arena. The table grows if it is full, and a memory that refuses
that breaks the run; after a `reserve` there is nothing to ask for. -/
def insert [Allocator α] (arena : Arena ε) (memory : α) (element : ε) :
    Except Fault (Handle × Arena ε × α) := do
  if arena.isFull ∧ arena.slots.size ≤ Handle.maxIndex then
    let ⟨result, arena, memory⟩ := arena.grow memory
    match result with
    | .error _ => throw .growthRefused
    | .ok () =>
      let (handle, arena) ← arena.place element
      return (handle, arena, memory)
  else
    let (handle, arena) ← arena.place element
    return (handle, arena, memory)

/-- An empty arena with memory for exactly `capacity` slots. -/
def withCapacity [Allocator α] (slotSize capacity : Nat) (memory : α) :
    Except MapError (Arena ε) × α :=
  if capacity * slotSize = 0 then
    (.ok { empty slotSize with capacity }, memory)
  else
    match Layout.table? (capacity * slotSize) with
    | none => (.error .noMemory, memory)
    | some layout =>
      match Allocator.allocate memory layout with
      | .refused memory => (.error .noMemory, memory)
      | .granted memory => (.ok { empty slotSize with capacity }, memory)

end Arena

end MeteredMap
