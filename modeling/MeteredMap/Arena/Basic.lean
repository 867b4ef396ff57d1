import MeteredMap.Handle
import MeteredMap.Memory.Allocator

/-!
# Arenas

A slot table. An element keeps its handle for as long as it is in the table; a slot that was
emptied is chained in front of the other vacant slots, through the slots themselves, and is the
first to be used again. Slots that were never used follow the table's length.

This module holds what needs no memory; how the table grows is in `MeteredMap.Arena.Growth`.

## Main definitions

* `MeteredMap.Slot`, `MeteredMap.Arena` : slots and their table.
* `MeteredMap.Part` : parts of a table, for two slots at once.
* `MeteredMap.Arena.get?` : the finite map from handles to elements that an arena stands for.
* `MeteredMap.Arena.get`, `MeteredMap.Arena.modify`, `MeteredMap.Arena.modifyPair` : access to
  elements whose handles are live.
* `MeteredMap.Arena.place` : an element put into a slot that is at hand.
* `MeteredMap.Arena.take` : an element taken out, its slot freed.
-/

namespace MeteredMap

/-- One slot of a table. -/
inductive Slot (ε : Type) where
  /-- The slot holds an element. -/
  | occupied (element : ε)
  /-- The slot is free, and `next` is the vacant slot behind it in the chain. -/
  | vacant (next : Option Handle)

/-- A table of slots. -/
structure Arena (ε : Type) where
  /-- Bytes that one slot counts. -/
  slotSize : Nat
  /-- The slots used so far, occupied or vacant. -/
  slots : Array (Slot ε)
  /-- The head of the chain of vacant slots: the one freed last. -/
  free : Option Handle
  /-- The number of elements. -/
  live : Nat
  /-- The number of slots there is memory for. -/
  capacity : Nat

/-- A part of a table: so many slots from a place in the table on. -/
structure Part where
  start : Nat
  size : Nat

namespace Part

/-- The place in the table of the slot at an index of a part. -/
def place (part : Part) (index : Nat) : Except Fault Nat :=
  if index < part.size then .ok (part.start + index) else .error (.beyondTable part.size index)

/-- A table of `size` slots divided into those before an index and those from it on. -/
def divide (size index : Nat) : Except Fault (Part × Part) :=
  if index ≤ size then .ok (⟨0, index⟩, ⟨index, size - index⟩) else .error .splitBeyondEnd

/-- The places of two different slots, one in each part of a table that is divided at the larger
index: the slot there is the first one of the upper part. -/
def pair (size first second : Nat) : Except Fault (Nat × Nat) :=
  if first < second then do
    let (lower, upper) ← divide size second
    let first ← lower.place first
    let second ← upper.place 0
    return (first, second)
  else do
    let (lower, upper) ← divide size first
    let first ← upper.place 0
    let second ← lower.place second
    return (first, second)

end Part

namespace Arena

variable {ε : Type}

/-- An arena without slots and without memory for any. -/
def empty (slotSize : Nat) : Arena ε :=
  { slotSize, slots := #[], free := none, live := 0, capacity := 0 }

/-- Whether no slot is occupied. -/
def isEmpty (arena : Arena ε) : Bool :=
  arena.live == 0

/-- The slot at an index of a table. -/
def slotAt (slots : Array (Slot ε)) (index : Nat) : Except Fault (Slot ε) :=
  match slots[index]? with
  | some slot => .ok slot
  | none => .error (.beyondTable slots.size index)

/-- The slot of a handle. -/
def slot (arena : Arena ε) (handle : Handle) : Except Fault (Slot ε) :=
  slotAt arena.slots handle.index

/-- The arena with another slot at a handle. -/
def setSlot (arena : Arena ε) (handle : Handle) (slot : Slot ε) : Arena ε :=
  { arena with slots := arena.slots.setIfInBounds handle.index slot }

/-- The element at a handle, if the handle is live. This is the finite map that an arena stands
for. -/
def get? (arena : Arena ε) (handle : Handle) : Option ε :=
  match arena.slots[handle.index]? with
  | some (.occupied element) => some element
  | some (.vacant _) => none
  | none => none

/-- The element at a handle, which has to be live. -/
def get (arena : Arena ε) (handle : Handle) : Except Fault ε := do
  match ← arena.slot handle with
  | .occupied element => return element
  | .vacant _ => throw .vacantRead

/-- The arena with the element at a handle changed. -/
def modify (arena : Arena ε) (handle : Handle) (change : ε → ε) : Except Fault (Arena ε) := do
  match ← arena.slot handle with
  | .occupied element => return arena.setSlot handle (.occupied (change element))
  | .vacant _ => throw .vacantChange

/-- The arena with the elements at two different handles changed together. Where the two are found
is worked out from the two parts of the table. -/
def modifyPair (arena : Arena ε) (first second : Handle) (change : ε → ε → ε × ε) :
    Except Fault (Arena ε) := do
  if first.index = second.index then
    throw (.equalPair first.index)
  let (i, j) ← Part.pair arena.slots.size first.index second.index
  match ← slotAt arena.slots i with
  | .vacant _ => throw .vacantFirst
  | .occupied a =>
    match ← slotAt arena.slots j with
    | .vacant _ => throw .vacantSecond
    | .occupied b =>
      let (a, b) := change a b
      let slots := arena.slots.setIfInBounds i (.occupied a)
      return { arena with slots := slots.setIfInBounds j (.occupied b) }

/-- The arena with an element put into the slot at the head of the vacant chain or, if that is
empty, into a new slot behind the last one, for which there has to be a handle. -/
def place (arena : Arena ε) (element : ε) : Except Fault (Handle × Arena ε) := do
  match arena.free with
  | some handle =>
    match ← arena.slot handle with
    | .vacant next =>
      let arena := arena.setSlot handle (.occupied element)
      return (handle, { arena with free := next, live := arena.live + 1 })
    | .occupied _ => throw .occupiedInChain
  | none =>
    match Handle.ofIndex? arena.slots.size with
    | some handle =>
      return (handle,
        { arena with slots := arena.slots.push (.occupied element), live := arena.live + 1 })
    | none => throw .noHandleLeft

/-- The element at a handle, and the arena without it. The slot becomes the head of the vacant
chain. -/
def take (arena : Arena ε) (handle : Handle) : Except Fault (ε × Arena ε) := do
  match ← arena.slot handle with
  | .occupied element =>
    let arena := arena.setSlot handle (.vacant arena.free)
    return (element, { arena with free := some handle, live := arena.live - 1 })
  | .vacant _ => throw .vacantTake

/-- The arena without any slot in use. Its memory stays. -/
def clear (arena : Arena ε) : Arena ε :=
  { arena with slots := #[], free := none, live := 0 }

end Arena

end MeteredMap
