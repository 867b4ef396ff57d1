import MeteredMap.Arena.Growth
import MeteredMap.Memory.Budget
import MeteredMap.Session.Transcript

/-!
# Commands to an arena

The operations of an arena as data. Handles are given as indices; one that is not live breaks the
session.

## Main definitions

* `MeteredMap.ArenaCommand`, `MeteredMap.ArenaAnswer`.
* `MeteredMap.ArenaSession` : an arena in a memory.
* `MeteredMap.ArenaSession.start`, `MeteredMap.ArenaSession.step` : the session.
-/

namespace MeteredMap

/-- A command to an arena. -/
inductive ArenaCommand (ε : Type) where
  | reserve
  /-- Make sure of room, then put an element in. -/
  | push (element : ε)
  /-- Put an element in without making sure of room. -/
  | insert (element : ε)
  | get (index : Nat)
  | set (index : Nat) (element : ε)
  /-- Exchange two elements, and show both. -/
  | swap (first second : Nat)
  | take (index : Nat)
  | clear
  | setLimit (change : LimitChange)

/-- The answer to a command to an arena. -/
inductive ArenaAnswer (ε : Type) where
  | done
  | failed (e : MapError)
  | handle (handle : Handle)
  | element (element : ε)
  | pair (first second : ε)

/-- An arena in a memory. -/
structure ArenaSession (ε α : Type) where
  arena : Arena ε
  memory : α

/-- An answer with what can be seen after it. -/
structure ArenaReport (ε : Type) where
  answer : ArenaAnswer ε
  size : Nat
  isEmpty : Bool
  capacity : Nat
  growthBytes : Option Nat
  usage : Option Usage

namespace ArenaSession

variable {ε α : Type}

/-- A session on an empty arena, with room for `capacity` elements if a capacity is given. -/
def start [Allocator α] (memory : α) (slotSize : Nat) (capacity : Option Nat) :
    Except MapError (ArenaSession ε α) := do
  match capacity with
  | none => return { arena := Arena.empty slotSize, memory }
  | some capacity =>
    let (made, memory) := Arena.withCapacity slotSize capacity memory
    return { arena := ← made, memory }

/-- Carries out a command. -/
def perform [Metered α] (command : ArenaCommand ε) (session : ArenaSession ε α) :
    Except Fault (ArenaAnswer ε × ArenaSession ε α) := do
  let ⟨arena, memory⟩ := session
  match command with
  | .reserve =>
    let ⟨result, arena, memory⟩ := arena.reserve memory
    match result with
    | .error e => return (.failed e, { arena, memory })
    | .ok () => return (.done, { arena, memory })
  | .push element =>
    let ⟨result, arena, memory⟩ := arena.reserve memory
    match result with
    | .error e => return (.failed e, { arena, memory })
    | .ok () =>
      let (handle, arena, memory) ← arena.insert memory element
      return (.handle handle, { arena, memory })
  | .insert element =>
    let (handle, arena, memory) ← arena.insert memory element
    return (.handle handle, { arena, memory })
  | .get index => return (.element (← arena.get (← Handle.ofIndex index)), session)
  | .set index element =>
    let arena ← arena.modify (← Handle.ofIndex index) fun _ => element
    return (.done, { arena, memory })
  | .swap first second =>
    let first ← Handle.ofIndex first
    let second ← Handle.ofIndex second
    let arena ← arena.modifyPair first second fun a b => (b, a)
    return (.pair (← arena.get first) (← arena.get second), { arena, memory })
  | .take index =>
    let (element, arena) ← arena.take (← Handle.ofIndex index)
    return (.element element, { arena, memory })
  | .clear => return (.done, { arena := arena.clear, memory })
  | .setLimit change => return (.done, { arena, memory := Metered.setLimit memory change })

/-- Carries out a command and reports what can be seen after it. -/
def step [Metered α] (command : ArenaCommand ε) (session : ArenaSession ε α) :
    Except Fault (ArenaReport ε × ArenaSession ε α) := do
  let (answer, session) ← session.perform command
  let arena := session.arena
  let report : ArenaReport ε :=
    { answer
      size := arena.live
      isEmpty := arena.isEmpty
      capacity := arena.capacity
      growthBytes := arena.growthBytes
      usage := Metered.usage? session.memory }
  return (report, session)

/-- The memory after the arena is no longer needed. -/
def finish [Allocator α] (session : ArenaSession ε α) : α :=
  session.arena.releaseTable session.memory

end ArenaSession

end MeteredMap
