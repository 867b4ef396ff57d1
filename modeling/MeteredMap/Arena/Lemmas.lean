import MeteredMap.Arena.Basic

/-!
# Arenas as finite maps

What access to an arena does to the finite map that the arena stands for. An operation on a live
handle succeeds, and says what is found at this handle and at every other one afterwards; an
operation on a handle that is not live ends in a fault.

## Main results

* `MeteredMap.Arena.get_eq_ok_iff` : reading succeeds exactly at live handles.
* `MeteredMap.Arena.get?_setSlot_self`, `MeteredMap.Arena.get?_setSlot_ne` : one slot replaced.
* `MeteredMap.Arena.modify_eq`, `MeteredMap.Arena.take_eq` : changing and taking at a live handle.
-/

namespace MeteredMap

theorem Handle.index_ne {first second : Handle} (h : first ≠ second) :
    first.index ≠ second.index := by
  intro hindex
  cases first
  cases second
  cases hindex
  exact h rfl

namespace Arena

variable {ε : Type} {arena : Arena ε} {handle other : Handle} {element : ε}

/-! ### Slots -/

variable {slots : Array (Slot ε)} {slot : Slot ε} {index : Nat}

theorem slotAt_eq (h : slots[index]? = some slot) : slotAt slots index = .ok slot := by
  rw [slotAt, h]

/-! ### Live handles -/

theorem get?_eq_some_iff :
    arena.get? handle = some element ↔ arena.slots[handle.index]? = some (.occupied element) := by
  unfold get?
  cases arena.slots[handle.index]? with
  | none => simp
  | some slot => cases slot <;> simp

theorem index_lt_of_get? (h : arena.get? handle = some element) :
    handle.index < arena.slots.size :=
  (Array.getElem?_eq_some_iff.mp (get?_eq_some_iff.mp h)).1

theorem slot_eq_of_get? (h : arena.get? handle = some element) :
    arena.slot handle = .ok (.occupied element) :=
  slotAt_eq (get?_eq_some_iff.mp h)

/-! ### Access -/

theorem get_eq_ok_iff : arena.get handle = .ok element ↔ arena.get? handle = some element := by
  unfold get get? slot slotAt
  cases arena.slots[handle.index]? with
  | none => simp [bind, Except.bind]
  | some slot =>
    cases slot <;> simp [bind, Except.bind, pure, Except.pure, throw, throwThe,
      MonadExceptOf.throw]

theorem modify_eq (change : ε → ε) (h : arena.get? handle = some element) :
    arena.modify handle change = .ok (arena.setSlot handle (.occupied (change element))) := by
  unfold modify
  rw [slot_eq_of_get? h]
  rfl

theorem take_eq (h : arena.get? handle = some element) :
    arena.take handle =
      .ok (element,
        { arena.setSlot handle (.vacant arena.free) with
          free := some handle, live := arena.live - 1 }) := by
  unfold take
  rw [slot_eq_of_get? h]
  rfl

/-! ### One slot replaced -/

theorem get?_setSlot_self (slot : Slot ε) (h : handle.index < arena.slots.size) :
    (arena.setSlot handle slot).get? handle =
      match slot with
      | .occupied element => some element
      | .vacant _ => none := by
  unfold get? setSlot
  rw [Array.getElem?_setIfInBounds_self_of_lt h]
  cases slot <;> rfl

theorem get?_setSlot_ne (slot : Slot ε) (h : other ≠ handle) :
    (arena.setSlot handle slot).get? other = arena.get? other := by
  unfold get? setSlot
  rw [Array.getElem?_setIfInBounds_ne (Handle.index_ne h).symm]

/-! ### No slot in use -/

@[simp] theorem get?_empty (slotSize : Nat) :
    (empty slotSize : Arena ε).get? handle = none := by
  simp [get?, empty]

@[simp] theorem get?_clear : arena.clear.get? handle = none := by
  simp [get?, clear]

end Arena

end MeteredMap
