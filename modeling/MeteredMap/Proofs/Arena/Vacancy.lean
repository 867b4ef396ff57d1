import Mathlib.Data.List.Nodup
import MeteredMap.Arena.Growth
import MeteredMap.Arena.Lemmas
import MeteredMap.Proofs.Steps

/-!
# Vacant slots

The vacant slots of an arena are chained, each to the one that was freed before it. An arena is
*well formed* with a list of handles if the chain runs through exactly these handles and ends, if
every vacant slot is among them, and if the counters agree with the slots. What an operation does
to the list says which slot the next element goes to.

## Main definitions

* `MeteredMap.Arena.revise` : the element at a handle changed, if there is one.
* `MeteredMap.Arena.Kept` : the same slots are vacant in the same chain.
* `MeteredMap.Arena.WellFormed` : the chain of vacant slots and the counters of an arena.
* `MeteredMap.Arena.HasRoom` : the next element needs no further memory.

## Main results

* `MeteredMap.Arena.WellFormed.insert_eq`, `MeteredMap.Arena.WellFormed.take` : where an element
  goes, and which slot it leaves.
* `MeteredMap.Arena.reserve_cases` : all that a reservation can do.
* `MeteredMap.Arena.growthBytes_of_hasRoom`, `MeteredMap.Arena.growthBytes_of_full` : what an arena
  foretells of it.
-/

namespace MeteredMap

/-! ### Parts of tables -/

namespace Part

variable {size first second index place : Nat} {lower upper : Part} {places : Nat × Nat}

theorem divide_eq (h : index ≤ size) :
    divide size index = .ok (⟨0, index⟩, ⟨index, size - index⟩) :=
  if_pos h

theorem place_eq (part : Part) (h : index < part.size) :
    part.place index = .ok (part.start + index) :=
  if_pos h

/-- Whichever of two slots lies in the upper part, the places come in the order of the indices. -/
theorem pair_eq (hne : first ≠ second) (hfirst : first < size) (hsecond : second < size) :
    pair size first second = .ok (first, second) := by
  rcases Nat.lt_or_gt_of_ne hne with hlt | hgt
  · have hupper : 0 < (Part.mk second (size - second)).size := Nat.sub_pos_of_lt hsecond
    rw [pair, if_pos hlt, divide_eq (Nat.le_of_lt hsecond), ok_bind]
    simp only [place_eq _ hupper, place_eq ⟨0, second⟩ hlt, ok_bind, Nat.zero_add,
      Nat.add_zero, pure_eq_ok]
  · have hupper : 0 < (Part.mk first (size - first)).size := Nat.sub_pos_of_lt hfirst
    rw [pair, if_neg (Nat.not_lt.mpr (Nat.le_of_lt hgt)), divide_eq (Nat.le_of_lt hfirst), ok_bind]
    simp only [place_eq _ hupper, place_eq ⟨0, first⟩ hgt, ok_bind, Nat.zero_add,
      Nat.add_zero, pure_eq_ok]

/-- The upper part has a first slot only if the table was divided before its end. -/
theorem lt_of_divide (h : divide size index = .ok (lower, upper))
    (hplace : upper.place 0 = .ok place) : index < size := by
  rw [divide] at h
  split at h
  · cases h
    rw [Part.place] at hplace
    split at hplace
    · next hpos => exact Nat.lt_of_sub_pos hpos
    · cases hplace
  · cases h

/-- There are places for two slots only where both are in the table. -/
theorem lt_of_pair (h : pair size first second = .ok places) : first < size ∧ second < size := by
  rw [pair] at h
  split at h
  · next hlt =>
    obtain ⟨⟨lower, upper⟩, hdivide, h⟩ := bind_eq_ok_iff.mp h
    obtain ⟨i, -, h⟩ := bind_eq_ok_iff.mp h
    obtain ⟨j, hj, -⟩ := bind_eq_ok_iff.mp h
    have hsecond := lt_of_divide hdivide hj
    exact ⟨Nat.lt_trans hlt hsecond, hsecond⟩
  · next hle =>
    obtain ⟨⟨lower, upper⟩, hdivide, h⟩ := bind_eq_ok_iff.mp h
    obtain ⟨i, hi, -⟩ := bind_eq_ok_iff.mp h
    have hfirst := lt_of_divide hdivide hi
    exact ⟨hfirst, Nat.lt_of_le_of_lt (Nat.not_lt.mp hle) hfirst⟩

end Part

namespace Arena

variable {ε α : Type} {arena before after : Arena ε} {x y : Handle} {element : ε}

/-! ### Elements changed in place -/

/-- The arena with the element at a handle changed, if the handle is live. -/
def revise (arena : Arena ε) (handle : Handle) (change : ε → ε) : Arena ε :=
  match arena.get? handle with
  | some element => arena.setSlot handle (.occupied (change element))
  | none => arena

theorem revise_eq (change : ε → ε) (h : arena.get? x = some element) :
    arena.revise x change = arena.setSlot x (.occupied (change element)) := by
  rw [revise, h]

theorem modify_eq_revise (change : ε → ε) (h : arena.get? x = some element) :
    arena.modify x change = .ok (arena.revise x change) := by
  rw [modify_eq change h, revise_eq change h]

theorem get?_revise (arena : Arena ε) (x y : Handle) (change : ε → ε) :
    (arena.revise x change).get? y = if y = x then (arena.get? x).map change else arena.get? y := by
  unfold revise
  cases h : arena.get? x with
  | none =>
    split_ifs with hyx
    · rw [hyx, h]
      rfl
    · rfl
  | some element =>
    split_ifs with hyx
    · rw [hyx, get?_setSlot_self _ (index_lt_of_get? h)]
      rfl
    · exact get?_setSlot_ne _ hyx

@[simp] theorem get?_revise_self (arena : Arena ε) (x : Handle) (change : ε → ε) :
    (arena.revise x change).get? x = (arena.get? x).map change := by
  rw [get?_revise, if_pos rfl]

theorem get?_revise_ne (change : ε → ε) (h : y ≠ x) :
    (arena.revise x change).get? y = arena.get? y := by
  rw [get?_revise, if_neg h]

/-- Two elements changed together are changed one after the other, whichever handle is larger. -/
theorem modifyPair_eq_revise {a b : ε} (hxy : x ≠ y) (ha : arena.get? x = some a)
    (hb : arena.get? y = some b) (change : ε → ε → ε × ε) :
    arena.modifyPair x y change =
      .ok ((arena.revise x fun _ => (change a b).1).revise y fun _ => (change a b).2) := by
  have hb' : (arena.setSlot x (.occupied (change a b).1)).get? y = some b := by
    rw [get?_setSlot_ne _ hxy.symm, hb]
  rw [revise_eq _ ha, revise_eq _ hb', modifyPair, if_neg (Handle.index_ne hxy)]
  simp only [Part.pair_eq (Handle.index_ne hxy) (index_lt_of_get? ha) (index_lt_of_get? hb),
    ok_bind, slotAt_eq (get?_eq_some_iff.mp ha), slotAt_eq (get?_eq_some_iff.mp hb)]
  rfl

/-! ### The chain of vacant slots -/

/-- The link of a vacant slot: the vacant slot behind it in the chain, if there is one. -/
def link? (arena : Arena ε) (handle : Handle) : Option (Option Handle) :=
  match arena.slots[handle.index]? with
  | some (.vacant next) => some next
  | some (.occupied _) => none
  | none => none

theorem link?_eq_some_iff {next : Option Handle} :
    arena.link? x = some next ↔ arena.slots[x.index]? = some (.vacant next) := by
  unfold link?
  cases arena.slots[x.index]? with
  | none => simp
  | some slot => cases slot <;> simp

theorem slot_eq_of_link? {next : Option Handle} (h : arena.link? x = some next) :
    arena.slot x = .ok (.vacant next) :=
  slotAt_eq (link?_eq_some_iff.mp h)

theorem index_lt_of_link? {next : Option Handle} (h : arena.link? x = some next) :
    x.index < arena.slots.size :=
  (Array.getElem?_eq_some_iff.mp (link?_eq_some_iff.mp h)).1

theorem get?_of_link? {next : Option Handle} (h : arena.link? x = some next) :
    arena.get? x = none := by
  rw [get?, link?_eq_some_iff.mp h]

theorem link?_of_get? (h : arena.get? x = some element) : arena.link? x = none := by
  rw [link?, get?_eq_some_iff.mp h]

theorem link?_setSlot_self (slot : Slot ε) (h : x.index < arena.slots.size) :
    (arena.setSlot x slot).link? x =
      match slot with
      | .vacant next => some next
      | .occupied _ => none := by
  unfold link? setSlot
  rw [Array.getElem?_setIfInBounds_self_of_lt h]
  cases slot <;> rfl

theorem link?_setSlot_ne (slot : Slot ε) (h : y ≠ x) :
    (arena.setSlot x slot).link? y = arena.link? y := by
  unfold link? setSlot
  rw [Array.getElem?_setIfInBounds_ne (Handle.index_ne h).symm]

/-- The chain that starts at `head` runs through exactly the handles of the list and ends. -/
def Chain (arena : Arena ε) : Option Handle → List Handle → Prop
  | head, [] => head = none
  | head, x :: vacant => head = some x ∧ ∃ next, arena.link? x = some next ∧ arena.Chain next vacant

theorem Chain.congr {head : Option Handle} {vacant : List Handle}
    (h : before.Chain head vacant) (hlink : ∀ x ∈ vacant, after.link? x = before.link? x) :
    after.Chain head vacant := by
  induction vacant generalizing head with
  | nil => exact h
  | cons x vacant ih =>
    obtain ⟨hhead, next, hnext, hrest⟩ := h
    refine ⟨hhead, next, ?_, ih hrest fun y hy => hlink y (List.mem_cons_of_mem x hy)⟩
    rw [hlink x List.mem_cons_self, hnext]

theorem Chain.link?_isSome {head : Option Handle} {vacant : List Handle}
    (h : arena.Chain head vacant) (hx : x ∈ vacant) : ∃ next, arena.link? x = some next := by
  induction vacant generalizing head with
  | nil => cases hx
  | cons y vacant ih =>
    obtain ⟨-, next, hnext, hrest⟩ := h
    rcases List.mem_cons.mp hx with rfl | hx
    · exact ⟨next, hnext⟩
    · exact ih hrest hx

/-- The same slots are vacant, in the same chain, and there is the same memory. -/
structure Kept (before after : Arena ε) : Prop where
  slotSize : after.slotSize = before.slotSize
  size : after.slots.size = before.slots.size
  free : after.free = before.free
  live : after.live = before.live
  capacity : after.capacity = before.capacity
  link? : ∀ x, after.link? x = before.link? x

theorem Kept.refl (arena : Arena ε) : Kept arena arena :=
  ⟨rfl, rfl, rfl, rfl, rfl, fun _ => rfl⟩

theorem Kept.trans {middle : Arena ε} (h : Kept before middle) (h' : Kept middle after) :
    Kept before after :=
  ⟨h'.slotSize.trans h.slotSize, h'.size.trans h.size, h'.free.trans h.free, h'.live.trans h.live,
    h'.capacity.trans h.capacity, fun x => (h'.link? x).trans (h.link? x)⟩

/-- An element put over another one. -/
theorem Kept.setSlot (h : arena.get? x = some element) (element' : ε) :
    Kept arena (arena.setSlot x (.occupied element')) := by
  refine ⟨rfl, Array.size_setIfInBounds, rfl, rfl, rfl, fun y => ?_⟩
  by_cases hyx : y = x
  · rw [hyx, link?_setSlot_self _ (index_lt_of_get? h), link?_of_get? h]
  · exact link?_setSlot_ne _ hyx

theorem Kept.revise (arena : Arena ε) (x : Handle) (change : ε → ε) :
    Kept arena (arena.revise x change) := by
  unfold Arena.revise
  cases h : arena.get? x with
  | none => exact .refl arena
  | some element => exact .setSlot h (change element)

theorem isSome_get?_iff :
    (arena.get? x).isSome ↔ x.index < arena.slots.size ∧ arena.link? x = none := by
  unfold get? link?
  cases h : arena.slots[x.index]? with
  | none =>
    have hle := Array.getElem?_eq_none_iff.mp h
    simpa using hle
  | some slot =>
    have hlt := (Array.getElem?_eq_some_iff.mp h).1
    cases slot <;> simp [hlt]

/-- The same handles are live. -/
theorem Kept.isSome_get? (h : Kept before after) (x : Handle) :
    (after.get? x).isSome ↔ (before.get? x).isSome := by
  rw [isSome_get?_iff, isSome_get?_iff, h.size, h.link?]

/-- The chain runs through exactly the vacant slots, once through each, and the counters agree
with the slots. -/
structure WellFormed (arena : Arena ε) (vacant : List Handle) : Prop where
  chain : arena.Chain arena.free vacant
  nodup : vacant.Nodup
  complete : ∀ x next, arena.link? x = some next → x ∈ vacant
  live_add : arena.live + vacant.length = arena.slots.size
  size_le_capacity : arena.slots.size ≤ arena.capacity
  size_le_max : arena.slots.size ≤ Handle.maxIndex + 1

namespace WellFormed

variable {vacant : List Handle}

theorem kept (h : before.WellFormed vacant) (hk : Kept before after) :
    after.WellFormed vacant where
  chain := by
    rw [hk.free]
    exact h.chain.congr fun x _ => hk.link? x
  nodup := h.nodup
  complete x next hx := h.complete x next (hk.link? x ▸ hx)
  live_add := by rw [hk.live, hk.size, h.live_add]
  size_le_capacity := by
    rw [hk.size, hk.capacity]
    exact h.size_le_capacity
  size_le_max := by
    rw [hk.size]
    exact h.size_le_max

theorem live_le_size (h : arena.WellFormed vacant) : arena.live ≤ arena.slots.size := by
  have := h.live_add
  omega

theorem live_le_max (h : arena.WellFormed vacant) : arena.live ≤ Handle.maxIndex + 1 :=
  Nat.le_trans h.live_le_size h.size_le_max

/-- Without a vacant slot, all slots in use are occupied. -/
theorem live_eq_size (h : arena.WellFormed vacant) (hfree : arena.free = none) :
    arena.live = arena.slots.size := by
  have hchain := h.chain
  cases vacant with
  | nil => simpa using h.live_add
  | cons x vacant =>
    obtain ⟨hhead, -⟩ := hchain
    simp [hfree] at hhead

/-- Where as many slots are occupied as there is memory for, none is vacant. -/
theorem vacant_eq_nil (h : arena.WellFormed vacant) (hfull : arena.capacity ≤ arena.live) :
    vacant = [] := by
  have hadd := h.live_add
  have hle := h.size_le_capacity
  exact List.length_eq_zero_iff.mp (by omega)

/-- An arena without slots. -/
theorem ofUnused (slotSize capacity : Nat) :
    WellFormed { Arena.empty (ε := ε) slotSize with capacity } [] where
  chain := rfl
  nodup := List.nodup_nil
  complete x next hx := by simp [link?, Arena.empty] at hx
  live_add := rfl
  size_le_capacity := Nat.zero_le _
  size_le_max := Nat.zero_le _

/-- An arena made with memory for its slots has none in use. -/
theorem eq_of_withCapacity [Allocator α] {slotSize capacity : Nat} {memory memory' : α}
    (h : Arena.withCapacity slotSize capacity memory = (.ok arena, memory')) :
    arena = { Arena.empty slotSize with capacity } := by
  unfold Arena.withCapacity at h
  split at h
  · cases h
    rfl
  · split at h
    · cases h
    · split at h
      · cases h
      · cases h
        rfl

end WellFormed

/-! ### Elements put in -/

/-- The next element needs no further memory: a slot is vacant, or the table has one that was
never used and there is a handle for it. -/
def HasRoom (arena : Arena ε) : Prop :=
  arena.free.isSome ∨ arena.slots.size ≤ Handle.maxIndex ∧ arena.slots.size < arena.capacity

theorem place_eq_of_free {next : Option Handle} (hfree : arena.free = some x)
    (hlink : arena.link? x = some next) (element : ε) :
    arena.place element =
      .ok (x,
        { arena.setSlot x (.occupied element) with free := next, live := arena.live + 1 }) := by
  unfold place
  rw [hfree]
  dsimp only
  rw [slot_eq_of_link? hlink]
  rfl

theorem place_eq_of_unused (hfree : arena.free = none) (hx : x.index = arena.slots.size)
    (element : ε) :
    arena.place element =
      .ok (x,
        { arena with slots := arena.slots.push (.occupied element), live := arena.live + 1 }) := by
  unfold place
  rw [hfree, ← hx, Handle.ofIndex?_index]
  rfl

/-- What is at hand after an element went to a slot, and what was before. -/
structure Placed (before : Arena ε) (vacant : List Handle) (x : Handle) (element : ε)
    (after : Arena ε) (rest : List Handle) : Prop where
  /-- The slot is the one freed last or, if none is vacant, the next one that was never used. -/
  slot : vacant = x :: rest ∨ vacant = [] ∧ rest = [] ∧ x.index = before.slots.size
  get?_old : before.get? x = none
  get?_self : after.get? x = some element
  get?_ne : ∀ y, y ≠ x → after.get? y = before.get? y
  wellFormed : after.WellFormed rest
  slotSize : after.slotSize = before.slotSize
  live : after.live = before.live + 1
  capacity : after.capacity = before.capacity
  size_le : before.slots.size ≤ after.slots.size

theorem WellFormed.place_eq {vacant : List Handle} (h : arena.WellFormed vacant)
    (hroom : arena.HasRoom) (element : ε) :
    ∃ x after rest, arena.place element = .ok (x, after) ∧
      arena.Placed vacant x element after rest := by
  have hchain := h.chain
  cases vacant with
  | cons x rest =>
    obtain ⟨hfree, next, hnext, hrest⟩ := hchain
    have hlt := index_lt_of_link? hnext
    have hx : x ∉ rest := (List.nodup_cons.mp h.nodup).1
    refine ⟨x, _, rest, place_eq_of_free hfree hnext element, Or.inl rfl, get?_of_link? hnext,
      get?_setSlot_self _ hlt, fun y hy => get?_setSlot_ne _ hy, ?_, rfl, rfl, rfl, ?_⟩
    · refine ⟨?_, (List.nodup_cons.mp h.nodup).2, ?_, ?_, ?_, ?_⟩
      · refine hrest.congr fun y hy => link?_setSlot_ne _ ?_
        rintro rfl
        exact hx hy
      · intro y next' hy
        by_cases hyx : y = x
        · subst hyx
          have hself : (arena.setSlot y (.occupied element)).link? y = some next' := hy
          rw [link?_setSlot_self _ hlt] at hself
          cases hself
        · have hne : (arena.setSlot x (.occupied element)).link? y = some next' := hy
          rw [link?_setSlot_ne _ hyx] at hne
          exact (List.mem_cons.mp (h.complete y next' hne)).resolve_left hyx
      · have := h.live_add
        simp only [List.length_cons] at this
        simp only [setSlot, Array.size_setIfInBounds]
        omega
      · simpa [setSlot] using h.size_le_capacity
      · simpa [setSlot] using h.size_le_max
    · simp [setSlot]
  | nil =>
    have hfree : arena.free = none := hchain
    obtain ⟨hmax, hcap⟩ :
        arena.slots.size ≤ Handle.maxIndex ∧ arena.slots.size < arena.capacity := by
      rcases hroom with hsome | hroom
      · simp [hfree] at hsome
      · exact hroom
    refine ⟨⟨arena.slots.size, hmax⟩, _, [], place_eq_of_unused hfree rfl element,
      Or.inr ⟨rfl, rfl, rfl⟩, ?_, ?_, ?_, ?_, rfl, rfl, rfl, ?_⟩
    · simp [get?]
    · simp [get?]
    · intro y hy
      have hne : arena.slots.size ≠ y.index := (Handle.index_ne hy).symm
      simp [get?, Array.getElem?_push, hne.symm]
    · refine ⟨hfree, List.nodup_nil, ?_, ?_, ?_, ?_⟩
      · intro y next hy
        rw [link?_eq_some_iff, Array.getElem?_push] at hy
        split_ifs at hy with hlast
        · cases hy
        · exact h.complete y next (link?_eq_some_iff.mpr hy)
      · have := h.live_add
        simp only [List.length_nil, Array.size_push] at this ⊢
        omega
      · rw [Array.size_push]
        exact hcap
      · rw [Array.size_push]
        exact Nat.succ_le_succ hmax
    · simp

/-- An arena that is not full has room. -/
theorem WellFormed.hasRoom {vacant : List Handle} (h : arena.WellFormed vacant)
    (hcap : arena.live < arena.capacity) (hmax : arena.live ≤ Handle.maxIndex) : arena.HasRoom := by
  cases hfree : arena.free with
  | some x => exact Or.inl (by rw [hfree]; rfl)
  | none =>
    rw [h.live_eq_size hfree] at hcap hmax
    exact Or.inr ⟨hmax, hcap⟩

/-- A vacant slot is one of the slots in use. -/
theorem WellFormed.live_lt_size {vacant : List Handle} (h : arena.WellFormed vacant)
    (hfree : arena.free.isSome) : arena.live < arena.slots.size := by
  have hadd := h.live_add
  cases vacant with
  | nil => simp [show arena.free = none from h.chain] at hfree
  | cons x vacant =>
    rw [List.length_cons] at hadd
    omega

/-- An arena with room has a handle left. -/
theorem WellFormed.live_le_of_hasRoom {vacant : List Handle} (h : arena.WellFormed vacant)
    (hroom : arena.HasRoom) : arena.live ≤ Handle.maxIndex := by
  rcases hroom with hfree | ⟨hmax, -⟩
  · exact Nat.le_of_lt_succ (Nat.lt_of_lt_of_le (h.live_lt_size hfree) h.size_le_max)
  · exact Nat.le_trans h.live_le_size hmax

/-- An arena with room is not full. -/
theorem WellFormed.live_lt_of_hasRoom {vacant : List Handle} (h : arena.WellFormed vacant)
    (hroom : arena.HasRoom) : arena.live < arena.capacity := by
  rcases hroom with hfree | ⟨-, hcap⟩
  · exact Nat.lt_of_lt_of_le (h.live_lt_size hfree) h.size_le_capacity
  · exact Nat.lt_of_le_of_lt h.live_le_size hcap

/-- After a reservation, putting in an element asks for no memory. -/
theorem WellFormed.insert_eq [Allocator α] {vacant : List Handle} (h : arena.WellFormed vacant)
    (hroom : arena.HasRoom) (memory : α) (element : ε) :
    ∃ x after rest, arena.insert memory element = .ok (x, after, memory) ∧
      arena.Placed vacant x element after rest := by
  obtain ⟨x, after, rest, hplace, hplaced⟩ := h.place_eq hroom element
  refine ⟨x, after, rest, ?_, hplaced⟩
  have hfull : ¬ (arena.isFull ∧ arena.slots.size ≤ Handle.maxIndex) := by
    rintro ⟨hfull, -⟩
    simp only [isFull, Bool.and_eq_true, Option.isNone_iff_eq_none, beq_iff_eq] at hfull
    rcases hroom with hsome | ⟨-, hlt⟩
    · simp [hfull.1] at hsome
    · omega
  unfold insert
  rw [if_neg hfull, hplace]
  rfl

/-! ### Elements taken out -/

/-- What is at hand after an element left its slot. -/
structure Taken (before : Arena ε) (vacant : List Handle) (x : Handle) (after : Arena ε) :
    Prop where
  get?_self : after.get? x = none
  get?_ne : ∀ y, y ≠ x → after.get? y = before.get? y
  wellFormed : after.WellFormed (x :: vacant)
  slotSize : after.slotSize = before.slotSize
  live : after.live + 1 = before.live
  capacity : after.capacity = before.capacity
  size : after.slots.size = before.slots.size

theorem WellFormed.take {vacant : List Handle} (h : arena.WellFormed vacant)
    (hx : arena.get? x = some element) (hlive : 0 < arena.live) :
    ∃ after, arena.take x = .ok (element, after) ∧ arena.Taken vacant x after := by
  have hlt := index_lt_of_get? hx
  have hnot : x ∉ vacant := by
    intro hmem
    obtain ⟨next, hnext⟩ := h.chain.link?_isSome hmem
    rw [link?_of_get? hx] at hnext
    cases hnext
  refine ⟨_, take_eq hx, get?_setSlot_self _ hlt, fun y hy => get?_setSlot_ne _ hy, ?_, rfl, ?_,
    rfl, ?_⟩
  · refine ⟨⟨rfl, arena.free, link?_setSlot_self _ hlt, ?_⟩, List.nodup_cons.mpr ⟨hnot, h.nodup⟩,
      ?_, ?_, ?_, ?_⟩
    · refine h.chain.congr fun y hy => link?_setSlot_ne _ ?_
      rintro rfl
      exact hnot hy
    · intro y next hy
      by_cases hyx : y = x
      · exact hyx ▸ List.mem_cons_self
      · have hne : (arena.setSlot x (.vacant arena.free)).link? y = some next := hy
        rw [link?_setSlot_ne _ hyx] at hne
        exact List.mem_cons_of_mem x (h.complete y next hne)
    · have := h.live_add
      simp only [setSlot, List.length_cons, Array.size_setIfInBounds]
      omega
    · simpa [setSlot] using h.size_le_capacity
    · simpa [setSlot] using h.size_le_max
  · dsimp only
    omega
  · simp [setSlot]

/-! ### Room made -/

theorem reserve_eq_of_hasRoom [Allocator α] (h : arena.HasRoom) (memory : α) :
    arena.reserve memory = ⟨.ok (), arena, memory⟩ := by
  unfold reserve
  rcases h with hfree | ⟨hmax, hcap⟩
  · rw [if_pos hfree]
  · rw [if_neg (Nat.not_lt.mpr hmax), if_pos hcap, ite_self]

/-- All that a reservation can do: nothing where there is room, refuse for want of a handle, or
replace a full table. -/
theorem reserve_cases [Allocator α] (arena : Arena ε) (memory : α) :
    arena.HasRoom ∧ arena.reserve memory = ⟨.ok (), arena, memory⟩ ∨
      (arena.free = none ∧ Handle.maxIndex < arena.slots.size) ∧
        arena.reserve memory = ⟨.error .overflow, arena, memory⟩ ∨
      (arena.free = none ∧ arena.slots.size ≤ Handle.maxIndex ∧
        arena.capacity ≤ arena.slots.size) ∧ arena.reserve memory = arena.grow memory := by
  by_cases hfree : arena.free.isSome
  · exact Or.inl ⟨Or.inl hfree, reserve_eq_of_hasRoom (Or.inl hfree) memory⟩
  · have hnone : arena.free = none := Option.not_isSome_iff_eq_none.mp hfree
    by_cases hmax : Handle.maxIndex < arena.slots.size
    · refine Or.inr (Or.inl ⟨⟨hnone, hmax⟩, ?_⟩)
      rw [reserve, if_neg hfree, if_pos hmax]
    · by_cases hcap : arena.slots.size < arena.capacity
      · have hroom : arena.HasRoom := Or.inr ⟨Nat.le_of_not_lt hmax, hcap⟩
        exact Or.inl ⟨hroom, reserve_eq_of_hasRoom hroom memory⟩
      · refine Or.inr (Or.inr ⟨⟨hnone, Nat.le_of_not_lt hmax, Nat.le_of_not_lt hcap⟩, ?_⟩)
        rw [reserve, if_neg hfree, if_neg hmax, if_neg hcap]

theorem lt_grownCapacity (slotSize capacity : Nat) :
    capacity < grownCapacity slotSize capacity := by
  unfold grownCapacity
  omega

/-- A growth fails and leaves the arena as it is, or succeeds and changes its capacity alone. -/
theorem grow_cases [Allocator α] (arena : Arena ε) (memory : α) :
    (∃ memory', arena.grow memory = ⟨.error .noMemory, arena, memory'⟩) ∨
      ∃ memory', arena.grow memory =
        ⟨.ok (), { arena with capacity := grownCapacity arena.slotSize arena.capacity },
          memory'⟩ := by
  unfold grow
  dsimp only
  split
  · exact Or.inl ⟨memory, rfl⟩
  · split
    · exact Or.inl ⟨_, rfl⟩
    · exact Or.inr ⟨_, rfl⟩

/-- An arena with memory for more slots. -/
theorem WellFormed.withCapacity {vacant : List Handle} (h : arena.WellFormed vacant)
    {capacity : Nat} (hcap : arena.capacity ≤ capacity) :
    WellFormed { arena with capacity } vacant where
  chain := h.chain.congr fun _ _ => rfl
  nodup := h.nodup
  complete := h.complete
  live_add := h.live_add
  size_le_capacity := Nat.le_trans h.size_le_capacity hcap
  size_le_max := h.size_le_max

/-- A reservation fails and leaves the arena as it is, or makes room by the capacity alone. -/
theorem WellFormed.reserve [Allocator α] {vacant : List Handle} (h : arena.WellFormed vacant)
    (memory : α) :
    (∃ e memory', arena.reserve memory = ⟨.error e, arena, memory'⟩) ∨
      ∃ capacity memory', arena.reserve memory = ⟨.ok (), { arena with capacity }, memory'⟩ ∧
        arena.capacity ≤ capacity ∧ HasRoom { arena with capacity } := by
  rcases reserve_cases arena memory with ⟨hroom, heq⟩ | ⟨-, heq⟩ | ⟨⟨-, hmax, hcap⟩, heq⟩
  · exact Or.inr ⟨arena.capacity, memory, heq, Nat.le_refl _, hroom⟩
  · exact Or.inl ⟨_, _, heq⟩
  · rw [heq]
    rcases grow_cases arena memory with ⟨memory', hgrow⟩ | ⟨memory', hgrow⟩
    · exact Or.inl ⟨_, _, hgrow⟩
    · have hlt := lt_grownCapacity arena.slotSize arena.capacity
      refine Or.inr ⟨_, memory', hgrow, Nat.le_of_lt hlt, Or.inr ⟨hmax, ?_⟩⟩
      exact Nat.lt_of_le_of_lt h.size_le_capacity hlt

/-! ### What is foretold -/

theorem growthBytes_of_hasRoom (h : arena.HasRoom) : arena.growthBytes = some 0 := by
  unfold growthBytes
  rcases h with hfree | ⟨hmax, hcap⟩
  · rw [if_pos hfree]
  · rw [if_neg (Nat.not_lt.mpr hmax), if_pos hcap, ite_self]

/-- The bytes of the table that a full arena asks for. -/
def grownBytes (arena : Arena ε) : Nat :=
  grownCapacity arena.slotSize arena.capacity * arena.slotSize

theorem growthBytes_of_full (hfree : arena.free = none) (hmax : arena.slots.size ≤ Handle.maxIndex)
    (hcap : arena.slots.size = arena.capacity) :
    arena.growthBytes =
      if arena.grownBytes < Layout.bound then some arena.grownBytes else none := by
  rw [growthBytes, if_neg (by simp [hfree]), if_neg (Nat.not_lt.mpr hmax),
    if_neg (Nat.not_lt.mpr (Nat.le_of_eq hcap.symm)), grownBytes, hcap]

end Arena

end MeteredMap
