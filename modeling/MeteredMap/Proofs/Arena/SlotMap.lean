import Mathlib.Data.Set.Card
import MeteredMap.Proofs.Arena.Vacancy
import MeteredMap.Proofs.Simulation
import MeteredMap.Session.Slots

/-!
# Arenas as slot maps

An arena is specified by a *slot map*: a finite map from handles to elements, with a stack of the
handles that were given back. Runs of operations on an arena are compared with runs of this machine.
The caller has to reserve room before every insertion and has no other duty; a handle that is not
live ends the run, and nothing else does.

## Main definitions

* `MeteredMap.Arena.Operation` : the operations on an arena.
* `MeteredMap.Arena.AllReserved` : room is reserved before every insertion.
* `MeteredMap.SlotMap`, `MeteredMap.SlotMap.Step`, `MeteredMap.SlotMap.Run` : the specification.
* `MeteredMap.SlotMap.Represents` : the slot map that an arena stands for.

## Main results

* `MeteredMap.Arena.WellFormed.encard_live` : the counter of an arena is the number of live handles.
* `MeteredMap.SlotMap.Represents.run` : one operation on an arena is one step of the slot map.
* `MeteredMap.ArenaSession.run_slotMap` : a run of operations from an empty arena is a run of the
  slot map, and it ends early exactly at a handle that is not live.
-/

namespace MeteredMap

namespace Arena

variable {ε α : Type} {arena : Arena ε} {x y : Handle} {vacant : List Handle}

/-! ### Operations -/

/-- An operation on an arena. -/
inductive Operation (ε : Type) where
  | reserve
  | insert (element : ε)
  | get (handle : Handle)
  | modify (handle : Handle) (change : ε → ε)
  | modifyPair (first second : Handle) (change : ε → ε → ε × ε)
  | take (handle : Handle)
  | clear

namespace Operation

/-- Carries out an operation. -/
def run [Allocator α] (operation : Operation ε) (session : ArenaSession ε α) :
    Except Fault (ArenaAnswer ε × ArenaSession ε α) := do
  let ⟨arena, memory⟩ := session
  match operation with
  | .reserve =>
    let ⟨result, arena, memory⟩ := arena.reserve memory
    match result with
    | .error e => return (.failed e, { arena, memory })
    | .ok () => return (.done, { arena, memory })
  | .insert element =>
    let (handle, arena, memory) ← arena.insert memory element
    return (.handle handle, { arena, memory })
  | .get handle => return (.element (← arena.get handle), { arena, memory })
  | .modify handle change => return (.done, { arena := ← arena.modify handle change, memory })
  | .modifyPair first second change =>
    return (.done, { arena := ← arena.modifyPair first second change, memory })
  | .take handle =>
    let (element, arena) ← arena.take handle
    return (.element element, { arena, memory })
  | .clear => return (.done, { arena := arena.clear, memory })

/-- The handles that an operation is given are live, and a pair of them is not one handle twice. -/
def Applies (element : Handle → Option ε) : Operation ε → Prop
  | .get x => (element x).isSome
  | .modify x _ => (element x).isSome
  | .modifyPair x y _ => x ≠ y ∧ (element x).isSome ∧ (element y).isSome
  | .take x => (element x).isSome
  | _ => True

/-- Whether the operation puts in an element. -/
def inserts : Operation ε → Bool
  | .insert _ => true
  | _ => false

/-- Whether there is room reserved after an operation that was answered. -/
def reserves (reserved : Bool) : Operation ε → ArenaAnswer ε → Bool
  | .reserve, .done => true
  | .insert _, _ => false
  | _, _ => reserved

end Operation

/-- Before every insertion of a run, room was reserved for it: a reservation succeeded, and no other
element was put in since. -/
def AllReserved [Allocator α] : Bool → List (Operation ε) → ArenaSession ε α → Prop
  | _, [], _ => True
  | reserved, operation :: rest, session =>
    (operation.inserts → reserved) ∧
      match operation.run session with
      | .ok (answer, session) => AllReserved (operation.reserves reserved answer) rest session
      | .error _ => True

instance decidableAllReserved [Allocator α] : ∀ (reserved : Bool) (operations : List (Operation ε))
    (session : ArenaSession ε α), Decidable (AllReserved reserved operations session)
  | _, [], _ => inferInstanceAs (Decidable True)
  | reserved, operation :: rest, session =>
    match h : operation.run session with
    | .ok (answer, session') =>
      have := decidableAllReserved (operation.reserves reserved answer) rest session'
      decidable_of_iff ((operation.inserts → reserved) ∧
        AllReserved (operation.reserves reserved answer) rest session') (by rw [AllReserved, h])
    | .error _ =>
      decidable_of_iff ((operation.inserts → reserved) ∧ True) (by rw [AllReserved, h])

/-! ### Handles that are not live -/

theorem slot_eq_of_not_live (h : arena.get? x = none) :
    (∃ fault, arena.slot x = .error fault) ∨ ∃ next, arena.slot x = .ok (.vacant next) := by
  unfold get? at h
  unfold slot slotAt
  cases hx : arena.slots[x.index]? with
  | none => exact Or.inl ⟨_, rfl⟩
  | some slot =>
    cases slot with
    | occupied element => simp [hx] at h
    | vacant next => exact Or.inr ⟨next, rfl⟩

theorem get_fault (h : arena.get? x = none) : ∃ fault, arena.get x = .error fault := by
  unfold get
  rcases slot_eq_of_not_live h with ⟨fault, heq⟩ | ⟨next, heq⟩ <;> exact ⟨_, by rw [heq]; rfl⟩

theorem modify_fault (change : ε → ε) (h : arena.get? x = none) :
    ∃ fault, arena.modify x change = .error fault := by
  unfold modify
  rcases slot_eq_of_not_live h with ⟨fault, heq⟩ | ⟨next, heq⟩ <;> exact ⟨_, by rw [heq]; rfl⟩

theorem take_fault (h : arena.get? x = none) : ∃ fault, arena.take x = .error fault := by
  unfold take
  rcases slot_eq_of_not_live h with ⟨fault, heq⟩ | ⟨next, heq⟩ <;> exact ⟨_, by rw [heq]; rfl⟩

theorem modifyPair_fault (change : ε → ε → ε × ε)
    (h : x = y ∨ arena.get? x = none ∨ arena.get? y = none) :
    ∃ fault, arena.modifyPair x y change = .error fault := by
  by_cases hxy : x = y
  · exact ⟨_, by rw [modifyPair, if_pos (by rw [hxy])]; rfl⟩
  rw [modifyPair, if_neg (Handle.index_ne hxy)]
  cases hpair : Part.pair arena.slots.size x.index y.index with
  | error fault => exact ⟨fault, rfl⟩
  | ok places =>
    obtain ⟨hfirst, hsecond⟩ := Part.lt_of_pair hpair
    rw [Part.pair_eq (Handle.index_ne hxy) hfirst hsecond] at hpair
    cases hpair
    simp only [ok_bind]
    cases hx : arena.get? x with
    | none =>
      rcases slot_eq_of_not_live hx with ⟨fault, heq⟩ | ⟨next, heq⟩ <;>
        exact ⟨_, by rw [show slotAt arena.slots x.index = _ from heq]; rfl⟩
    | some a =>
      have hy : arena.get? y = none := by simpa [hxy, hx] using h
      rw [slotAt_eq (get?_eq_some_iff.mp hx)]
      rcases slot_eq_of_not_live hy with ⟨fault, heq⟩ | ⟨next, heq⟩ <;>
        exact ⟨_, by rw [show slotAt arena.slots y.index = _ from heq]; rfl⟩

/-! ### The number of live handles -/

theorem WellFormed.mem_vacant_iff (h : arena.WellFormed vacant) :
    x ∈ vacant ↔ x.index < arena.slots.size ∧ arena.get? x = none := by
  constructor
  · intro hx
    obtain ⟨next, hnext⟩ := h.chain.link?_isSome hx
    exact ⟨index_lt_of_link? hnext, get?_of_link? hnext⟩
  · rintro ⟨hlt, hx⟩
    have hlink : arena.link? x ≠ none := by
      intro hnone
      have hlive := isSome_get?_iff.mpr ⟨hlt, hnone⟩
      rw [hx] at hlive
      cases hlive
    obtain ⟨next, hnext⟩ := Option.ne_none_iff_exists'.mp hlink
    exact h.complete x next hnext

theorem encard_index_lt {n : Nat} (hn : n ≤ Handle.maxIndex + 1) :
    {x : Handle | x.index < n}.encard = n := by
  have hinjective : Function.Injective Handle.index :=
    fun x y hxy => by_contra fun hne => Handle.index_ne hne hxy
  have himage : Handle.index '' {x | x.index < n} = (Finset.range n : Set Nat) := by
    ext i
    simp only [Set.mem_image, Set.mem_ofPred_eq, Finset.coe_range, Set.mem_Iio]
    constructor
    · rintro ⟨x, hx, rfl⟩
      exact hx
    · intro hi
      exact ⟨⟨i, Nat.le_of_lt_succ (Nat.lt_of_lt_of_le hi hn)⟩, hi, rfl⟩
  rw [← hinjective.encard_image, himage, Set.encard_coe_eq_coe_finsetCard, Finset.card_range]

/-- The counter of a well-formed arena is the number of its live handles. -/
theorem WellFormed.encard_live (h : arena.WellFormed vacant) :
    {x | (arena.get? x).isSome}.encard = arena.live := by
  have hunion : {x | (arena.get? x).isSome} ∪ (vacant.toFinset : Set Handle) =
      {x | x.index < arena.slots.size} := by
    ext x
    simp only [Set.mem_union, Set.mem_ofPred_eq, List.coe_toFinset, h.mem_vacant_iff]
    cases hx : arena.get? x with
    | none => simp
    | some element => simp [index_lt_of_get? hx]
  have hdisjoint : Disjoint {x | (arena.get? x).isSome} (vacant.toFinset : Set Handle) := by
    rw [Set.disjoint_left]
    intro x hlive hx
    rw [List.coe_toFinset, Set.mem_ofPred_eq, h.mem_vacant_iff] at hx
    simp [hx.2] at hlive
  have hsum : {x | (arena.get? x).isSome}.encard + (vacant.length : ℕ∞) =
      arena.live + (vacant.length : ℕ∞) := by
    rw [← List.toFinset_card_of_nodup h.nodup, ← Set.encard_coe_eq_coe_finsetCard,
      ← Set.encard_union_eq hdisjoint, hunion, encard_index_lt h.size_le_max,
      Set.encard_coe_eq_coe_finsetCard, List.toFinset_card_of_nodup h.nodup, ← h.live_add]
    rfl
  exact ENat.add_left_injective_of_ne_top (ENat.natCast_ne_top _) hsum

theorem WellFormed.live_pos (h : arena.WellFormed vacant) (hx : (arena.get? x).isSome) :
    0 < arena.live := by
  have hne : {x | (arena.get? x).isSome}.encard ≠ 0 := Set.encard_ne_zero.mpr ⟨x, hx⟩
  rw [h.encard_live] at hne
  exact Nat.pos_of_ne_zero fun hzero => hne (by rw [hzero]; rfl)

/-! ### Room that stays -/

theorem HasRoom.kept {before after : Arena ε} (h : before.HasRoom) (hk : Kept before after) :
    after.HasRoom := by
  unfold HasRoom
  rw [hk.free, hk.size, hk.capacity]
  exact h

theorem WellFormed.hasRoom_clear (h : arena.WellFormed vacant) (hroom : arena.HasRoom) :
    arena.clear.HasRoom :=
  Or.inr ⟨Nat.zero_le _, Nat.zero_lt_of_lt (h.live_lt_of_hasRoom hroom)⟩

end Arena

/-! ### The specification -/

/-- A finite map from handles to elements that says which handle comes next. -/
structure SlotMap (ε : Type) where
  /-- The elements at the live handles. -/
  element : Handle → Option ε
  /-- The handles that elements were taken from and that no element went to since, the one taken
  from last in front. Nothing from before the last `clear` is here. -/
  vacant : List Handle
  /-- The number of indices used since the last `clear`. -/
  fresh : Nat

namespace SlotMap

open Arena (Operation)

variable {ε α : Type} {m next : SlotMap ε} {arena : Arena ε} {session : ArenaSession ε α}
  {operation : Operation ε} {reserved : Bool}

/-- Nothing is in the map, and no index was used. -/
def empty : SlotMap ε :=
  ⟨fun _ => none, [], 0⟩

/-- What an operation answers and does to a slot map. A reservation may be refused for any reason;
of everything else there is one outcome, or none if a handle is not live. -/
inductive Step (m : SlotMap ε) : Operation ε → ArenaAnswer ε → SlotMap ε → Prop
  | reserved : Step m .reserve .done m
  | refused (e : MapError) : Step m .reserve (.failed e) m
  /-- An element goes to the handle that was taken from last. -/
  | reuse {x : Handle} {rest : List Handle} {a : ε} (hvacant : m.vacant = x :: rest)
      (hx : m.element x = none) :
      Step m (.insert a) (.handle x) ⟨Function.update m.element x (some a), rest, m.fresh⟩
  /-- With none to use again, an element goes to the next index. -/
  | extend {x : Handle} {a : ε} (hvacant : m.vacant = []) (hfresh : x.index = m.fresh)
      (hx : m.element x = none) :
      Step m (.insert a) (.handle x) ⟨Function.update m.element x (some a), [], m.fresh + 1⟩
  | get {x : Handle} {a : ε} (hx : m.element x = some a) : Step m (.get x) (.element a) m
  | modify {x : Handle} {a : ε} (change : ε → ε) (hx : m.element x = some a) :
      Step m (.modify x change) .done
        ⟨Function.update m.element x (some (change a)), m.vacant, m.fresh⟩
  /-- The element at the first handle is given first, whichever index is larger. -/
  | modifyPair {x y : Handle} {a b : ε} (change : ε → ε → ε × ε) (hxy : x ≠ y)
      (hx : m.element x = some a) (hy : m.element y = some b) :
      Step m (.modifyPair x y change) .done
        ⟨Function.update (Function.update m.element x (some (change a b).1)) y
          (some (change a b).2), m.vacant, m.fresh⟩
  | take {x : Handle} {a : ε} (hx : m.element x = some a) :
      Step m (.take x) (.element a)
        ⟨Function.update m.element x none, x :: m.vacant, m.fresh⟩
  | clear : Step m .clear .done empty

/-- Steps one after the other, up to some operation: what is answered, which operations are left,
and where the slot map is then. -/
inductive Run : SlotMap ε → List (Operation ε) → List (ArenaAnswer ε) → List (Operation ε) →
    SlotMap ε → Prop
  | stop (m : SlotMap ε) (rest : List (Operation ε)) : Run m rest [] rest m
  | step {m next last : SlotMap ε} {operation : Operation ε} {answer : ArenaAnswer ε}
      {operations rest : List (Operation ε)} {answers : List (ArenaAnswer ε)}
      (hstep : Step m operation answer next) (hrun : Run next operations answers rest last) :
      Run m (operation :: operations) (answer :: answers) rest last

/-- The slot map that an arena stands for. -/
structure Represents (m : SlotMap ε) (arena : Arena ε) : Prop where
  element : ∀ x, m.element x = arena.get? x
  wellFormed : arena.WellFormed m.vacant
  fresh : m.fresh = arena.slots.size

/-! ### One operation -/

theorem Represents.get?_eq (h : m.Represents arena) : arena.get? = m.element :=
  funext fun x => (h.element x).symm

/-- The element at a live handle changed. -/
theorem Represents.revise (h : m.Represents arena) {x : Handle} {a : ε}
    (hx : m.element x = some a) (change : ε → ε) :
    Represents ⟨Function.update m.element x (some (change a)), m.vacant, m.fresh⟩
      (arena.revise x change) where
  element y := by
    rw [Arena.get?_revise, ← h.element, hx]
    dsimp only
    by_cases hyx : y = x
    · rw [hyx, Function.update_self, if_pos rfl, Option.map_some]
    · rw [Function.update_of_ne hyx, if_neg hyx, h.element]
  wellFormed := h.wellFormed.kept (.revise arena x change)
  fresh := h.fresh.trans (Arena.Kept.revise arena x change).size.symm

/-- An element put in while there is room. -/
theorem Represents.insert [Allocator α] (h : m.Represents arena) (hroom : arena.HasRoom)
    (memory : α) (a : ε) :
    ∃ x after next, arena.insert memory a = .ok (x, after, memory) ∧
      m.Step (.insert a) (.handle x) next ∧ next.Represents after := by
  obtain ⟨x, after, rest, heq, hplaced⟩ := h.wellFormed.insert_eq hroom memory a
  have hx : m.element x = none := (h.element x).trans hplaced.get?_old
  have hget : ∀ y, Function.update m.element x (some a) y = after.get? y := by
    intro y
    by_cases hyx : y = x
    · rw [hyx, Function.update_self, hplaced.get?_self]
    · rw [Function.update_of_ne hyx, hplaced.get?_ne y hyx, h.element]
  have hbefore := h.wellFormed.live_add
  have hafter := hplaced.wellFormed.live_add
  have hlive := hplaced.live
  have hfresh := h.fresh
  rcases hplaced.slot with hvacant | ⟨hvacant, rfl, hindex⟩
  · refine ⟨x, after, _, heq, .reuse hvacant hx, hget, hplaced.wellFormed, ?_⟩
    rw [hvacant, List.length_cons] at hbefore
    dsimp only
    omega
  · refine ⟨x, after, _, heq, .extend hvacant (hindex.trans hfresh.symm) hx, hget,
      hplaced.wellFormed, ?_⟩
    rw [hvacant, List.length_nil] at hbefore
    rw [List.length_nil] at hafter
    dsimp only
    omega

/-- An element taken out. -/
theorem Represents.take (h : m.Represents arena) {x : Handle} {a : ε}
    (hx : m.element x = some a) :
    ∃ after, arena.take x = .ok (a, after) ∧ after.capacity = arena.capacity ∧
      Represents ⟨Function.update m.element x none, x :: m.vacant, m.fresh⟩ after := by
  have hget : arena.get? x = some a := (h.element x).symm.trans hx
  have hlive := h.wellFormed.live_pos (Option.isSome_of_eq_some hget)
  obtain ⟨after, heq, htaken⟩ := h.wellFormed.take hget hlive
  refine ⟨after, heq, htaken.capacity, fun y => ?_, htaken.wellFormed,
    h.fresh.trans htaken.size.symm⟩
  dsimp only
  by_cases hyx : y = x
  · rw [hyx, Function.update_self, htaken.get?_self]
  · rw [Function.update_of_ne hyx, htaken.get?_ne y hyx, h.element]

theorem Represents.clear (arena : Arena ε) : Represents empty arena.clear :=
  ⟨fun x => by simp [empty], .ofUnused arena.slotSize arena.capacity, rfl⟩

/-- An operation on handles that are live is a step of the slot map, provided that an insertion
finds room; the room that was reserved is still there unless an element went to it. -/
theorem Represents.run [Allocator α] (h : m.Represents session.arena)
    (happlies : operation.Applies m.element) (hroom : reserved → session.arena.HasRoom)
    (hinserts : operation.inserts → reserved) :
    ∃ answer session' next, operation.run session = .ok (answer, session') ∧
      m.Step operation answer next ∧ next.Represents session'.arena ∧
      (operation.reserves reserved answer → session'.arena.HasRoom) := by
  obtain ⟨arena, memory⟩ := session
  cases operation with
  | reserve =>
    rcases h.wellFormed.reserve memory with
      ⟨e, memory', heq⟩ | ⟨capacity, memory', heq, hcap, hroom'⟩
    · refine ⟨.failed e, ⟨arena, memory'⟩, m, ?_, .refused e, h, hroom⟩
      rw [Operation.run, heq]
      rfl
    · refine ⟨.done, ⟨{ arena with capacity }, memory'⟩, m, ?_, .reserved,
        ⟨h.element, h.wellFormed.withCapacity hcap, h.fresh⟩, fun _ => hroom'⟩
      rw [Operation.run, heq]
      rfl
  | insert a =>
    obtain ⟨x, after, next, heq, hstep, hnext⟩ := h.insert (hroom (hinserts rfl)) memory a
    refine ⟨.handle x, ⟨after, memory⟩, next, ?_, hstep, hnext, fun hfalse => by cases hfalse⟩
    rw [Operation.run, heq]
    rfl
  | get x =>
    obtain ⟨a, hx⟩ := Option.isSome_iff_exists.mp happlies
    refine ⟨.element a, ⟨arena, memory⟩, m, ?_, .get hx, h, hroom⟩
    rw [Operation.run, Arena.get_eq_ok_iff.mpr ((h.element x).symm.trans hx)]
    rfl
  | modify x change =>
    obtain ⟨a, hx⟩ := Option.isSome_iff_exists.mp happlies
    refine ⟨.done, ⟨arena.revise x change, memory⟩, _, ?_, .modify change hx, h.revise hx change,
      fun hr => (hroom hr).kept (.revise arena x change)⟩
    rw [Operation.run, Arena.modify_eq_revise change ((h.element x).symm.trans hx)]
    rfl
  | modifyPair x y change =>
    obtain ⟨hxy, hx, hy⟩ := happlies
    obtain ⟨a, hx⟩ := Option.isSome_iff_exists.mp hx
    obtain ⟨b, hy⟩ := Option.isSome_iff_exists.mp hy
    have hfirst := h.revise hx fun _ => (change a b).1
    have hy' : Function.update m.element x (some (change a b).1) y = some b := by
      rw [Function.update_of_ne hxy.symm, hy]
    refine ⟨.done, ⟨_, memory⟩, _, ?_, .modifyPair change hxy hx hy,
      hfirst.revise hy' fun _ => (change a b).2,
      fun hr => ((hroom hr).kept (.revise _ _ _)).kept (.revise _ _ _)⟩
    rw [Operation.run, Arena.modifyPair_eq_revise hxy ((h.element x).symm.trans hx)
      ((h.element y).symm.trans hy)]
    rfl
  | take x =>
    obtain ⟨a, hx⟩ := Option.isSome_iff_exists.mp happlies
    obtain ⟨after, heq, -, hafter⟩ := h.take hx
    refine ⟨.element a, ⟨after, memory⟩, _, ?_, .take hx, hafter,
      fun _ => Or.inl (by rw [show after.free = some x from hafter.wellFormed.chain.1]; rfl)⟩
    rw [Operation.run, heq]
    rfl
  | clear =>
    exact ⟨.done, ⟨arena.clear, memory⟩, empty, rfl, .clear, .clear arena,
      fun hr => h.wellFormed.hasRoom_clear (hroom hr)⟩

/-- An operation on a handle that is not live, or on one handle twice, ends in a fault. -/
theorem Represents.run_fault [Allocator α] (h : m.Represents session.arena)
    (happlies : ¬ operation.Applies m.element) :
    ∃ fault, operation.run session = .error fault := by
  obtain ⟨arena, memory⟩ := session
  have hdead : ∀ {x}, ¬ (m.element x).isSome → arena.get? x = none :=
    fun {x} hx => (h.element x).symm.trans (Option.not_isSome_iff_eq_none.mp hx)
  cases operation with
  | get x =>
    obtain ⟨fault, heq⟩ := Arena.get_fault (hdead happlies)
    exact ⟨fault, by rw [Operation.run, heq]; rfl⟩
  | modify x change =>
    obtain ⟨fault, heq⟩ := Arena.modify_fault change (hdead happlies)
    exact ⟨fault, by rw [Operation.run, heq]; rfl⟩
  | modifyPair x y change =>
    have hpair : x = y ∨ arena.get? x = none ∨ arena.get? y = none := by
      by_cases hxy : x = y
      · exact Or.inl hxy
      by_cases hx : (m.element x).isSome
      · exact Or.inr (Or.inr (hdead fun hy => happlies ⟨hxy, hx, hy⟩))
      · exact Or.inr (Or.inl (hdead hx))
    obtain ⟨fault, heq⟩ := Arena.modifyPair_fault change hpair
    exact ⟨fault, by rw [Operation.run, heq]; rfl⟩
  | take x =>
    obtain ⟨fault, heq⟩ := Arena.take_fault (hdead happlies)
    exact ⟨fault, by rw [Operation.run, heq]; rfl⟩
  | _ => exact absurd trivial happlies

/-! ### Runs -/

/-- What an arena has in common with the slot map that it stands for: the element at each handle,
the number of elements, and a chain that runs once through every vacant slot, through no other, and
ends. -/
structure Matches (m : SlotMap ε) (arena : Arena ε) : Prop where
  element : arena.get? = m.element
  live : (arena.live : ℕ∞) = {x | (m.element x).isSome}.encard
  chain : arena.Chain arena.free m.vacant
  nodup : m.vacant.Nodup
  mem_vacant_iff : ∀ i : Nat,
    (∃ next, arena.slots[i]? = some (.vacant next)) ↔ ∃ x ∈ m.vacant, x.index = i

theorem Represents.matches (h : m.Represents arena) : m.Matches arena where
  element := h.get?_eq
  live := by rw [← h.get?_eq, h.wellFormed.encard_live]
  chain := h.wellFormed.chain
  nodup := h.wellFormed.nodup
  mem_vacant_iff i := by
    constructor
    · rintro ⟨next, hnext⟩
      have hlt := (Array.getElem?_eq_some_iff.mp hnext).1
      have hle := h.wellFormed.size_le_max
      let x : Handle := ⟨i, Nat.le_of_lt_succ (Nat.lt_of_lt_of_le hlt hle)⟩
      exact ⟨x, h.wellFormed.complete x next (Arena.link?_eq_some_iff.mpr hnext), rfl⟩
    · rintro ⟨x, hx, rfl⟩
      obtain ⟨next, hnext⟩ := h.wellFormed.chain.link?_isSome hx
      exact ⟨next, Arena.link?_eq_some_iff.mp hnext⟩

theorem Represents.run_all [Allocator α] (h : m.Represents session.arena)
    (hroom : reserved → session.arena.HasRoom) (operations : List (Operation ε))
    (hreserved : Arena.AllReserved reserved operations session) :
    ∃ rest last, m.Run operations (Transcript.run Operation.run operations session).answers
        rest last ∧
      match (Transcript.run Operation.run operations session).ending with
      | .ok session' => rest = [] ∧ last.Represents session'.arena
      | .error _ => ∃ operation rest', rest = operation :: rest' ∧
          ¬ operation.Applies last.element := by
  induction operations generalizing m session reserved with
  | nil => exact ⟨[], m, .stop m [], rfl, h⟩
  | cons operation operations ih =>
    obtain ⟨hinserts, hreserved⟩ := hreserved
    by_cases happlies : operation.Applies m.element
    · obtain ⟨answer, session', next, heq, hstep, hnext, hroom'⟩ :=
        h.run happlies hroom hinserts
      rw [heq] at hreserved
      obtain ⟨rest, last, hrun, hending⟩ := ih hnext hroom' hreserved
      simp only [Transcript.run, heq]
      exact ⟨rest, last, .step hstep hrun, hending⟩
    · obtain ⟨fault, heq⟩ := h.run_fault happlies
      simp only [Transcript.run, heq]
      exact ⟨_, m, .stop m _, _, _, rfl, happlies⟩

/-- A new arena has nothing in it. -/
theorem Represents.ofStart [Allocator α] {memory : α} {slotSize : Nat} {capacity : Option Nat}
    (h : ArenaSession.start memory slotSize capacity = .ok session) :
    (empty : SlotMap ε).Represents session.arena := by
  have hunused : ∀ capacity : Nat,
      (empty : SlotMap ε).Represents { Arena.empty slotSize with capacity } := fun capacity =>
    ⟨fun x => by simp [empty, Arena.get?, Arena.empty], .ofUnused slotSize capacity, rfl⟩
  cases capacity with
  | none =>
    cases h
    exact hunused 0
  | some capacity =>
    simp only [ArenaSession.start] at h
    rcases hmade : (Arena.withCapacity slotSize capacity memory : Except MapError (Arena ε) × α)
      with ⟨e | arena, memory'⟩
    · rw [hmade] at h
      cases h
    rw [hmade] at h
    cases h
    rw [Arena.WellFormed.eq_of_withCapacity hmade]
    exact hunused capacity

end SlotMap

namespace ArenaSession

open Arena (Operation AllReserved)

variable {ε α : Type} [Allocator α]

/-- Operations on a new arena, with room reserved before every insertion, are answered as by a slot
map. If they all end without a fault, the arena matches the slot map. If one of them faults, one of
its handles was not live or it was given one handle twice, and up to there the answers are those of
the slot map. -/
theorem run_slotMap {memory : α} {slotSize : Nat} {capacity : Option Nat}
    {session : ArenaSession ε α} (hstart : start memory slotSize capacity = .ok session)
    (operations : List (Operation ε)) (hreserved : AllReserved false operations session) :
    ∃ rest last, SlotMap.empty.Run operations
        (Transcript.run Operation.run operations session).answers rest last ∧
      match (Transcript.run Operation.run operations session).ending with
      | .ok session' => rest = [] ∧ last.Matches session'.arena
      | .error _ => ∃ operation rest', rest = operation :: rest' ∧
          ¬ operation.Applies last.element := by
  obtain ⟨rest, last, hrun, hending⟩ :=
    (SlotMap.Represents.ofStart hstart).run_all (fun hfalse => by cases hfalse) operations hreserved
  refine ⟨rest, last, hrun, ?_⟩
  cases heq : (Transcript.run Operation.run operations session).ending with
  | error fault =>
    rw [heq] at hending
    exact hending
  | ok session' =>
    rw [heq] at hending
    exact ⟨hending.1, hending.2.matches⟩

/-- A new arena with room for one element. -/
def sample : ArenaSession Nat Heap :=
  { arena := { Arena.empty 8 with capacity := 1 }, memory := ⟨none⟩ }

/-- The handle of an index. -/
def sampleHandle (index : Fin 3) : Handle :=
  ⟨index.val, by omega⟩

/-- Three elements put in, two of them taken, two more put into their slots, and a handle that is
no longer live. -/
def sampleOperations : List (Operation Nat) :=
  [.reserve, .insert 10, .reserve, .insert 20, .reserve, .insert 30,
    .take (sampleHandle 0), .take (sampleHandle 2), .reserve, .insert 40, .reserve, .insert 50,
    .modifyPair (sampleHandle 2) (sampleHandle 1) (fun a b => (b, a + b)),
    .get (sampleHandle 1), .take (sampleHandle 1), .get (sampleHandle 1)]

theorem run_slotMap_sample :
    start (Heap.mk none) 8 (some 1) = .ok sample ∧ AllReserved false sampleOperations sample ∧
      ∃ rest last, SlotMap.empty.Run sampleOperations
        [.done, .handle (sampleHandle 0), .done, .handle (sampleHandle 1), .done,
          .handle (sampleHandle 2), .element 10, .element 30, .done, .handle (sampleHandle 2),
          .done, .handle (sampleHandle 0), .done, .element 60, .element 60] rest last ∧
        ∃ operation rest', rest = operation :: rest' ∧ ¬ operation.Applies last.element := by
  have hstart : start (Heap.mk none) 8 (some 1) = .ok sample := rfl
  have hreserved : AllReserved false sampleOperations sample := by decide
  have hending : (Transcript.run Operation.run sampleOperations sample).ending =
      .error .vacantRead := rfl
  obtain ⟨rest, last, hrun, hlast⟩ := run_slotMap hstart sampleOperations hreserved
  rw [hending] at hlast
  exact ⟨hstart, hreserved, rest, last, hrun, hlast⟩

end ArenaSession

end MeteredMap
