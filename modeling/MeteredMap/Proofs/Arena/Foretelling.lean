import MeteredMap.Proofs.Arena.SlotMap
import MeteredMap.Proofs.Memory.Requests

/-!
# What an arena foretells

An arena tells how many bytes its next reservation asks for. Whatever operations led up to it, a
reservation asks for nothing where nothing is foretold, and otherwise makes the one request that is.
The room that a reservation has made is there until an element is put in.

## Main definitions

* `MeteredMap.Arena.Reachable` : the arenas that come out of operations.

## Main results

* `MeteredMap.Arena.Reachable.wellFormed` : a reachable arena is well-formed, also after elements
  were put in without a reservation.
* `MeteredMap.Arena.grow_recorded` : the request of a full arena.
* `MeteredMap.Arena.Reachable.growth_foretold` : what is foretold is what happens.
-/

namespace MeteredMap

namespace Arena

variable {ε α : Type} {arena after : Arena ε} {vacant : List Handle} {x : Handle} {element : ε}

/-! ### Reachable arenas -/

/-- Arenas that come out of operations that ended without a fault, each in some memory. Elements may
be put in without a reservation. -/
inductive Reachable : Arena ε → Prop
  | empty (slotSize : Nat) : Reachable (Arena.empty slotSize)
  | withCapacity {α : Type} [Allocator α] {memory memory' : α} {slotSize capacity : Nat}
      {arena : Arena ε}
      (h : Arena.withCapacity slotSize capacity memory = (.ok arena, memory')) : Reachable arena
  | step {α : Type} [Allocator α] {memory memory' : α} {operation : Operation ε}
      {answer : ArenaAnswer ε} {arena after : Arena ε} (hr : Reachable arena)
      (h : operation.run ⟨arena, memory⟩ = .ok (answer, ⟨after, memory'⟩)) : Reachable after

/-- An element that was put in found room, or a table that grew had room for it. -/
theorem WellFormed.exists_room_of_insert [Allocator α] {memory memory' : α}
    (h : arena.WellFormed vacant)
    (hinsert : arena.insert memory element = .ok (x, after, memory')) :
    ∃ capacity, arena.capacity ≤ capacity ∧ HasRoom { arena with capacity } ∧
      place { arena with capacity } element = .ok (x, after) := by
  unfold insert at hinsert
  split_ifs at hinsert with hfull
  · obtain ⟨hfull, hmax⟩ := hfull
    rcases grow_cases arena memory with ⟨middle, hgrow⟩ | ⟨middle, hgrow⟩
    · rw [hgrow] at hinsert
      cases hinsert
    · rw [hgrow] at hinsert
      obtain ⟨⟨y, placed⟩, hplace, heq⟩ := bind_eq_ok_iff.mp hinsert
      cases heq
      have hlt := lt_grownCapacity arena.slotSize arena.capacity
      exact ⟨_, Nat.le_of_lt hlt, Or.inr ⟨hmax, Nat.lt_of_le_of_lt h.size_le_capacity hlt⟩, hplace⟩
  · obtain ⟨⟨y, placed⟩, hplace, heq⟩ := bind_eq_ok_iff.mp hinsert
    cases heq
    refine ⟨arena.capacity, Nat.le_refl _, ?_, hplace⟩
    cases hfree : arena.free with
    | some z => exact Or.inl rfl
    | none =>
      have hmax : arena.slots.size ≤ Handle.maxIndex := by
        by_contra hmax
        have hnone := (Handle.ofIndex?_eq_none_iff arena.slots.size).mpr (Nat.lt_of_not_le hmax)
        rw [place, hfree] at hplace
        simp only [hnone] at hplace
        cases hplace
      have hne : arena.slots.size ≠ arena.capacity := fun heq =>
        hfull ⟨by simp [isFull, hfree, heq], hmax⟩
      exact Or.inr ⟨hmax, Nat.lt_of_le_of_ne h.size_le_capacity hne⟩

/-- An operation that puts nothing in leaves a well-formed arena, with room if there was room. -/
theorem WellFormed.run_of_not_inserts [Allocator α] {memory memory' : α} {operation : Operation ε}
    {answer : ArenaAnswer ε} {reserved : Bool} (h : arena.WellFormed vacant)
    (hinserts : ¬ operation.inserts) (hroom : reserved → arena.HasRoom)
    (hrun : operation.run ⟨arena, memory⟩ = .ok (answer, ⟨after, memory'⟩)) :
    ∃ rest, after.WellFormed rest ∧ (reserved → after.HasRoom) := by
  let m : SlotMap ε := ⟨arena.get?, vacant, arena.slots.size⟩
  have hm : m.Represents (ArenaSession.mk arena memory).arena := ⟨fun _ => rfl, h, rfl⟩
  by_cases happlies : operation.Applies m.element
  · obtain ⟨answer', session, next, heq, -, hnext, hroom'⟩ :=
      hm.run happlies hroom fun hyes => absurd hyes hinserts
    rw [hrun] at heq
    cases heq
    refine ⟨next.vacant, hnext.wellFormed, fun hreserved => hroom' ?_⟩
    cases operation with
    | insert a => exact absurd rfl hinserts
    | reserve => cases answer <;> first | rfl | exact hreserved
    | _ => exact hreserved
  · obtain ⟨fault, heq⟩ := hm.run_fault happlies
    rw [hrun] at heq
    cases heq

/-- A reachable arena is well-formed. -/
theorem Reachable.wellFormed (hr : Reachable arena) : ∃ vacant, arena.WellFormed vacant := by
  induction hr with
  | empty slotSize => exact ⟨[], .ofUnused slotSize 0⟩
  | withCapacity h =>
    rw [WellFormed.eq_of_withCapacity h]
    exact ⟨[], .ofUnused _ _⟩
  | @step α _ memory memory' operation answer arena after hr h ih =>
    obtain ⟨vacant, hvacant⟩ := ih
    by_cases hinserts : operation.inserts
    · cases operation with
      | insert a =>
        obtain ⟨⟨x, placed, middle⟩, hinsert, heq⟩ := bind_eq_ok_iff.mp h
        cases heq
        obtain ⟨capacity, hcap, hroom, hplace⟩ := hvacant.exists_room_of_insert hinsert
        obtain ⟨y, placed', rest, hplace', hplaced⟩ :=
          (hvacant.withCapacity hcap).place_eq hroom a
        rw [hplace] at hplace'
        cases hplace'
        exact ⟨rest, hplaced.wellFormed⟩
      | _ => cases hinserts
    · have hunreserved : false = true → arena.HasRoom := fun hfalse => by cases hfalse
      obtain ⟨rest, hrest, -⟩ := hvacant.run_of_not_inserts hinserts hunreserved h
      exact ⟨rest, hrest⟩

/-! ### The growth of a full arena -/

/-- A full arena asks once, for the table that is foretold. -/
theorem grow_recorded [Allocator α] (recorded : Recorded α)
    (hbound : arena.grownBytes < Layout.bound) :
    ∃ recorded' : Recorded α, recorded'.requests = recorded.requests ++ [⟨arena.grownBytes, 8⟩] ∧
      (recorded'.granted = recorded.granted ++ [⟨arena.grownBytes, 8⟩] ∧
          arena.grow recorded = ⟨.ok (),
            { arena with capacity := grownCapacity arena.slotSize arena.capacity }, recorded'⟩ ∨
        recorded'.granted = recorded.granted ∧
          arena.grow recorded = ⟨.error .noMemory, arena, recorded'⟩) := by
  have htable : Layout.table? (grownCapacity arena.slotSize arena.capacity * arena.slotSize) =
      some ⟨arena.grownBytes, 8⟩ := Layout.table?_eq_some_iff.mpr ⟨hbound, rfl⟩
  rw [grow]
  simp only [htable]
  cases hreply : Allocator.allocate recorded ⟨arena.grownBytes, 8⟩ with
  | granted middle =>
    obtain ⟨hrequests, hgranted⟩ := Recorded.lists_of_granted hreply
    have hreleased : (arena.releaseTable middle).requests = middle.requests ∧
        (arena.releaseTable middle).granted = middle.granted := by
      unfold releaseTable
      split_ifs
      · exact ⟨rfl, rfl⟩
      · exact Recorded.lists_of_releases middle [_]
    exact ⟨arena.releaseTable middle, hreleased.1.trans hrequests,
      Or.inl ⟨hreleased.2.trans hgranted, rfl⟩⟩
  | refused middle =>
    obtain ⟨hrequests, hgranted⟩ := Recorded.lists_of_refused hreply
    exact ⟨middle, hrequests, Or.inr ⟨hgranted, rfl⟩⟩

/-- A full arena whose table cannot be laid out asks for nothing. -/
theorem grow_of_bound_le [Allocator α] (memory : α) (hbound : ¬ arena.grownBytes < Layout.bound) :
    arena.grow memory = ⟨.error .noMemory, arena, memory⟩ := by
  have htable :
      Layout.table? (grownCapacity arena.slotSize arena.capacity * arena.slotSize) = none := by
    rw [Option.eq_none_iff_forall_ne_some]
    intro layout heq
    exact hbound (Layout.table?_eq_some_iff.mp heq).1
  rw [grow]
  simp only [htable]

/-! ### Room that was made -/

/-- Room is there as long as nothing is put in. -/
theorem WellFormed.hasRoom_of_run [Allocator α] {operations : List (Operation ε)} {memory : α}
    {last : ArenaSession ε α} (h : arena.WellFormed vacant) (hroom : arena.HasRoom)
    (hinserts : ∀ operation ∈ operations, ¬ operation.inserts)
    (hrun : (Transcript.run Operation.run operations ⟨arena, memory⟩).ending = .ok last) :
    ∃ rest, last.arena.WellFormed rest ∧ last.arena.HasRoom := by
  induction operations generalizing arena memory vacant with
  | nil =>
    cases hrun
    exact ⟨vacant, h, hroom⟩
  | cons operation operations ih =>
    rw [Transcript.run] at hrun
    cases hstep : operation.run ⟨arena, memory⟩ with
    | error fault =>
      rw [hstep] at hrun
      cases hrun
    | ok result =>
      obtain ⟨answer, next, memory'⟩ := result
      rw [hstep] at hrun
      obtain ⟨hinsert, hinserts⟩ := List.forall_mem_cons.mp hinserts
      have hreserved : true = true → arena.HasRoom := fun _ => hroom
      obtain ⟨rest, hrest, hroom'⟩ := h.run_of_not_inserts hinsert hreserved hstep
      exact ih hrest (hroom' rfl) hinserts hrun

/-- As long as nothing is put in, whatever else is done, the next element asks for no memory and
goes into the table that is there. -/
def Ready [Allocator α] (session : ArenaSession ε α) : Prop :=
  ∀ (operations : List (Operation ε)) (last : ArenaSession ε α),
    (∀ operation ∈ operations, ¬ operation.inserts) →
    (Transcript.run Operation.run operations session).ending = .ok last →
    ∀ element, ∃ x after,
      last.arena.insert last.memory element = .ok (x, after, last.memory) ∧
      after.capacity = last.arena.capacity

theorem WellFormed.ready_of_reserve [Allocator α] {memory memory' : α} (h : arena.WellFormed vacant)
    (hreserve : arena.reserve memory = ⟨.ok (), after, memory'⟩) : Ready ⟨after, memory'⟩ := by
  intro operations last hinserts hrun element
  rcases h.reserve memory with ⟨e, middle, heq⟩ | ⟨capacity, middle, heq, hcap, hroom⟩
  · rw [hreserve] at heq
    cases heq
  · rw [hreserve] at heq
    cases heq
    obtain ⟨rest, hrest, hroom'⟩ := (h.withCapacity hcap).hasRoom_of_run hroom hinserts hrun
    obtain ⟨x, later, _, hinsert, hplaced⟩ := hrest.insert_eq hroom' last.memory element
    exact ⟨x, later, hinsert, hplaced.capacity⟩

/-! ### Foretold and done -/

/-- While handles are left there is room or the arena is full. -/
theorem WellFormed.hasRoom_or_full (h : arena.WellFormed vacant)
    (hleft : arena.live ≤ Handle.maxIndex) :
    arena.HasRoom ∨
      (∀ {β : Type} [Allocator β] (memory : β), arena.reserve memory = arena.grow memory) ∧
        arena.growthBytes =
          if arena.grownBytes < Layout.bound then some arena.grownBytes else none := by
  cases hfree : arena.free with
  | some x => exact Or.inl (Or.inl (by rw [hfree]; rfl))
  | none =>
    have hmax : arena.slots.size ≤ Handle.maxIndex := h.live_eq_size hfree ▸ hleft
    rcases Nat.lt_or_eq_of_le h.size_le_capacity with hlt | hfull
    · exact Or.inl (Or.inr ⟨hmax, hlt⟩)
    · refine Or.inr ⟨fun memory => ?_, growthBytes_of_full hfree hmax hfull⟩
      rw [Arena.reserve, if_neg (by simp [hfree]), if_neg (Nat.not_lt.mpr hmax),
        if_neg (Nat.not_lt.mpr (Nat.le_of_eq hfull.symm))]

/-- What a reachable arena foretells is what its reservation does, as long as there are handles
left: nothing is asked for if nothing is foretold, and otherwise the one request is made that is
foretold. If it is granted, the table is that large afterwards, and if it is refused, the arena
stays as it is. After a reservation that succeeds, the next element is put in without a request and
into the table that is there. -/
theorem Reachable.growth_foretold [Allocator α] (hr : Reachable arena) (hslot : 2 ≤ arena.slotSize)
    (hleft : arena.live ≤ Handle.maxIndex) (recorded : Recorded α) :
    (arena.growthBytes = some 0 → arena.reserve recorded = ⟨.ok (), arena, recorded⟩) ∧
    (∀ bytes, 0 < bytes → arena.growthBytes = some bytes →
      ∃ (recorded' : Recorded α) (capacity : Nat),
        capacity = max (max (2 * arena.capacity) (arena.capacity + 1))
          (if arena.slotSize ≤ 1024 then 4 else 1) ∧
        capacity * arena.slotSize = bytes ∧
        recorded'.requests = recorded.requests ++ [⟨bytes, 8⟩] ∧
        (recorded'.granted = recorded.granted ++ [⟨bytes, 8⟩] ∧
            arena.reserve recorded = ⟨.ok (), { arena with capacity }, recorded'⟩ ∨
          recorded'.granted = recorded.granted ∧
            arena.reserve recorded = ⟨.error .noMemory, arena, recorded'⟩)) ∧
    (arena.growthBytes = none → arena.reserve recorded = ⟨.error .noMemory, arena, recorded⟩) ∧
    ∀ (after : Arena ε) (recorded' : Recorded α),
      arena.reserve recorded = ⟨.ok (), after, recorded'⟩ → Ready ⟨after, recorded'⟩ := by
  obtain ⟨vacant, h⟩ := hr.wellFormed
  have hready : ∀ (after : Arena ε) (recorded' : Recorded α),
      arena.reserve recorded = ⟨.ok (), after, recorded'⟩ → Ready ⟨after, recorded'⟩ :=
    fun _ _ hreserve => h.ready_of_reserve hreserve
  rcases h.hasRoom_or_full hleft with hroom | ⟨hgrow, hbytes⟩
  · rw [growthBytes_of_hasRoom hroom]
    refine ⟨fun _ => reserve_eq_of_hasRoom hroom recorded, fun bytes hpos hsome => ?_,
      fun hnone => (by cases hnone), hready⟩
    cases hsome
    exact absurd hpos (Nat.lt_irrefl 0)
  · by_cases hbound : arena.grownBytes < Layout.bound
    · rw [hbytes, if_pos hbound]
      have hpos : 0 < arena.grownBytes := Nat.mul_pos
        (Nat.zero_lt_of_lt (lt_grownCapacity arena.slotSize arena.capacity)) (by omega)
      have hleast : leastCapacity arena.slotSize = if arena.slotSize ≤ 1024 then 4 else 1 :=
        if_neg (by omega)
      refine ⟨fun hzero => absurd (Option.some.inj hzero) (Nat.ne_of_gt hpos),
        fun bytes _ hsome => ?_, fun hnone => (by cases hnone), hready⟩
      cases hsome
      obtain ⟨recorded', hrequests, hgrown⟩ := grow_recorded recorded hbound
      refine ⟨recorded', _, by rw [grownCapacity, hleast], rfl, hrequests, ?_⟩
      rw [hgrow]
      exact hgrown
    · rw [hbytes, if_neg hbound]
      exact ⟨fun hzero => (by cases hzero), fun bytes _ hsome => (by cases hsome),
        fun _ => (hgrow recorded).trans (grow_of_bound_le recorded hbound), hready⟩

/-- One slot of eight bytes, in use. -/
def fullSample : Arena Nat :=
  { slotSize := 8, slots := #[.occupied 10], free := none, live := 1, capacity := 1 }

theorem fullSample_reachable : Reachable fullSample := by
  have hmade : Arena.withCapacity 8 1 (Heap.mk none) =
      (.ok { (Arena.empty 8 : Arena Nat) with capacity := 1 }, ⟨none⟩) := rfl
  have hinsert : (Operation.insert 10).run
      (ArenaSession.mk { (Arena.empty 8 : Arena Nat) with capacity := 1 } (Heap.mk none)) =
        .ok (.handle ⟨0, by decide⟩, ⟨fullSample, ⟨none⟩⟩) := rfl
  exact .step (.withCapacity hmade) hinsert

/-- A table of four slots is foretold, and asked for in a memory that grants it and in one that
does not. -/
theorem Reachable.growth_foretold_sample :
    fullSample.growthBytes = some 32 ∧
    (∃ recorded' : Recorded Heap, recorded'.requests = [⟨32, 8⟩] ∧
      fullSample.reserve ⟨⟨none⟩, []⟩ = ⟨.ok (), { fullSample with capacity := 4 }, recorded'⟩) ∧
    ∃ recorded' : Recorded Heap, recorded'.requests = [⟨32, 8⟩] ∧
      fullSample.reserve ⟨⟨some 32⟩, []⟩ = ⟨.error .noMemory, fullSample, recorded'⟩ := by
  have hbytes : fullSample.growthBytes = some 32 := rfl
  have hforetold := fun recorded : Recorded Heap =>
    (Reachable.growth_foretold fullSample_reachable (by decide) (by decide) recorded).2.1 32
      (by decide) hbytes
  refine ⟨hbytes, ?_, ?_⟩
  · obtain ⟨recorded', capacity, rfl, -, hrequests, ⟨-, heq⟩ | ⟨-, heq⟩⟩ := hforetold ⟨⟨none⟩, []⟩
    · exact ⟨recorded', hrequests, heq⟩
    · have hok : (fullSample.reserve (⟨⟨none⟩, []⟩ : Recorded Heap)).answer = .ok () := rfl
      rw [heq] at hok
      cases hok
  · obtain ⟨recorded', capacity, -, -, hrequests, ⟨-, heq⟩ | ⟨-, heq⟩⟩ :=
      hforetold ⟨⟨some 32⟩, []⟩
    · have herror : (fullSample.reserve (⟨⟨some 32⟩, []⟩ : Recorded Heap)).answer =
        .error .noMemory := rfl
      rw [heq] at herror
      cases herror
    · exact ⟨recorded', hrequests, heq⟩

end Arena

end MeteredMap
