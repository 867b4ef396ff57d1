import MeteredMap.Proofs.Memory.Generous
import MeteredMap.Proofs.Tree.Reachability
import MeteredMap.Tree.Footprint

/-!
# Asking before inserting

A map tells beforehand whether its memory has room for the next insertion. Under a budget over a
memory that grants every request, the answer is right but for one node: while a slot is free, it
asks for the 48 bytes of a node that the insertion does not need any more.

## Main definitions

* `MeteredMap.Tree.demand` : the bytes that the next insertion is reckoned to need.

## Main results

* `MeteredMap.Arena.WellFormed.growth_cases` : what is foretold of a growth is what is asked for.
* `MeteredMap.Tree.Sound.canPerform_eq_true_iff` : the answer of a map.
* `MeteredMap.Tree.Sound.insert_of_absent` : the outcome of inserting a key that is not there.
* `MeteredMap.Tree.Reachable.canPerform_agrees` : the answer against the insertion.
-/

namespace MeteredMap

/-! ### Growth -/

namespace Arena

variable {ε : Type} {arena : Arena ε} {vacant : List Handle}

/-- Where as many slots are in use as there is memory for, none is vacant. -/
theorem WellFormed.free_eq_none (h : arena.WellFormed vacant)
    (hfull : arena.capacity ≤ arena.live) : arena.free = none := by
  have hchain := h.chain
  rw [h.vacant_eq_nil hfull] at hchain
  exact hchain

/-- While a slot is free, no growth is foretold and none is asked for. Otherwise the table that is
asked for is as large as foretold. -/
theorem WellFormed.growth_cases (h : arena.WellFormed vacant)
    (hslot : arena.slotSize = Node.footprint) (hmax : arena.live ≤ Handle.maxIndex) :
    arena.live < arena.capacity ∧ arena.growthBytes = some 0 ∧ arena.growthRequests = [] ∨
      arena.live = arena.capacity ∧
        arena.growthBytes = some (grownCapacity Node.footprint arena.capacity * Node.footprint) ∧
        arena.growthRequests =
          [⟨grownCapacity Node.footprint arena.capacity * Node.footprint, 8⟩] := by
  rcases Nat.lt_or_ge arena.live arena.capacity with hlt | hge
  · have hroom := h.hasRoom hlt hmax
    exact Or.inl ⟨hlt, growthBytes_of_hasRoom hroom, growthRequests_of_hasRoom hroom⟩
  · have hfree := h.free_eq_none hge
    have hlive := h.live_eq_size hfree
    have hcap : arena.capacity = arena.slots.size :=
      Nat.le_antisymm (hlive ▸ hge) h.size_le_capacity
    rw [hlive] at hmax
    obtain ⟨layout, htable⟩ := exists_table_of_full hmax (Nat.le_of_eq hcap) hslot
    obtain ⟨hbound, rfl⟩ := Layout.table?_eq_some_iff.mp htable
    refine Or.inr ⟨hlive.trans hcap.symm, ?_, ?_⟩
    · rw [growthBytes_of_full hfree hmax hcap.symm, grownBytes, if_pos hbound, hslot]
    · rw [growthRequests_of_full hfree hmax (Nat.le_of_eq hcap), htable, hslot]
      rfl

end Arena

namespace Tree

variable {α : Type} [Allocator α] {tree : Tree} {s : Shape} {vacant : List Handle}
  {key value : Blob} {calls : List Call}

/-! ### The answer of a map -/

/-- The bytes that the next insertion is reckoned to need: its two blocks and, while a slot is
free, one node, otherwise the larger slot table. -/
def demand (tree : Tree) : Nat :=
  tree.keySize + tree.valueSize +
    if tree.size < tree.capacity then Node.footprint
    else Node.footprint * max (max (2 * tree.capacity) (tree.capacity + 1)) 4

private theorem grownBytes_eq (capacity : Nat) :
    Arena.grownCapacity Node.footprint capacity * Node.footprint =
      Node.footprint * max (max (2 * capacity) (capacity + 1)) 4 :=
  Nat.mul_comm _ _

/-- What is foretold of an insertion, as far as it is a 64-bit word. -/
theorem Sound.insertFootprint_eq (h : tree.Sound s vacant) (hmax : tree.size ≤ Handle.maxIndex) :
    tree.insertFootprint = if tree.demand < UInt64.size then some tree.demand else none := by
  rw [insertFootprint, demand]
  rcases h.wellFormed.growth_cases h.slotSize hmax with
    ⟨hlt, hbytes, -⟩ | ⟨heq, hbytes, -⟩
  · rw [hbytes, if_pos (show tree.size < tree.capacity from hlt)]
    rfl
  · have hfull : ¬ tree.size < tree.capacity := Nat.not_lt.mpr (Nat.le_of_eq heq.symm)
    have hpos : Node.footprint * max (max (2 * tree.capacity) (tree.capacity + 1)) 4 ≠ 0 := by
      simp only [Node.footprint]
      omega
    rw [hbytes, if_neg hfull, grownBytes_eq]
    dsimp only [bind, Option.bind]
    rw [if_neg (show ¬ Node.footprint * max (max (2 * tree.nodes.capacity)
      (tree.nodes.capacity + 1)) 4 = 0 from hpos)]
    rfl

/-- The sizes of the requests of an insertion, next to what it is reckoned to need. -/
theorem Sound.sum_insertRequests (h : tree.Sound s vacant) (hmax : tree.size ≤ Handle.maxIndex) :
    (tree.insertRequests.map Layout.size).sum +
        (if tree.size < tree.capacity then Node.footprint else 0) = tree.demand := by
  rw [insertRequests, demand]
  rcases h.wellFormed.growth_cases h.slotSize hmax with
    ⟨hlt, -, hrequests⟩ | ⟨heq, -, hrequests⟩
  · have hfree : tree.size < tree.capacity := hlt
    rw [hrequests, if_pos hfree, if_pos hfree]
    rfl
  · have hfull : ¬ tree.size < tree.capacity := Nat.not_lt.mpr (Nat.le_of_eq heq.symm)
    rw [hrequests, if_neg hfull, if_neg hfull, grownBytes_eq]
    simp only [List.map_cons, List.map_nil, List.sum_cons, List.sum_nil, Nat.add_zero]
    exact (Nat.add_assoc _ _ _).symm

/-- A map under a budget answers that there is room exactly if what it reckons to need, and what
is asked for, is one valid block and fits into what remains. -/
theorem Sound.canPerform_eq_true_iff (h : tree.Sound s vacant)
    (hmax : tree.size ≤ Handle.maxIndex) (budget : Budget α) (required : Nat) :
    tree.canPerform budget required = true ↔
      max tree.demand required ≤ 2 ^ 63 - 8 ∧ max tree.demand required ≤ budget.remaining := by
  have hblock : ∀ size : Nat, size ≤ 2 ^ 63 - 8 ↔ size + 8 ≤ Layout.bound := by
    intro size
    rw [Layout.bound]
    omega
  rw [canPerform, h.insertFootprint_eq hmax, hblock]
  by_cases hword : tree.demand < UInt64.size
  · rw [if_pos hword]
    dsimp only
    cases hlayout : Layout.block (max tree.demand required) with
    | error e =>
      have hlarge : ¬ max tree.demand required + 8 ≤ Layout.bound := by
        intro hle
        rw [Layout.block_eq_ok_iff.mpr ⟨hle, rfl⟩] at hlayout
        cases hlayout
      simp [hlarge]
    | ok layout =>
      obtain ⟨hle, rfl⟩ := Layout.block_eq_ok_iff.mp hlayout
      simp [hle, Allocator.canAllocate, Budget.fits]
  · rw [if_neg hword]
    simp only [Bool.false_eq_true, false_iff, not_and]
    rw [UInt64.size] at hword
    rw [Layout.bound]
    omega

/-! ### The insertion -/

/-- A key of the right length that a search does not find is inserted, unless there is no room for
one more entry. -/
theorem Sound.insert_of_absent (h : tree.Sound s vacant) (memory : α)
    (hkey : key.length = tree.keySize) (hvalue : value.length = tree.valueSize)
    (habsent : tree.search key = .ok ⟨none, calls⟩) :
    (∃ e memory', tree.refusal memory = some e ∧
        tree.insert memory key value = .ok ⟨⟨.error e, tree, memory'⟩, calls⟩) ∨
      ∃ x after memory', tree.refusal memory = none ∧
        tree.insert memory key value = .ok ⟨⟨.ok x, after, memory'⟩, calls⟩ := by
  rw [h.hasShape.search] at habsent
  rcases hplace : Shape.locate tree.comparator.compare key [] s with ⟨path, _ | ⟨c, x, e, l, r⟩⟩
  · rw [hplace] at habsent
    cases habsent
    have hplug := Shape.plug_locate tree.comparator.compare key [] s
    rw [hplace] at hplug
    obtain rfl : Shape.plug path Shape.absent = s := hplug
    rcases h.insert_at_place memory hkey hvalue hplace with
      ⟨cause, memory', heq, hcause⟩ | ⟨x, capacity, after, memory', rest, heq, hnone, -⟩
    · exact Or.inl ⟨cause, memory', hcause, heq⟩
    · exact Or.inr ⟨x, after, memory', hnone, heq⟩
  · rw [hplace] at habsent
    cases habsent

/-- Under a budget over a generous memory there is room for one more entry exactly if the requests
of an insertion fit into what remains. -/
theorem refusal_eq (hmax : tree.size ≤ Handle.maxIndex) {budget : Budget α}
    (hg : Allocator.Generous budget.inner) :
    tree.refusal budget =
      if budget.remaining < (tree.insertRequests.map Layout.size).sum then some .noMemory
      else none := by
  simp only [refusal, Budget.grantedBefore_lt_iff hg, if_neg (Nat.not_lt.mpr hmax)]

/-- An insertion succeeds. -/
def Accepts (tree : Tree) (memory : α) (key value : Blob) : Prop :=
  ∃ x after memory' calls, tree.insert memory key value = .ok ⟨⟨.ok x, after, memory'⟩, calls⟩

/-- An insertion fails for want of memory and leaves the tree as it was. -/
def Refuses (tree : Tree) (memory : α) (key value : Blob) : Prop :=
  ∃ memory' calls,
    tree.insert memory key value = .ok ⟨⟨.error .noMemory, tree, memory'⟩, calls⟩

/-- Under a budget over a generous memory, a map that has a handle left answers that there is room
for `n` bytes exactly if `n`, and what it reckons an insertion to need, are valid sizes of a block
and fit into what remains. A key of the right length that is not there is then inserted. If there
is no room, the insertion fails where the slot table is full; and where a slot is free it succeeds
only if its two blocks fit and a node does not fit beside them. -/
theorem Reachable.canPerform_agrees (hr : Reachable tree) (hsize : tree.size < 2 ^ 32 - 1)
    {budget : Budget α} (hg : Allocator.Generous budget.inner) :
    (∀ n, tree.canPerform budget n = true ↔
        max tree.demand n ≤ 2 ^ 63 - 8 ∧ max tree.demand n ≤ budget.remaining) ∧
      ∀ key value calls, key.length = tree.keySize → value.length = tree.valueSize →
        tree.search key = .ok ⟨none, calls⟩ →
        (∀ n, tree.canPerform budget n = true → tree.Accepts budget key value) ∧
        (tree.demand ≤ 2 ^ 63 - 8 → tree.canPerform budget 0 = false →
          (¬ tree.size < tree.capacity → tree.Refuses budget key value) ∧
          (tree.size < tree.capacity → tree.Accepts budget key value →
            tree.keySize + tree.valueSize ≤ budget.remaining ∧
              budget.remaining < tree.keySize + tree.valueSize + 48)) := by
  obtain ⟨s, vacant, h⟩ := hr.sound
  have hmax : tree.size ≤ Handle.maxIndex := by
    rw [Handle.maxIndex]
    omega
  have hanswer := h.canPerform_eq_true_iff hmax budget
  have hsum := h.sum_insertRequests hmax
  refine ⟨hanswer, fun key value calls hkey hvalue habsent => ?_⟩
  have hinsert := h.insert_of_absent budget hkey hvalue habsent
  rw [refusal_eq hmax hg] at hinsert
  have haccepts : (tree.insertRequests.map Layout.size).sum ≤ budget.remaining →
      tree.Accepts budget key value := by
    intro hle
    rw [if_neg (Nat.not_lt.mpr hle)] at hinsert
    rcases hinsert with ⟨e, memory', hnone, -⟩ | ⟨x, after, memory', -, heq⟩
    · cases hnone
    · exact ⟨x, after, memory', calls, heq⟩
  have hrefuses : budget.remaining < (tree.insertRequests.map Layout.size).sum →
      tree.Refuses budget key value := by
    intro hlt
    rw [if_pos hlt] at hinsert
    rcases hinsert with ⟨e, memory', hcause, heq⟩ | ⟨x, after, memory', hnone, -⟩
    · cases hcause
      exact ⟨memory', calls, heq⟩
    · cases hnone
  refine ⟨fun n hn => haccepts ?_, fun hbound hno => ?_⟩
  · have hfits := ((hanswer n).mp hn).2
    omega
  · have hlarge : budget.remaining < tree.demand := by
      rw [Bool.eq_false_iff, ne_eq, hanswer, Nat.max_zero] at hno
      omega
    refine ⟨fun hfull => hrefuses ?_, fun hfree haccept => ?_⟩
    · rw [if_neg hfull] at hsum
      omega
    · rw [if_pos hfree] at hsum
      have hblocks : tree.demand = tree.keySize + tree.valueSize + 48 := by
        rw [demand, if_pos hfree]
        rfl
      have hle : (tree.insertRequests.map Layout.size).sum ≤ budget.remaining := by
        by_contra hlt
        obtain ⟨x, after, memory', calls, hok⟩ := haccept
        obtain ⟨memory'', calls', herror⟩ := hrefuses (Nat.lt_of_not_le hlt)
        rw [hok] at herror
        cases herror
      rw [hblocks] at hsum hlarge
      simp only [Node.footprint] at hsum
      omega

/-- Four insertions fill a table. Of a budget of 400 bytes 200 are left then, and a larger table
does not fit, which the map foretells; under a limit of 1000 bytes it does. -/
theorem Reachable.canPerform_agrees_sample :
    ∃ full memory' calls,
      Operation.runAll (sampleRun.take 4) sampleTree sampleMemory = .ok (full, memory') ∧
      full.search [5] = .ok ⟨none, calls⟩ ∧ full.demand = 386 ∧ memory'.remaining = 200 ∧
      full.canPerform memory' 0 = false ∧ full.Refuses memory' [5] [0] ∧
      full.canPerform (memory'.setLimit (.exactly 1000)) 0 = true ∧
      full.Accepts (memory'.setLimit (.exactly 1000)) [5] [0] := by
  obtain ⟨full, memory', hrun, hfull⟩ := exists_sampleRun_take 4
  have hfacts : (Operation.runAll (sampleRun.take 4) sampleTree sampleMemory).map
      (fun p => (p.1.size, p.1.capacity, p.1.keySize, p.1.valueSize, p.1.demand, p.2)) =
        .ok (4, 4, 1, 1, 386, ⟨⟨none⟩, 400, 200, 9, 9⟩) := rfl
  have hsearch : (Operation.runAll (sampleRun.take 4) sampleTree sampleMemory >>= fun p =>
      (p.1.search [5]).map Traced.value) = .ok none := rfl
  rw [hrun] at hfacts hsearch
  simp only [Except.map, Except.ok.injEq, Prod.mk.injEq] at hfacts
  obtain ⟨hsize, hcapacity, hkey, hvalue, hdemand, rfl⟩ := hfacts
  cases habsent : full.search [5] with
  | error fault => simp [habsent, Except.map] at hsearch
  | ok traced =>
    obtain ⟨found, calls⟩ := traced
    obtain rfl : found = none := by simpa [habsent, Except.map] using hsearch
    have hroom : full.size < 2 ^ 32 - 1 := by omega
    obtain ⟨htight, hno⟩ := Reachable.canPerform_agrees hfull hroom
      (show Allocator.Generous (⟨⟨none⟩, 400, 200, 9, 9⟩ : Budget Heap).inner from Heap.generous)
    obtain ⟨hwide, hyes⟩ := Reachable.canPerform_agrees hfull hroom
      (show Allocator.Generous (⟨⟨none⟩, 1000, 200, 9, 9⟩ : Budget Heap).inner from Heap.generous)
    have hfalse : full.canPerform (⟨⟨none⟩, 400, 200, 9, 9⟩ : Budget Heap) 0 = false := by
      rw [Bool.eq_false_iff, ne_eq, htight, hdemand]
      decide
    have htrue : full.canPerform (⟨⟨none⟩, 1000, 200, 9, 9⟩ : Budget Heap) 0 = true := by
      rw [hwide, hdemand]
      decide
    refine ⟨full, _, calls, hrun, habsent, hdemand, rfl, hfalse, ?_, htrue, ?_⟩
    · exact ((hno [5] [0] calls hkey.symm hvalue.symm habsent).2 (by rw [hdemand]; decide)
        hfalse).1 (by omega)
    · exact (hyes [5] [0] calls hkey.symm hvalue.symm habsent).1 0 htrue

end Tree

end MeteredMap
