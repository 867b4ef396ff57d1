import MeteredMap.Proofs.Memory.Exchange
import MeteredMap.Proofs.Tree.Copying
import MeteredMap.Proofs.Tree.Shedding
import MeteredMap.Tree.Footprint

/-!
# What a map holds

The blocks of its memory that a map holds: its slot table, if it has slots, and two blocks for each
entry. Every operation of a map is an exchange between what the map holds before and after it, and
shedding entries is one that asks for nothing.

## Main definitions

* `MeteredMap.Tree.holdings` : the blocks that a map holds.
* `MeteredMap.Tree.share`, `MeteredMap.Tree.blockCount` : their bytes and their number.

## Main results

* `MeteredMap.Tree.Sheds.exchange` : entries that are gone.
* `MeteredMap.Tree.Sound.exchange_of_insert` : an insertion.
* `MeteredMap.Tree.Sound.exists_clone` : a clone.
* `MeteredMap.Tree.Sound.exists_dispose` : a map that is dropped.
-/

namespace MeteredMap

namespace Arena

variable {α ε : Type} [Allocator α] {arena after : Arena ε} {memory memory' : α}

theorem tableBlocks_zero (slotSize : Nat) : tableBlocks slotSize 0 = [] :=
  if_pos (Nat.zero_mul slotSize)

theorem tableBlocks_of_pos {slotSize capacity : Nat} (hslot : 0 < slotSize) (h : 0 < capacity) :
    tableBlocks slotSize capacity = [⟨capacity * slotSize, 8⟩] :=
  if_neg (Nat.ne_of_gt (Nat.mul_pos h hslot))

theorem pos_of_mem_tableBlocks {slotSize capacity : Nat} :
    ∀ layout ∈ tableBlocks slotSize capacity, 0 < layout.size := by
  intro layout hl
  rw [tableBlocks] at hl
  split_ifs at hl with hzero
  · cases hl
  · rw [List.mem_singleton.mp hl]
    exact Nat.pos_of_ne_zero hzero

/-- A reservation that succeeds exchanges the table for the one that is there then. -/
theorem exchange_of_reserve (hslot : 0 < arena.slotSize)
    (h : arena.reserve memory = ⟨.ok (), after, memory'⟩) :
    ∃ n, Exchange memory (tableBlocks arena.slotSize arena.capacity) n memory'
      (tableBlocks arena.slotSize after.capacity) := by
  rcases reserve_cases arena memory with ⟨-, heq⟩ | ⟨-, heq⟩ | ⟨-, heq⟩
  · rw [heq] at h
    cases h
    exact ⟨0, .refl memory _⟩
  · rw [heq] at h
    cases h
  · rw [heq, grow] at h
    split at h
    · cases h
    · next layout htable =>
      obtain ⟨-, rfl⟩ := Layout.table?_eq_some_iff.mp htable
      split at h
      · cases h
      · next middle hreply =>
        cases h
        have hlarger : 0 < grownCapacity arena.slotSize arena.capacity :=
          Nat.zero_lt_of_lt (lt_grownCapacity arena.slotSize arena.capacity)
        have hgrants : Grants memory
            (tableBlocks arena.slotSize (grownCapacity arena.slotSize arena.capacity)) middle := by
          rw [tableBlocks_of_pos hslot hlarger]
          exact .cons hreply (.nil middle)
        -- Both tables are held for a moment.
        have hboth := Exchange.granted (tableBlocks arena.slotSize arena.capacity) hgrants
          pos_of_mem_tableBlocks
        rw [releaseTable_eq]
        exact ⟨_, (hboth.trans_zero (.perm middle List.perm_append_comm)).trans_zero
          (.released middle _ _)⟩

end Arena

namespace Tree

open Shape

variable {α : Type} [Allocator α] {tree after copy : Tree} {s : Shape} {vacant : List Handle}
  {memory memory' : α} {n : Nat}

/-! ### Blocks of a map -/

/-- The blocks that a map holds: the one of its slot table and two for each entry. -/
def holdings (tree : Tree) : List Layout :=
  Arena.tableBlocks Node.footprint tree.capacity ++ tree.copyRequests tree.size

/-- The bytes of the blocks that a map holds. -/
def share (tree : Tree) : Nat :=
  48 * tree.capacity + tree.size * (tree.keySize + tree.valueSize)

/-- The number of the blocks that a map holds. -/
def blockCount (tree : Tree) : Nat :=
  2 * tree.size + if tree.capacity = 0 then 0 else 1

/-- The bytes that a map takes up itself, besides the blocks that it holds. -/
def structSize (α : Type) [Allocator α] (tree : Tree) : Nat :=
  ownFootprint + Allocator.footprint α + tree.comparator.footprint

/-- A map says that it takes up what it holds without the slots that have no entry, and its own
size. -/
theorem memoryUsage_sub (tree : Tree)
    (h : tree.structSize α + tree.size * tree.entryFootprint < 2 ^ 64) :
    (tree.memoryUsage α : Int) - tree.structSize α =
      tree.share - 48 * (tree.capacity - tree.size) := by
  have husage : tree.memoryUsage α = tree.structSize α + tree.size * tree.entryFootprint :=
    Nat.mod_eq_of_lt h
  rw [husage, share, entryFootprint, Node.footprint, Nat.add_assoc, Nat.mul_add]
  omega

theorem sum_copyRequests (tree : Tree) (n : Nat) :
    ((tree.copyRequests n).map Layout.size).sum = n * (tree.keySize + tree.valueSize) := by
  induction n with
  | zero => rw [Nat.zero_mul]; rfl
  | succ n ih =>
    rw [copyRequests_succ, List.map_append, List.sum_append, ih, Nat.succ_mul, Nat.add_comm]
    rfl

theorem sum_holdings (tree : Tree) : (tree.holdings.map Layout.size).sum = tree.share := by
  rw [holdings, share, List.map_append, List.sum_append, sum_copyRequests]
  rcases Nat.eq_zero_or_pos tree.capacity with hzero | hpos
  · rw [hzero, Arena.tableBlocks_zero]
    rfl
  · rw [Arena.tableBlocks_of_pos (by decide) hpos, Nat.mul_comm 48]
    rfl

theorem length_holdings (tree : Tree) : tree.holdings.length = tree.blockCount := by
  rw [holdings, blockCount, List.length_append, length_copyRequests, Nat.add_comm]
  rcases Nat.eq_zero_or_pos tree.capacity with hzero | hpos
  · rw [if_pos hzero, hzero, Arena.tableBlocks_zero]
    rfl
  · rw [if_neg (Nat.ne_of_gt hpos), Arena.tableBlocks_of_pos (by decide) hpos]
    rfl

theorem copyRequests_add (tree : Tree) (n k : Nat) :
    tree.copyRequests (n + k) = tree.copyRequests n ++ tree.copyRequests k := by
  rw [copyRequests, List.replicate_add, List.flatten_append, copyRequests, copyRequests]

/-- No block of a map is of no bytes. -/
theorem Sound.pos_of_mem_copyRequests (h : tree.Sound s vacant) (n : Nat) :
    ∀ layout ∈ tree.copyRequests n, 0 < layout.size := by
  obtain ⟨⟨hkey, hvalue⟩, -, -⟩ := Sound.layouts_of_eq h.layouts
  intro layout hl
  obtain ⟨pair, hpair, hl⟩ := List.mem_flatten.mp hl
  rw [List.eq_of_mem_replicate hpair] at hl
  simp only [List.mem_cons, List.not_mem_nil, or_false] at hl
  rcases hl with rfl | rfl
  · exact hkey
  · exact hvalue

/-! ### Exchanges of a map -/

/-- What a map held are the blocks of the entries that are gone and what it still holds. -/
theorem Sheds.holdings_perm (h : Sheds tree memory n after memory') :
    tree.holdings.Perm (tree.copyRequests n ++ after.holdings) := by
  have hcapacity : after.capacity = tree.capacity := h.capacity
  rw [holdings, holdings, hcapacity, ← h.size, h.akin.copyRequests_eq, Nat.add_comm,
    copyRequests_add]
  exact List.perm_append_comm_assoc _ _ _

/-- Entries that are gone have given their blocks back, and nothing was asked for. -/
theorem Sheds.exchange (h : Sheds tree memory n after memory') :
    Exchange memory tree.holdings 0 memory' after.holdings := by
  rw [h.memory, iterate_releaseBlocks]
  exact (Exchange.perm memory h.holdings_perm).trans (.released memory _ _)

/-- What an insertion was granted, with the larger table in the place of the old one. -/
theorem Sound.exchange_of_provision (h : tree.Sound s vacant) {capacity : Nat}
    (hprov : tree.provision memory = ⟨.ok (), { tree.nodes with capacity }, memory'⟩) :
    ∃ n, Exchange memory (Arena.tableBlocks Node.footprint tree.capacity) n memory'
      (Arena.tableBlocks Node.footprint capacity ++ tree.copyRequests 1) := by
  have hslot : 0 < tree.nodes.slotSize := by
    rw [h.slotSize]
    decide
  obtain ⟨middle, hblocks, hreserve⟩ := grants_of_provision_eq_ok hprov
  obtain ⟨n, htable⟩ := Arena.exchange_of_reserve hslot hreserve
  rw [h.slotSize] at htable
  have hheld := Exchange.granted (Arena.tableBlocks Node.footprint tree.capacity) hblocks
    (h.pos_of_mem_copyRequests 1)
  exact ⟨_, (hheld.trans_zero (.perm middle List.perm_append_comm)).trans
    (htable.frame (tree.copyRequests 1))⟩

/-- After an insertion a map holds the table that was asked for and the blocks of one entry more. -/
theorem Inserted.holdings_eq {path : List Frame} {x : Handle} {e : Entry} {capacity : Nat}
    {rest : List Handle} (hi : tree.Inserted vacant path x e capacity after rest)
    (h : tree.Sound (plug path absent) vacant) :
    after.holdings = Arena.tableBlocks Node.footprint capacity ++ tree.copyRequests 1 ++
      tree.copyRequests tree.size := by
  have hcapacity : after.capacity = capacity := hi.capacity_eq
  have hsize : after.size = 1 + tree.size := by
    rw [hi.sound.size_eq, h.size_eq, size_withLeaf, Nat.add_comm]
  rw [holdings, hcapacity, hsize, hi.akin.copyRequests_eq, copyRequests_add, List.append_assoc]

/-- All that an insertion can do to a sound tree and its memory. -/
theorem Sound.exchange_of_insert (h : tree.Sound s vacant) (memory : α) (key value : Blob) :
    ∃ answer after memory' calls t rest n,
      tree.insert memory key value = .ok ⟨⟨answer, after, memory'⟩, calls⟩ ∧
      after.Sound t rest ∧ Exchange memory tree.holdings n memory' after.holdings := by
  rcases h.insert_cases memory key value with
    ⟨e, calls, heq, -⟩ | ⟨e, memory', calls, hprov, heq⟩ |
      ⟨path, x, capacity, memory', after, rest, calls, hprov, heq, rfl, hinserted⟩
  · exact ⟨_, tree, memory, calls, s, vacant, 0, heq, h, .refl memory _⟩
  · obtain ⟨gs, rs, hperm, htraffic, -⟩ := traffic_of_provision_error hprov
    exact ⟨_, tree, memory', calls, s, vacant, _, heq, h, .undone _ hperm htraffic⟩
  · obtain ⟨n, hexchange⟩ := h.exchange_of_provision hprov
    refine ⟨_, after, memory', calls, _, rest, n, heq, hinserted.sound, ?_⟩
    rw [hinserted.holdings_eq h]
    exact hexchange.frame (tree.copyRequests tree.size)

/-- A new map holds the slot table that it was granted. -/
theorem exchange_of_withCapacity (keySize valueSize capacity : Nat) (comparator : Comparator)
    (memory : α) (held : List Layout) :
    (∃ cause memory' n,
        withCapacity keySize valueSize capacity comparator memory = (.error cause, memory') ∧
        Exchange memory held n memory' held) ∨
      ∃ tree memory' n,
        withCapacity keySize valueSize capacity comparator memory = (.ok tree, memory') ∧
        tree.Sound Shape.absent [] ∧ Exchange memory held n memory' (tree.holdings ++ held) := by
  unfold withCapacity
  split
  · next cause _ => exact Or.inl ⟨cause, memory, 0, rfl, .refl memory held⟩
  · next keyLayout valueLayout hlayouts =>
    split
    · exact Or.inl ⟨_, memory, 0, rfl, .refl memory held⟩
    · next hmax =>
      have hbound : capacity * Node.footprint < Layout.bound := by
        simp only [Handle.maxIndex, Node.footprint, Layout.bound] at hmax ⊢
        omega
      rcases Arena.withCapacity_cases hbound memory (ε := Node) with
        ⟨memory', hgrants, heq⟩ | ⟨memory', layout, -, hrefused, heq⟩
      · have hgranted := Exchange.granted held hgrants Arena.pos_of_mem_tableBlocks
        rw [heq]
        refine Or.inr ⟨_, memory', (Arena.tableBlocks Node.footprint capacity).length, rfl,
          .ofUnused hlayouts capacity comparator, ?_⟩
        rw [holdings, List.append_assoc]
        exact hgranted
      · rw [heq]
        exact Or.inl ⟨_, memory', _, rfl, .undone held (.refl []) (.refused hrefused (.refl _))⟩

/-- A clone holds what was granted for it, and one that fails leaves everything as it was. -/
theorem Sound.exists_clone (h : tree.Sound s vacant) (memory : α) (held : List Layout) :
    (∃ cause memory' calls n, tree.clone memory = .ok ⟨(.error cause, memory'), calls⟩ ∧
        Exchange memory held n memory' held) ∨
      ∃ copy memory' calls t rest n, tree.clone memory = .ok ⟨(.ok copy, memory'), calls⟩ ∧
        copy.Sound t rest ∧ Exchange memory held n memory' (copy.holdings ++ held) := by
  rcases h.clone_cases memory with
    ⟨copy, memory', calls, heq, hfilled, hgrants⟩ |
      ⟨cause, gs, rs, memory', calls, heq, hperm, ht, -⟩
  · obtain ⟨t, rest, ht, hsize⟩ := hfilled.sound
    have hheld : tree.cloneRequests = copy.holdings := by
      have hcapacity : copy.capacity = tree.size := hfilled.capacity
      have hcount : copy.size = tree.size := by rw [ht.size_eq, hsize, h.size_eq]
      have hakin : Akin tree copy := ⟨hfilled.akin.1, hfilled.akin.2, hfilled.akin.3⟩
      rw [cloneRequests, holdings, hcapacity, hcount, hakin.copyRequests_eq]
    have hpos : ∀ layout ∈ tree.cloneRequests, 0 < layout.size := by
      intro layout hl
      rcases List.mem_append.mp hl with hl | hl
      · exact Arena.pos_of_mem_tableBlocks layout hl
      · exact h.pos_of_mem_copyRequests tree.size layout hl
    refine Or.inr ⟨copy, memory', calls, t, rest, tree.cloneRequests.length, heq, ht, ?_⟩
    rw [← hheld]
    exact .granted held hgrants hpos
  · exact Or.inl ⟨cause, memory', calls, _, heq, .undone held hperm ht⟩

/-- A map that is dropped gives back everything that it holds. -/
theorem Sound.exists_dispose (h : tree.Sound s vacant) (memory : α) (held : List Layout) :
    ∃ memory', tree.dispose memory = .ok memory' ∧
      Exchange memory (tree.holdings ++ held) 0 memory' held := by
  refine ⟨_, h.hasShape.dispose memory, ?_⟩
  have hentries : Exchange memory (tree.copyRequests s.size ++
      (Arena.tableBlocks Node.footprint tree.capacity ++ held)) 0
        (tree.releaseBlocks^[s.size] memory)
        (Arena.tableBlocks Node.footprint tree.capacity ++ held) := by
    rw [iterate_releaseBlocks]
    exact .released memory _ _
  rw [Arena.releaseTable_eq, h.slotSize, holdings, h.size_eq, List.append_assoc]
  exact ((Exchange.perm memory (List.perm_append_comm_assoc _ _ _)).trans hentries).trans
    (.released _ _ held)

end Tree

end MeteredMap
