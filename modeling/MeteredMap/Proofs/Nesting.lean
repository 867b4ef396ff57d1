import MeteredMap.Proofs.Accounting
import MeteredMap.Proofs.Memory.Requests
import MeteredMap.Proofs.Preflight
import MeteredMap.Proofs.Translation

/-!
# Maps under nested budgets

Any number of maps live under a budget over a budget over a generous memory, together with someone
who takes blocks from the outer budget directly. Whatever they do, and however the outer limit
moves, both budgets are in step after every single request and release. An insertion that needs a
larger slot table is decided by both budgets, although only the outer one is asked beforehand.

## Main definitions

* `MeteredMap.Shared`, `MeteredMap.SharedCommand` : maps and blocks that share one memory.
* `MeteredMap.Tree.DecidedByBoth` : what decides about an insertion.
* `MeteredMap.Shared.Kept` : sound maps under nested budgets in step.

## Main results

* `MeteredMap.Tree.Sound.decidedByBoth` : insertions without a free slot.
* `MeteredMap.Shared.Kept.exists_step` : one command.
* `MeteredMap.Shared.stays_in_step` : all runs.
-/

namespace MeteredMap

variable {α β : Type} {n : Nat}

/-! ### Shared memories -/

/-- A command to maps that share a memory with one who uses it directly. -/
inductive SharedCommand (n : Nat := 8) where
  /-- A command to the maps. Those made by it follow the comparator. -/
  | toPool (comparator : Comparator) (command : PoolCommand n)
  | toMemory (call : MemoryCall)

/-- The answer to such a command. -/
inductive SharedAnswer where
  | fromPool (report : PoolReport)
  /-- The memory's counters after a direct call. -/
  | called (usage : Option Usage)

/-- Maps that share a memory with one who uses it directly. -/
structure Shared (α : Type) (n : Nat := 8) where
  pool : Pool α n
  /-- The blocks granted to direct calls and not given back. -/
  loose : List Layout

namespace Shared

/-- A memory without maps and without blocks granted. -/
def opened (memory : α) : Shared α n :=
  ⟨Pool.vacant memory, []⟩

/-- The ledger of the direct calls. -/
def ledger (shared : Shared α n) : Ledger α :=
  ⟨shared.pool.memory, shared.loose, 0⟩

/-- Carries out a command. -/
def step [Metered α] (command : SharedCommand n) (shared : Shared α n) :
    Except Fault (SharedAnswer × Shared α n) := do
  match command with
  | .toPool comparator command =>
    let (report, pool) ← shared.pool.step comparator command
    return (.fromPool report, { shared with pool })
  | .toMemory call =>
    let ledger := shared.ledger.step call
    return (.called (Metered.usage? ledger.memory),
      ⟨{ shared.pool with memory := ledger.memory }, ledger.held⟩)

/-- The same with its memory translated. -/
def translate (f : α → β) (shared : Shared α n) : Shared β n :=
  ⟨shared.pool.translate f, shared.loose⟩

theorem step_translate [Metered α] [Metered β] {f : α → β} (h : Metered.Translation f)
    (command : SharedCommand n) (shared : Shared α n) :
    step command (shared.translate f) = Prod.map id (·.translate f) <$> step command shared := by
  cases command with
  | toPool comparator command =>
    exact bind_eq_map_bind_of_map (Pool.step_translate h comparator command shared.pool)
      fun _ => rfl
  | toMemory call =>
    have hledger : (shared.translate f).ledger = shared.ledger.translate f := rfl
    have husage := h.usage? (shared.ledger.step call).memory
    simp only [step, hledger, Ledger.step_translate h]
    simp only [Ledger.translate, husage]
    rfl

end Shared

/-- A direct call that does not move the limit is traffic in the blocks that the caller holds. -/
theorem Ledger.exists_traffic [Metered α] (ledger : Ledger α) {call : MemoryCall}
    (hlimit : call.limit? = none) :
    ∃ gs rs, Traffic ledger.memory gs rs (ledger.step call).memory ∧
      (gs ++ ledger.held).Perm (rs ++ (ledger.step call).held) := by
  have hrequest : ∀ layout, ∃ gs rs,
      Traffic ledger.memory gs rs
        (ledger.enter layout (Allocator.allocate ledger.memory layout)).memory ∧
      (gs ++ ledger.held).Perm
        (rs ++ (ledger.enter layout (Allocator.allocate ledger.memory layout)).held) := by
    intro layout
    cases hreply : Allocator.allocate ledger.memory layout with
    | granted memory => exact ⟨[layout], [], .granted hreply (.refl memory), .refl _⟩
    | refused memory => exact ⟨[], [], .refused hreply (.refl memory), .refl _⟩
  cases call with
  | allocate layout => exact hrequest layout
  | allocateZeroed layout => exact hrequest layout
  | release position =>
    rw [step]
    cases hheld : ledger.held[position]? with
    | none => exact ⟨[], [], .refl ledger.memory, .refl _⟩
    | some layout => exact ⟨[], [layout], .released (.refl _), perm_eraseIdx hheld⟩
  | setLimit limit => cases hlimit

/-! ### Insertions without a free slot -/

namespace Tree

variable [Allocator β] {tree : Tree} {s : Shape} {vacant : List Handle}
  {outer : Budget (Budget β)} {footprint : Nat}

/-- The answer given beforehand depends on the outer budget alone, the insertion of a key that is
not there on both. -/
structure DecidedByBoth (tree : Tree) (outer : Budget (Budget β)) (footprint : Nat) : Prop where
  canPerform : tree.canPerform outer 0 = true ↔ footprint ≤ outer.remaining
  insert (key value : Blob) {calls : List Call} (hkey : key.length = tree.keySize)
    (hvalue : value.length = tree.valueSize) (habsent : tree.search key = .ok ⟨none, calls⟩) :
    (outer.FitsBoth footprint → tree.Accepts outer key value) ∧
      (¬ outer.FitsBoth footprint → tree.Refuses outer key value)

/-- Without a free slot, a footprint tells that there is a handle left. -/
theorem Sound.size_le_maxIndex (h : tree.Sound s vacant) (hfull : ¬ tree.size < tree.capacity)
    (hfootprint : tree.insertFootprint = some footprint) : tree.size ≤ Handle.maxIndex := by
  by_cases hmax : tree.size ≤ Handle.maxIndex
  · exact hmax
  have hfree := h.wellFormed.free_eq_none (Nat.not_lt.mp hfull)
  have hlive : tree.size = tree.nodes.slots.size := h.wellFormed.live_eq_size hfree
  rw [insertFootprint, Arena.growthBytes, hfree, if_neg (by simp), if_pos (by omega)] at hfootprint
  cases hfootprint

/-- Without a free slot, an insertion succeeds exactly if its footprint fits into what remains of
both budgets. -/
theorem Sound.decidedByBoth (h : tree.Sound s vacant) (hg : Allocator.Generous outer.inner.inner)
    (hfull : ¬ tree.size < tree.capacity) (hfootprint : tree.insertFootprint = some footprint)
    (hbound : footprint ≤ 2 ^ 63 - 8) : tree.DecidedByBoth outer footprint := by
  have hmax := h.size_le_maxIndex hfull hfootprint
  have hsum := h.sum_insertRequests hmax
  rw [if_neg hfull, Nat.add_zero] at hsum
  rw [h.insertFootprint_eq hmax] at hfootprint
  obtain ⟨-, rfl⟩ : tree.demand < UInt64.size ∧ tree.demand = footprint := by
    simpa using hfootprint
  have hrefused := Budget.grantedBefore_lt_iff_of_nested hg tree.insertRequests
  rw [hsum] at hrefused
  refine ⟨?_, fun key value calls hkey hvalue habsent => ?_⟩
  · rw [h.canPerform_eq_true_iff hmax, Nat.max_zero]
    exact and_iff_right hbound
  · have hinsert := h.insert_of_absent outer hkey hvalue habsent
    rw [refusal, if_neg (Nat.not_lt.mpr hmax)] at hinsert
    refine ⟨fun hfits => ?_, fun hfits => ?_⟩
    · rw [if_neg fun hlt => hrefused.mp hlt hfits] at hinsert
      obtain ⟨_, _, hnone, -⟩ | ⟨x, after, memory', -, heq⟩ := hinsert
      · cases hnone
      · exact ⟨x, after, memory', _, heq⟩
    · rw [if_pos (hrefused.mpr hfits)] at hinsert
      obtain ⟨_, memory', hcause, heq⟩ | ⟨_, _, _, hnone, -⟩ := hinsert
      · cases hcause
        exact ⟨memory', _, heq⟩
      · cases hnone

end Tree

/-! ### Runs -/

namespace Shared

variable [Allocator β] {innerLimit : UInt64} {shared : Shared (Recorded (Budget (Budget β))) n}

/-- Sound maps under nested budgets in step. What is in use is what the maps hold and what was
granted to direct calls. -/
structure Kept (shared : Shared (Recorded (Budget (Budget β))) n) (innerLimit : UInt64) :
    Prop where
  allSound : shared.pool.AllSound
  keeps : shared.pool.memory.Keeps innerLimit (shared.pool.held ++ shared.loose)

theorem Kept.opened {backing : β} (hg : Allocator.Generous backing)
    (outerLimit innerLimit : UInt64) :
    Kept (opened ⟨Budget.ofInner (Budget.ofInner backing innerLimit) outerLimit, []⟩ :
      Shared (Recorded (Budget (Budget β))) n) innerLimit := by
  have hmaps := Pool.maps_vacant (n := n)
    (⟨Budget.ofInner (Budget.ofInner backing innerLimit) outerLimit, []⟩ :
      Recorded (Budget (Budget β)))
  refine ⟨fun tree htree => ?_,
    ⟨hg, .ofInner backing outerLimit innerLimit, by rintro _ ⟨⟩⟩, ?_⟩
  · rw [Shared.opened, hmaps] at htree
    cases htree
  · rw [Shared.opened, Pool.held, hmaps]
    rfl

theorem Kept.exists_perform (h : shared.Kept innerLimit) (comparator : Comparator)
    (command : PoolCommand n) :
    ∃ answer pool, shared.pool.perform comparator command = .ok (answer, pool) ∧
      Kept { shared with pool } innerLimit := by
  rcases h.allSound.perform_cases comparator command with
    ⟨change, heq⟩ | ⟨answer, pool, k, heq, hsettles, -⟩
  · exact ⟨_, _, heq, h.allSound, h.keeps.setLimit change⟩
  · exact ⟨answer, pool, heq, hsettles.allSound,
      h.keeps.exchange (hsettles.exchange.frame shared.loose)⟩

/-- A direct call keeps the budgets in step as well. -/
theorem Kept.call (h : shared.Kept innerLimit) (call : MemoryCall) :
    Kept ⟨{ shared.pool with memory := (shared.ledger.step call).memory },
      (shared.ledger.step call).held⟩ innerLimit := by
  cases hlimit : call.limit? with
  | none =>
    obtain ⟨gs, rs, ht, hperm⟩ := shared.ledger.exists_traffic hlimit
    refine ⟨h.allSound, h.keeps.traffic ht ?_⟩
    calc gs ++ (shared.pool.held ++ shared.loose)
      _ |>.Perm (shared.pool.held ++ (gs ++ shared.loose)) := List.perm_append_comm_assoc _ _ _
      _ |>.Perm (shared.pool.held ++ (rs ++ (shared.ledger.step call).held)) :=
        hperm.append_left _
      _ |>.Perm (rs ++ (shared.pool.held ++ (shared.ledger.step call).held)) :=
        List.perm_append_comm_assoc _ _ _
  | some limit =>
    obtain rfl : call = .setLimit limit := by
      cases call <;> cases hlimit
      rfl
    exact ⟨h.allSound, h.keeps.setLimit (.exactly limit)⟩

/-- Every command is answered and keeps the budgets in step. -/
theorem Kept.exists_step (h : shared.Kept innerLimit) (command : SharedCommand n) :
    ∃ answer after, step command shared = .ok (answer, after) ∧ after.Kept innerLimit := by
  cases command with
  | toPool comparator command =>
    obtain ⟨answer, pool, heq, hafter⟩ := h.exists_perform comparator command
    obtain ⟨extent, hstep⟩ := hafter.allSound.exists_report heq
    exact ⟨_, { shared with pool }, by rw [step, hstep]; rfl, hafter⟩
  | toMemory call => exact ⟨_, _, rfl, h.call call⟩

/-- Over a generous memory, nested budgets stay in step in every run of commands to maps, of direct
calls and of changes of the outer limit. The run is the same if every request and release is written
down, and the record shows that after each of them the counters of both budgets were equal, that the
inner one kept to its limit, and that a request was granted exactly if it fitted both. A map without
a free slot then inserts a key that is not there exactly if its footprint fits both, although it
asks only the outer one. -/
theorem stays_in_step {backing : β} (hg : Allocator.Generous backing)
    (outerLimit innerLimit : UInt64) (commands : List (SharedCommand n)) :
    ∃ (answers : List SharedAnswer) (recorded : Shared (Recorded (Budget (Budget β))) n)
      (shared : Shared (Budget (Budget β)) n),
      (Transcript.run step commands
        (opened ⟨Budget.ofInner (Budget.ofInner backing innerLimit) outerLimit, []⟩)).finished =
          .ok (answers, recorded) ∧
      (Transcript.run step commands
        (opened (Budget.ofInner (Budget.ofInner backing innerLimit) outerLimit))).finished =
          .ok (answers, shared) ∧
      shared = recorded.translate Recorded.memory ∧
      (∀ event ∈ recorded.pool.memory.events, event.InStep innerLimit) ∧
      shared.pool.memory.InStep innerLimit ∧
      (∀ layout, (∃ after, Allocator.allocate shared.pool.memory layout = .granted after) ↔
        shared.pool.memory.FitsBoth layout.size) ∧
      ∀ tree ∈ shared.pool.maps, ¬ tree.size < tree.capacity → ∀ footprint,
        tree.insertFootprint = some footprint → footprint ≤ 2 ^ 63 - 8 →
          tree.DecidedByBoth shared.pool.memory footprint := by
  obtain ⟨answers, recorded, hrun, hkept⟩ :=
    Transcript.finished_of_preserves (fun command shared h => Kept.exists_step h command) commands
      (Kept.opened (n := n) hg outerLimit innerLimit)
  have hplain := Transcript.finished_map (step_translate Recorded.translation) commands
    (opened ⟨Budget.ofInner (Budget.ofInner backing innerLimit) outerLimit, []⟩ :
      Shared (Recorded (Budget (Budget β))) n)
  rw [hrun] at hplain
  have hinStep := hkept.keeps.inStep
  refine ⟨answers, recorded, recorded.translate Recorded.memory, hrun, hplain, rfl, hinStep.events,
    hinStep.now, fun layout => ⟨fun ⟨after, hgranted⟩ => ?_, fun hfits => ?_⟩, ?_⟩
  · by_cases hfits : recorded.pool.memory.memory.FitsBoth layout.size
    · exact hfits
    · have hrefused : Allocator.allocate (recorded.translate Recorded.memory).pool.memory layout =
        .refused _ := Budget.allocate_of_not_fitsBoth hfits
      rw [hrefused] at hgranted
      cases hgranted
  · obtain ⟨_, heq, -⟩ := Budget.allocate_of_fitsBoth hinStep.generous hfits
    exact ⟨_, heq⟩
  · intro tree htree hfull footprint hfootprint hbound
    obtain ⟨s, vacant, hs⟩ := hkept.allSound tree htree
    exact hs.decidedByBoth hinStep.generous hfull hfootprint hbound

/-- A map is filled and a block is taken beside it. The inner budget then ends a clone half-way, and
the outer one an insertion while its limit is below what is in use. -/
def sampleCommands : List (SharedCommand 2) :=
  [.toPool .lexicographic (.create Pool.front 1 1 none),
    .toPool .lexicographic (.toMap Pool.front (.insertMany [[1], [2], [3], [4]] [0])),
    .toMemory (.allocate ⟨20, 8⟩), .toPool .lexicographic (.clone Pool.front Pool.back),
    .toPool .lexicographic (.setLimit Pool.front (.exactly 100)),
    .toPool .lexicographic (.toMap Pool.front (.insert [5] [0])), .toMemory (.release 0),
    .toPool .lexicographic (.setLimit Pool.front (.exactly 1000))]

/-- Of 23 requests and releases, 15 were granted and 6 took a block back. The map then answers that
there is room for a larger table, and its next insertion fails. -/
theorem stays_in_step_sample :
    Allocator.Generous (Heap.mk none) ∧
      ∃ (recorded : Shared (Recorded (Budget (Budget Heap))) 2)
        (shared : Shared (Budget (Budget Heap)) 2) (tree : Tree),
        shared = recorded.translate Recorded.memory ∧ shared.pool.maps = [tree] ∧
        shared.pool.memory.usage = ⟨200, 9, 15⟩ ∧ recorded.pool.memory.events.length = 23 ∧
        (∀ event ∈ recorded.pool.memory.events, event.InStep 416) ∧
        tree.canPerform shared.pool.memory 0 = true ∧
        tree.Refuses shared.pool.memory [5] [0] := by
  obtain ⟨answers, recorded, shared, hrun, -, rfl, hevents, -, -, hmaps⟩ :=
    stays_in_step Heap.generous 1000 416 sampleCommands
  have hfacts : (Transcript.run step sampleCommands (opened
      (⟨Budget.ofInner (Budget.ofInner (Heap.mk none) 416) 1000, []⟩ : Recorded _))).finished.map
        (fun p => (p.2.pool.memory.memory, p.2.pool.memory.events.length,
          p.2.pool.maps.map fun tree =>
            (tree.size, tree.capacity, tree.keySize, tree.valueSize, tree.insertFootprint,
              (tree.search [5]).map Traced.value))) =
      .ok (⟨⟨⟨none⟩, 416, 200, 15, 9⟩, 1000, 200, 15, 9⟩, 23,
        [(4, 4, 1, 1, some 386, .ok none)]) := rfl
  rw [hrun] at hfacts
  simp only [Except.map, Except.ok.injEq, Prod.mk.injEq] at hfacts
  obtain ⟨hmemory, hlength, hfacts⟩ := hfacts
  obtain ⟨tree, htree, hfacts⟩ := List.map_eq_singleton_iff.mp hfacts
  simp only [Prod.mk.injEq] at hfacts
  obtain ⟨hsize, hcapacity, hkey, hvalue, hfootprint, hsearch⟩ := hfacts
  have hdecided := hmaps tree (htree ▸ List.mem_singleton_self tree) (by omega) 386 hfootprint
    (by decide)
  have hshared : (recorded.translate Recorded.memory).pool.memory =
    (⟨⟨⟨none⟩, 416, 200, 15, 9⟩, 1000, 200, 15, 9⟩ : Budget (Budget Heap)) := hmemory
  rw [hshared] at hdecided
  obtain ⟨calls, habsent⟩ : ∃ calls, tree.search [5] = .ok ⟨none, calls⟩ := by
    cases hsought : tree.search [5] with
    | error fault => simp [hsought] at hsearch
    | ok traced =>
      obtain ⟨found, calls⟩ := traced
      obtain rfl : found = none := by simpa [hsought] using hsearch
      exact ⟨calls, rfl⟩
  refine ⟨Heap.generous, recorded, _, tree, rfl, htree, ?_, hlength, hevents, ?_, ?_⟩
  · rw [hshared]
    rfl
  · rw [hshared]
    exact hdecided.canPerform.mpr (by decide)
  · rw [hshared]
    exact (hdecided.insert [5] [0] hkey.symm hvalue.symm habsent).2 (by decide)

end Shared

end MeteredMap
