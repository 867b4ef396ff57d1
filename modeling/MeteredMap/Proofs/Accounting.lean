import Mathlib.Data.List.Perm.Basic
import MeteredMap.Proofs.Commands
import MeteredMap.Session.Pool

/-!
# Accounting

Any number of maps share the memory under one budget. Whatever is done with them, whatever the
memory below the budget refuses and however the limit is moved, the counters of the budget tell to
the byte and to the block what the maps that are alive hold; only making maps, cloning and
inserting is counted as requests; and once all maps are dropped nothing is in use.

## Main definitions

* `MeteredMap.Pool.maps` : the maps that are alive.
* `MeteredMap.PoolCommand.Quiet` : the commands that ask for no memory.
* `MeteredMap.Pool.Settles` : what a command leaves is an exchange of what the maps held.
* `MeteredMap.Pool.Balanced` : the counters are right about sound maps.

## Main results

* `MeteredMap.Pool.Balanced.exists_perform` : one command.
* `MeteredMap.Pool.accounting` : all runs.
-/

namespace MeteredMap

/-- The command asks for no memory. -/
def PoolCommand.Quiet {n : Nat} : PoolCommand n → Prop
  | .create .. => False
  | .clone .. => False
  | .toMap _ command => command.Quiet
  | _ => True

namespace Pool

open MeteredMap.Tree

variable {α : Type} {n : Nat}

/-! ### The maps of a pool -/

/-- The maps that are alive. -/
def maps (pool : Pool α n) : List Tree :=
  pool.places.toList.filterMap id

/-- The blocks that the maps hold. -/
def held (pool : Pool α n) : List Layout :=
  pool.maps.flatMap Tree.holdings

theorem getElem_places (places : Vector (Option Tree) n) (place : Place n) :
    getElem places place place.isLt = places.get place :=
  rfl

/-- A vector around one of its places. -/
private theorem exists_split {β : Type} (xs : Vector β n) (i : Fin n) :
    ∃ pre post, xs.toList = pre ++ xs[i] :: post ∧
      ∀ x, (xs.set i x).toList = pre ++ x :: post := by
  have hi : i.val < xs.toList.length := by simp
  refine ⟨xs.toList.take i, xs.toList.drop (i + 1), ?_, fun x => ?_⟩
  · have hget : xs.toList[i.val] = xs[i] := Vector.getElem_toList hi
    rw [← hget, ← List.drop_eq_getElem_cons hi, List.take_append_drop]
  · rw [Vector.toList_set, List.set_eq_take_append_cons_drop, if_pos hi]

/-- The maps in the other places stay when one place is taken by another map or left vacant. -/
theorem exists_others {pool : Pool α n} {place : Place n} {old : Option Tree}
    (h : pool.places.get place = old) :
    ∃ others : List Tree, pool.maps.Perm (old.toList ++ others) ∧
      ∀ (memory : α) (new : Option Tree),
        (Pool.mk memory (pool.places.set place new place.isLt)).maps.Perm
          (new.toList ++ others) := by
  obtain ⟨pre, post, hplaces, hset⟩ := exists_split pool.places place
  have hperm : ∀ new : Option Tree,
      ((pre ++ new :: post).filterMap id).Perm
        (new.toList ++ (pre.filterMap id ++ post.filterMap id)) := by
    rintro (_ | tree)
    · rw [List.filterMap_append]
      exact .refl _
    · rw [List.filterMap_append]
      exact List.perm_middle
  refine ⟨pre.filterMap id ++ post.filterMap id, ?_, fun memory new => ?_⟩
  · have hold : pool.places[place] = old := h
    rw [maps, hplaces, hold]
    exact hperm old
  · rw [maps, hset]
    exact hperm new

theorem mem_maps {pool : Pool α n} {place : Place n} {tree : Tree}
    (h : pool.places.get place = some tree) : tree ∈ pool.maps := by
  obtain ⟨others, hmaps, -⟩ := exists_others h
  exact hmaps.mem_iff.mpr List.mem_cons_self

theorem maps_vacant (memory : α) : (vacant memory : Pool α n).maps = [] := by
  simp [maps, vacant]

/-! ### Exchanges of a pool -/

/-- All maps of a pool are sound. -/
def AllSound (pool : Pool α n) : Prop :=
  ∀ tree ∈ pool.maps, ∃ s vacant, tree.Sound s vacant

/-- A command to a pool leaves sound maps, and is an exchange of what they hold, in which so many
requests are granted. -/
structure Settles [Allocator α] (pool : Pool α n) (k : Nat) (after : Pool α n) : Prop where
  allSound : after.AllSound
  exchange : Exchange pool.memory pool.held k after.memory after.held

section

variable [Allocator α] {pool : Pool α n}

theorem Settles.refl (h : pool.AllSound) : Settles pool 0 pool :=
  ⟨h, .refl pool.memory pool.held⟩

/-- A map or nothing is put into a place, and what was there is dropped. -/
theorem exists_put (h : pool.AllSound) (place : Place n) (new : Option Tree)
    (hnew : ∀ tree ∈ new, ∃ s vacant, tree.Sound s vacant) :
    ∃ after, pool.put place new = .ok after ∧ after.AllSound ∧
      Exchange pool.memory (new.toList.flatMap Tree.holdings ++ pool.held) 0 after.memory
        after.held := by
  obtain ⟨old, hplace⟩ : ∃ old, pool.places[place] = old := ⟨_, rfl⟩
  obtain ⟨others, hmaps, hset⟩ := exists_others hplace
  have hsound : ∀ memory : α, (Pool.mk memory (pool.places.set place new)).AllSound := by
    intro memory tree htree
    rcases List.mem_append.mp ((hset memory new).mem_iff.mp htree) with htree | htree
    · exact hnew tree (Option.mem_toList.mp htree)
    · exact h tree (hmaps.mem_iff.mpr (List.mem_append_right _ htree))
  have hheld := fun memory => (hset memory new).flatMap_right Tree.holdings
  have hbefore := hmaps.flatMap_right Tree.holdings
  cases old with
  | none =>
    refine ⟨⟨pool.memory, pool.places.set place new⟩, ?_, hsound _, .perm _ ?_⟩
    · rw [put, hplace]
      rfl
    · refine List.Perm.trans ?_ (hheld pool.memory).symm
      rw [List.flatMap_append]
      exact hbefore.append_left _
  | some old =>
    obtain ⟨s, vacant, hold⟩ := h old (mem_maps hplace)
    obtain ⟨memory', hdispose, hexchange⟩ :=
      hold.exists_dispose pool.memory ((new.toList ++ others).flatMap Tree.holdings)
    refine ⟨⟨memory', pool.places.set place new⟩, ?_, hsound _, ?_⟩
    · rw [put, hplace]
      dsimp only
      rw [hdispose]
      rfl
    · refine ((Exchange.perm _ ?_).trans hexchange).trans (.perm _ (hheld memory').symm)
      rw [List.flatMap_append]
      exact (hbefore.append_left _).trans (List.perm_append_comm_assoc _ _ _)

/-- A map that was just made is put into a place, or the attempt to make one is over. -/
theorem settles_put (h : pool.AllSound) (place : Place n) {tree : Tree} {memory : α}
    (hnew : ∃ s vacant, tree.Sound s vacant) {k : Nat}
    (hexchange : Exchange pool.memory pool.held k memory (tree.holdings ++ pool.held)) :
    ∃ after, { pool with memory }.put place (some tree) = .ok after ∧ Settles pool k after := by
  have hmoved : Pool.AllSound { pool with memory } := h
  obtain ⟨after, heq, hafter, hput⟩ :=
    exists_put hmoved place (some tree) (by rintro _ ⟨⟩; exact hnew)
  rw [Option.toList_some, List.flatMap_singleton] at hput
  exact ⟨after, heq, hafter, hexchange.trans_zero hput⟩

/-- A map is changed in its place. -/
theorem settles_set (h : pool.AllSound) {place : Place n} {tree after : Tree} {memory : α} {k : Nat}
    (hplace : pool.places.get place = some tree) (hafter : ∃ s vacant, after.Sound s vacant)
    (hexchange : Exchange pool.memory tree.holdings k memory after.holdings) :
    Settles pool k ⟨memory, pool.places.set place (some after) place.isLt⟩ := by
  obtain ⟨others, hmaps, hset⟩ := exists_others hplace
  have hnew := hset memory (some after)
  refine ⟨?_, ?_⟩
  · rintro tree' htree'
    rcases List.mem_cons.mp (hnew.mem_iff.mp htree') with rfl | htree'
    · exact hafter
    · exact h tree' (hmaps.mem_iff.mpr (List.mem_cons_of_mem _ htree'))
  · have hfirst := Exchange.perm pool.memory (hmaps.flatMap_right Tree.holdings)
    have hlast := Exchange.perm memory (hnew.flatMap_right Tree.holdings).symm
    rw [← Nat.zero_add k]
    exact hfirst.trans ((hexchange.frame (others.flatMap Tree.holdings)).trans_zero hlast)

/-- An empty map without slots holds nothing. -/
theorem holdings_of_create {keySize valueSize : Nat} {comparator : Comparator} {tree : Tree}
    (h : Tree.create keySize valueSize comparator = .ok tree) : tree.holdings = [] := by
  obtain ⟨⟨keyLayout, valueLayout⟩, -, heq⟩ := bind_eq_ok_iff.mp h
  cases heq
  rw [Tree.holdings]
  exact congrArg (· ++ []) (Arena.tableBlocks_zero _)

theorem exists_create (h : pool.AllSound) (comparator : Comparator) (place : Place n)
    (keySize valueSize : Nat) (capacity : Option Nat) :
    ∃ result after k, pool.create comparator place keySize valueSize capacity =
      .ok (result, after) ∧ Settles pool k after := by
  cases capacity with
  | none =>
    rw [Pool.create]
    cases hmade : Tree.create keySize valueSize comparator with
    | error cause => exact ⟨_, pool, 0, rfl, .refl h⟩
    | ok tree =>
      have hexchange :
          Exchange pool.memory pool.held 0 pool.memory (tree.holdings ++ pool.held) := by
        rw [holdings_of_create hmade]
        exact .refl pool.memory pool.held
      obtain ⟨after, heq, hsettles⟩ :=
        settles_put h place ⟨_, _, (Sound.ofCreate hmade).1⟩ hexchange
      exact ⟨.ok (), after, 0, by dsimp only; rw [heq]; rfl, hsettles⟩
  | some capacity =>
    rw [Pool.create]
    rcases exchange_of_withCapacity keySize valueSize capacity comparator pool.memory pool.held with
      ⟨cause, memory', k, heq, hexchange⟩ | ⟨tree, memory', k, heq, htree, hexchange⟩
    · rw [heq]
      exact ⟨_, { pool with memory := memory' }, k, rfl, h, hexchange⟩
    · rw [heq]
      obtain ⟨after, hput, hsettles⟩ := settles_put h place ⟨_, _, htree⟩ hexchange
      exact ⟨.ok (), after, k, by dsimp only; rw [hput]; rfl, hsettles⟩

end

/-! ### Commands to a pool -/

section

variable [Metered α] {pool : Pool α n}

/-- A command to a pool changes the limit of its memory, or is an exchange of what its maps hold. -/
theorem AllSound.perform_cases (h : pool.AllSound) (comparator : Comparator)
    (command : PoolCommand n) :
    (∃ change, pool.perform comparator command =
        .ok (⟨.done, []⟩, { pool with memory := Metered.setLimit pool.memory change })) ∨
      ∃ answer after k, pool.perform comparator command = .ok (answer, after) ∧
        Settles pool k after ∧ (command.Quiet → k = 0) := by
  cases command with
  | setLimit place change => exact Or.inl ⟨change, rfl⟩
  | create place keySize valueSize capacity =>
    obtain ⟨result, after, k, heq, hsettles⟩ :=
      exists_create h comparator place keySize valueSize capacity
    exact Or.inr ⟨_, after, k, by rw [perform, heq]; rfl, hsettles, fun hq => hq.elim⟩
  | drop place =>
    obtain ⟨after, heq, hafter, hexchange⟩ :=
      exists_put h place none (by rintro _ ⟨⟩)
    exact Or.inr ⟨_, after, 0, by rw [perform, heq]; rfl, ⟨hafter, hexchange⟩, fun _ => rfl⟩
  | clone source target =>
    refine Or.inr ?_
    rw [perform]
    cases hsource : pool.places[source] with
    | none => exact ⟨_, pool, 0, rfl, .refl h, fun _ => rfl⟩
    | some tree =>
      obtain ⟨s, vacant, htree⟩ := h tree (mem_maps hsource)
      dsimp only
      rcases htree.exists_clone pool.memory pool.held with
        ⟨cause, memory', calls, k, heq, hexchange⟩ |
          ⟨copy, memory', calls, t, rest, k, heq, hcopy, hexchange⟩
      · exact ⟨_, { pool with memory := memory' }, k, by rw [heq]; rfl, ⟨h, hexchange⟩,
          fun hq => hq.elim⟩
      · obtain ⟨after, hput, hsettles⟩ := settles_put h target ⟨t, rest, hcopy⟩ hexchange
        refine ⟨⟨.result (.ok ()), calls⟩, after, k, ?_, hsettles, fun hq => hq.elim⟩
        rw [heq, ok_bind]
        dsimp only
        rw [hput]
        rfl
  | compare first second =>
    refine Or.inr ?_
    rw [perform]
    cases hfirst : pool.places[first] with
    | none => exact ⟨_, pool, 0, rfl, .refl h, fun _ => rfl⟩
    | some tree =>
      cases hsecond : pool.places[second] with
      | none => exact ⟨_, pool, 0, rfl, .refl h, fun _ => rfl⟩
      | some other =>
        obtain ⟨s, vacant, htree⟩ := h tree (mem_maps hfirst)
        obtain ⟨t, rest, hother⟩ := h other (mem_maps hsecond)
        obtain ⟨b, heq⟩ := htree.exists_sameEntries hother
        exact ⟨_, pool, 0, by dsimp only; rw [heq]; rfl, .refl h, fun _ => rfl⟩
  | toMap place command =>
    refine Or.inr ?_
    rw [perform]
    cases hplace : pool.places[place] with
    | none => exact ⟨_, pool, 0, rfl, .refl h, fun _ => rfl⟩
    | some tree =>
      obtain ⟨s, vacant, htree⟩ := h tree (mem_maps hplace)
      obtain ⟨answer, after, memory', calls, t, rest, k, heq, hafter, hexchange, hquiet⟩ :=
        command.exists_exchange htree pool.memory
      exact ⟨_, ⟨memory', pool.places.set place (some after)⟩, k, by dsimp only; rw [heq]; rfl,
        settles_set h hplace ⟨t, rest, hafter⟩ hexchange, hquiet⟩

/-- A command to a pool of sound maps ends and leaves sound maps. -/
theorem AllSound.exists_perform (h : pool.AllSound) (comparator : Comparator)
    (command : PoolCommand n) :
    ∃ answer after, pool.perform comparator command = .ok (answer, after) ∧ after.AllSound := by
  rcases h.perform_cases comparator command with
    ⟨change, heq⟩ | ⟨answer, after, k, heq, hsettles, -⟩
  · exact ⟨_, _, heq, h⟩
  · exact ⟨answer, after, heq, hsettles.allSound⟩

/-- What a command leaves can be looked at, if all maps in it are sound. -/
theorem AllSound.exists_report {after : Pool α n} (h : after.AllSound) {comparator : Comparator}
    {command : PoolCommand n} {answer : Traced PoolAnswer}
    (heq : pool.perform comparator command = .ok (answer, after)) :
    ∃ extent, pool.step comparator command =
      .ok (⟨answer.value, extent, Metered.usage? after.memory, answer.calls⟩, after) := by
  obtain ⟨extent, hextent⟩ :
      ∃ extent, after.places[command.place].mapM Tree.extent = .ok extent := by
    cases hplace : after.places[command.place] with
    | none => exact ⟨none, rfl⟩
    | some tree =>
      obtain ⟨s, vacant, htree⟩ := h tree (mem_maps hplace)
      exact ⟨some ⟨tree.size, s.height, tree.capacity⟩, by
        simp [Tree.extent, htree.hasShape.height]⟩
  refine ⟨extent, ?_⟩
  rw [step, heq, ok_bind]
  simp only [hextent, ok_bind, pure_eq_ok]

end

/-! ### Dropping everything -/

/-- Maps that are dropped one after the other give back everything that they hold. -/
theorem exists_disposeAll [Allocator α] {places : List (Option Tree)}
    (h : ∀ tree ∈ places.filterMap id, ∃ s vacant, tree.Sound s vacant) (memory : α) :
    ∃ memory', places.foldlM (fun memory place =>
        match place with
        | none => return memory
        | some tree => tree.dispose memory) memory = (.ok memory' : Except Fault α) ∧
      Exchange memory ((places.filterMap id).flatMap Tree.holdings) 0 memory' [] := by
  induction places generalizing memory with
  | nil => exact ⟨memory, rfl, .refl memory []⟩
  | cons place places ih =>
    cases place with
    | none => exact ih h memory
    | some tree =>
      obtain ⟨s, vacant, htree⟩ := h tree List.mem_cons_self
      obtain ⟨middle, hdispose, hfirst⟩ :=
        htree.exists_dispose memory ((places.filterMap id).flatMap Tree.holdings)
      obtain ⟨memory', hrest, hlast⟩ :=
        ih (fun tree' htree' => h tree' (List.mem_cons_of_mem tree htree')) middle
      refine ⟨memory', ?_, hfirst.trans hlast⟩
      rw [List.foldlM_cons]
      dsimp only
      rw [hdispose]
      exact hrest

/-! ### Balanced pools -/

/-- The maps of a pool under a budget are sound, and the counters of the budget are right about what
they hold. -/
structure Balanced (pool : Pool (Budget α) n) : Prop where
  allSound : pool.AllSound
  holds : pool.memory.Holds pool.held

theorem balanced_vacant (inner : α) (limit : UInt64) :
    (vacant (Budget.ofInner inner limit) : Pool (Budget α) n).Balanced := by
  refine ⟨?_, ?_⟩
  · rintro tree htree
    rw [maps_vacant] at htree
    cases htree
  · rw [held, maps_vacant]
    exact .ofInner inner limit

/-- The counters do not depend on the limit. -/
theorem Balanced.setLimit {pool : Pool (Budget α) n} (h : pool.Balanced) (change : LimitChange) :
    Balanced { pool with memory := pool.memory.setLimit change } := by
  cases change <;> exact ⟨h.allSound, ⟨h.holds.inUse, h.holds.live, h.holds.pos⟩⟩

namespace Balanced

variable {pool : Pool (Budget α) n}

/-- The bytes in use are those that the maps hold. -/
theorem toNat_inUse (h : pool.Balanced) :
    pool.memory.inUse.toNat = (pool.maps.map Tree.share).sum := by
  rw [h.holds.inUse, held, List.map_flatMap, List.flatMap_def, List.sum_flatten, List.map_map]
  exact congrArg List.sum (List.map_congr_left fun tree _ => tree.sum_holdings)

/-- The blocks in use are those that the maps hold. -/
theorem toNat_live (h : pool.Balanced) :
    pool.memory.live.toNat = (pool.maps.map Tree.blockCount).sum := by
  rw [h.holds.live, held, List.length_flatMap]
  simp only [length_holdings]

variable [Allocator α]

/-- A command leaves a pool balanced, and if it asks for no memory nothing is counted as
requested. -/
theorem exists_perform (h : pool.Balanced) (comparator : Comparator) (command : PoolCommand n) :
    ∃ answer after, pool.perform comparator command = .ok (answer, after) ∧ after.Balanced ∧
      (command.Quiet → after.memory.total = pool.memory.total) := by
  rcases h.allSound.perform_cases comparator command with
    ⟨change, heq⟩ | ⟨answer, after, k, heq, hsettles, hquiet⟩
  · refine ⟨_, _, heq, h.setLimit change, fun _ => ?_⟩
    cases change <;> rfl
  · refine ⟨answer, after, heq, ⟨hsettles.allSound, h.holds.exchange hsettles.exchange⟩,
      fun hq => ?_⟩
    rw [Budget.total_of_exchange hsettles.exchange, hquiet hq]
    exact UInt64.add_zero _

/-- A step carries a command out and looks at the pool. -/
theorem exists_step (h : pool.Balanced) (comparator : Comparator) (command : PoolCommand n) :
    ∃ report after, pool.step comparator command = .ok (report, after) ∧ after.Balanced ∧
      (command.Quiet → after.memory.total = pool.memory.total) := by
  obtain ⟨answer, after, heq, hafter, hquiet⟩ := h.exists_perform comparator command
  obtain ⟨extent, hstep⟩ := hafter.allSound.exists_report heq
  exact ⟨_, after, hstep, hafter, hquiet⟩

/-- Dropping all maps leaves nothing in use. -/
theorem exists_dropAll (h : pool.Balanced) :
    ∃ memory, pool.dropAll = .ok memory ∧ memory.usage = ⟨0, 0, pool.memory.total⟩ := by
  obtain ⟨memory, heq, hexchange⟩ := exists_disposeAll h.allSound pool.memory
  have hholds := h.holds.exchange hexchange
  have hinUse : memory.inUse = 0 := UInt64.toNat_inj.mp hholds.inUse
  have hlive : memory.live = 0 := UInt64.toNat_inj.mp hholds.live
  have htotal : memory.total = pool.memory.total :=
    (Budget.total_of_exchange hexchange).trans (UInt64.add_zero _)
  exact ⟨memory, heq, by rw [Budget.usage, hinUse, hlive, htotal]⟩

end Balanced

/-- Whatever is done with the maps of a pool, at any time the budget has in use, to the byte and to
the block, what the maps that are alive hold; commands that are none to make, clone or insert count
nothing as requested; without maps nothing is in use; and what a map says it takes up, if that is a
64-bit word, differs from what it holds by its own size and the slots without an entry. -/
theorem accounting [Allocator α] (inner : α) (limit : UInt64)
    (commands : List (Comparator × PoolCommand n)) :
    ∃ reports pool,
      (Transcript.run (fun command => step command.1 command.2) commands
        (vacant (Budget.ofInner inner limit))).finished = .ok (reports, pool) ∧
      pool.memory.inUse.toNat = (pool.maps.map Tree.share).sum ∧
      pool.memory.live.toNat = (pool.maps.map Tree.blockCount).sum ∧
      (∀ comparator command, command.Quiet →
        ∃ report after, pool.step comparator command = .ok (report, after) ∧
          after.memory.total = pool.memory.total) ∧
      (∃ memory, pool.dropAll = .ok memory ∧ memory.usage = ⟨0, 0, pool.memory.total⟩) ∧
      ∀ tree ∈ pool.maps, tree.structSize (Budget α) + tree.size * tree.entryFootprint < 2 ^ 64 →
        (tree.memoryUsage (Budget α) : Int) - tree.structSize (Budget α) =
          tree.share - 48 * (tree.capacity - tree.size) := by
  have hkeeps : ∀ (command : Comparator × PoolCommand n) (pool : Pool (Budget α) n), pool.Balanced →
      ∃ report after, pool.step command.1 command.2 = .ok (report, after) ∧ after.Balanced := by
    intro command pool h
    obtain ⟨report, after, heq, hafter, -⟩ := h.exists_step command.1 command.2
    exact ⟨report, after, heq, hafter⟩
  obtain ⟨reports, pool, heq, hpool⟩ :=
    Transcript.finished_of_preserves hkeeps commands (balanced_vacant inner limit)
  refine ⟨reports, pool, heq, hpool.toNat_inUse, hpool.toNat_live, fun comparator command hq => ?_,
    hpool.exists_dropAll, fun tree _ => tree.memoryUsage_sub⟩
  obtain ⟨report, after, hstep, -, hquiet⟩ := hpool.exists_step comparator command
  exact ⟨report, after, hstep, hquiet hq⟩

/-- The first of two places. -/
def front : Place 2 := 0

/-- The second of two places. -/
def back : Place 2 := 1

/-- An entry comes and goes in one map, and between the two the map is cloned. -/
def sampleSession : List (Comparator × PoolCommand 2) :=
  [(.lexicographic, .create 0 2 3 none), (.lexicographic, .toMap 0 (.insert [1, 2] [3, 4, 5])),
    (.lexicographic, .clone 0 1), (.lexicographic, .toMap 0 (.remove [1, 2]))]

/-- After it the map keeps a table of four slots, and its clone holds one slot and one entry. -/
theorem accounting_sample :
    ∃ reports pool memory,
      (Transcript.run (fun command => step command.1 command.2) sampleSession
        (vacant (Budget.ofInner (Heap.mk none) 1000))).finished = .ok (reports, pool) ∧
      pool.maps.map Tree.share = [192, 53] ∧ pool.maps.map Tree.blockCount = [1, 3] ∧
      pool.memory.inUse.toNat = 245 ∧ pool.memory.live.toNat = 4 ∧
      (∃ report after, pool.step .lexicographic (.drop 1) = .ok (report, after) ∧
        after.memory.total = 6) ∧
      (pool.dropAll = .ok memory ∧ memory.usage = ⟨0, 0, 6⟩) ∧
      ∀ tree ∈ pool.maps, (tree.memoryUsage (Budget Heap) : Int) - tree.structSize (Budget Heap) =
        tree.share - 48 * (tree.capacity - tree.size) := by
  obtain ⟨reports, pool, hrun, hinUse, hlive, hquiet, ⟨memory, hdrop, husage⟩, hfigures⟩ :=
    accounting (Heap.mk none) 1000 sampleSession
  have hfacts : (Transcript.run (fun command => step command.1 command.2) sampleSession
      (vacant (Budget.ofInner (Heap.mk none) 1000))).finished.map
        (fun p => (p.2.maps.map Tree.share, p.2.maps.map Tree.blockCount, p.2.memory.total,
          p.2.maps.all fun tree =>
            tree.structSize (Budget Heap) + tree.size * tree.entryFootprint < 2 ^ 64)) =
          .ok ([192, 53], [1, 3], 6, true) := rfl
  rw [hrun] at hfacts
  simp only [Except.map, Except.ok.injEq, Prod.mk.injEq, List.all_eq_true, decide_eq_true_eq]
    at hfacts
  obtain ⟨hshares, hblocks, htotal, hfits⟩ := hfacts
  rw [hshares] at hinUse
  rw [hblocks] at hlive
  rw [htotal] at husage
  obtain ⟨report, after, hstep, hafter⟩ := hquiet .lexicographic (.drop 1) trivial
  exact ⟨reports, pool, memory, hrun, hshares, hblocks, hinUse, hlive,
    ⟨report, after, hstep, hafter.trans htotal⟩, ⟨hdrop, husage⟩,
    fun tree htree => hfigures tree htree (hfits tree htree)⟩

end Pool

end MeteredMap
