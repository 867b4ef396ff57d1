import MeteredMap.Proofs.Accounting
import MeteredMap.Proofs.Translation
import MeteredMap.Proofs.Tree.Cloning

/-!
# A map and its clone in one pool

A clone shares its memory with the original and nothing else. In a pool both have places of their
own, and a command changes no map but those in the places that it is about: whatever is done to one
of the two later on, the other one stays as it is.

## Main definitions

* `MeteredMap.PoolCommand.Spares` : the commands that leave a place alone.

## Main results

* `MeteredMap.Pool.places_of_perform` : one command.
* `MeteredMap.Pool.AllSound.exists_finished_sparing` : a whole session.
* `MeteredMap.Pool.clone_exact` : a clone in a pool whose memory has a budget.
-/

namespace MeteredMap

variable {α : Type} {n : Nat}

/-- The command leaves the map in a place alone. -/
def PoolCommand.Spares (place : Place n) : PoolCommand n → Prop
  | .create other .. => other ≠ place
  | .drop other => other ≠ place
  | .setLimit .. => True
  | .clone _ other => other ≠ place
  | .compare .. => True
  | .toMap other _ => other ≠ place

namespace Pool

open MeteredMap.Tree

/-! ### Places that are left alone -/

theorem places_of_put [Allocator α] {pool after : Pool α n} {place : Place n} {new : Option Tree}
    (h : pool.put place new = .ok after) :
    after.places = pool.places.set place new place.isLt := by
  rw [put] at h
  split at h
  · cases h
    rfl
  · obtain ⟨_, -, hend⟩ := bind_eq_ok_iff.mp h
    cases hend
    rfl

theorem put_of_vacant [Allocator α] {places : Vector (Option Tree) n} {place : Place n}
    (h : places.get place = none) (memory : α) (new : Option Tree) :
    (Pool.mk memory places).put place new = .ok ⟨memory, places.set place new place.isLt⟩ := by
  rw [put, getElem_places, h]
  rfl

private theorem get_set_ne {places : Vector (Option Tree) n} {place other : Place n}
    (hne : other ≠ place) (new : Option Tree) :
    (places.set other new other.isLt).get place = places.get place :=
  Vector.getElem_set_ne _ _ fun heq => hne (Fin.ext heq)

theorem places_of_create [Allocator α] {pool after : Pool α n} {place : Place n}
    {comparator : Comparator} {keySize valueSize : Nat} {capacity : Option Nat}
    {result : Except MapError Unit}
    (h : pool.create comparator place keySize valueSize capacity = .ok (result, after)) :
    after.places = pool.places ∨
      ∃ tree, after.places = pool.places.set place (some tree) place.isLt := by
  unfold Pool.create at h
  split at h
  split at h
  · cases h
    exact Or.inl rfl
  · obtain ⟨_, hput, hend⟩ := bind_eq_ok_iff.mp h
    cases hend
    have hplaces := places_of_put hput
    exact Or.inr ⟨_, hplaces⟩

section

variable [Metered α] {pool after : Pool α n} {place : Place n} {comparator : Comparator}
  {command : PoolCommand n} {answer : Traced PoolAnswer}

/-- A command changes no map but those in the places that it is about. -/
theorem places_of_perform (hspares : command.Spares place)
    (h : pool.perform comparator command = .ok (answer, after)) :
    after.places.get place = pool.places.get place := by
  cases command with
  | create other keySize valueSize capacity =>
    obtain ⟨⟨result, created⟩, hcreate, hend⟩ := bind_eq_ok_iff.mp h
    cases hend
    rcases places_of_create hcreate with hsame | ⟨tree, hset⟩
    · rw [hsame]
    · rw [hset, get_set_ne hspares]
  | drop other =>
    obtain ⟨dropped, hput, hend⟩ := bind_eq_ok_iff.mp h
    cases hend
    rw [places_of_put hput, get_set_ne hspares]
  | setLimit other change =>
    cases h
    rfl
  | clone source other =>
    rw [perform] at h
    split at h
    · cases h
      rfl
    · obtain ⟨⟨⟨copy, memory⟩, calls⟩, -, hend⟩ := bind_eq_ok_iff.mp h
      cases copy with
      | error e =>
        cases hend
        rfl
      | ok copy =>
        obtain ⟨_, hput, hend⟩ := bind_eq_ok_iff.mp hend
        cases hend
        rw [places_of_put hput, get_set_ne hspares]
  | compare first second =>
    rw [perform] at h
    split at h
    · obtain ⟨_, -, hend⟩ := bind_eq_ok_iff.mp h
      cases hend
      rfl
    · cases h
      rfl
  | toMap other command =>
    rw [perform] at h
    split at h
    · cases h
      rfl
    · obtain ⟨_, -, hend⟩ := bind_eq_ok_iff.mp h
      cases hend
      exact get_set_ne hspares _

/-- A session of commands that leave a place alone ends, and the map in that place is as it was. -/
theorem AllSound.exists_finished_sparing (h : pool.AllSound)
    {commands : List (Comparator × PoolCommand n)}
    (hspares : ∀ command ∈ commands, command.2.Spares place) :
    ∃ reports later,
      (Transcript.run (fun command => step command.1 command.2) commands pool).finished =
        .ok (reports, later) ∧ later.places.get place = pool.places.get place := by
  have hkeeps : ∀ command ∈ commands, ∀ middle : Pool α n,
      middle.AllSound ∧ middle.places.get place = pool.places.get place →
        ∃ report next, middle.step command.1 command.2 = .ok (report, next) ∧
          next.AllSound ∧ next.places.get place = pool.places.get place := by
    rintro command hmem middle ⟨hmiddle, hplace⟩
    obtain ⟨answer, next, hperform, hnext⟩ := hmiddle.exists_perform command.1 command.2
    obtain ⟨extent, hstep⟩ := hnext.exists_report hperform
    exact ⟨_, next, hstep, hnext,
      (places_of_perform (hspares command hmem) hperform).trans hplace⟩
  obtain ⟨reports, later, hfinished, -, hplace⟩ :=
    Transcript.finished_of_preserves_mem hkeeps ⟨h, rfl⟩
  exact ⟨reports, later, hfinished, hplace⟩

end

/-! ### Clones -/

/-- The map in one place is cloned into another, which is vacant. All maps of the pool are
reachable, the comparator of the one to be cloned orders its keys, and the memory is a budget over a
memory that grants every request. If a table of as many slots as there are entries, and two blocks
for each entry, fit into what is left, the clone is made, and these requests are made and granted.
Both maps are there then, and no command that leaves one of the two places alone changes the map in
it. Otherwise the clone fails for want of memory, with the maps as they were and with nothing more
or less in use. -/
theorem clone_exact [Allocator α] {pool : Pool (Budget α) n} {source target : Place n} {tree : Tree}
    (hmaps : ∀ map ∈ pool.maps, Tree.Reachable map) (hsource : pool.places.get source = some tree)
    (hvacant : pool.places.get target = none)
    (ho : OrdersKeys tree.comparator.compare tree.keySize)
    (hg : Allocator.Generous pool.memory.inner) (comparator : Comparator) :
    (tree.size * (48 + tree.keySize + tree.valueSize) ≤
        pool.memory.limit.toNat - pool.memory.inUse.toNat →
      ∃ copy calls, ∃ recorded : Recorded (Budget α), ∃ after : Pool (Budget α) n,
        pool.perform comparator (.clone source target) =
          .ok (⟨.result (.ok ()), calls⟩, after) ∧
        (Pool.mk (⟨pool.memory, []⟩ : Recorded (Budget α)) pool.places).perform comparator
            (.clone source target) =
          .ok (⟨.result (.ok ()), calls⟩, ⟨recorded, after.places⟩) ∧
        after.memory = recorded.memory ∧ recorded.requests = recorded.granted ∧
        recorded.granted.length = 2 * tree.size + (if tree.size = 0 then 0 else 1) ∧
        after.places.get source = some tree ∧ after.places.get target = some copy ∧
        tree.Clones copy ∧
        ∀ place, place = source ∨ place = target →
          ∀ commands : List (Comparator × PoolCommand n),
            (∀ command ∈ commands, command.2.Spares place) →
            ∃ reports later,
              (Transcript.run (fun command => step command.1 command.2) commands after).finished =
                .ok (reports, later) ∧ later.places.get place = after.places.get place) ∧
    (¬ tree.size * (48 + tree.keySize + tree.valueSize) ≤
        pool.memory.limit.toNat - pool.memory.inUse.toNat →
      ∃ calls memory,
        pool.perform comparator (.clone source target) =
          .ok (⟨.result (.error .noMemory), calls⟩, ⟨memory, pool.places⟩) ∧
        memory.inUse = pool.memory.inUse ∧ memory.live = pool.memory.live) := by
  let recordedPool : Pool (Recorded (Budget α)) n := ⟨⟨pool.memory, []⟩, pool.places⟩
  have hallSound : pool.AllSound := fun map hmap => (hmaps map hmap).sound
  have htranslate : pool.perform comparator (.clone source target) =
      Prod.map id (·.translate Recorded.memory) <$>
        recordedPool.perform comparator (.clone source target) :=
    perform_translate Recorded.translation comparator (.clone source target) recordedPool
  have hplace : recordedPool.places.get source = some tree := hsource
  rcases (hmaps tree (mem_maps hsource)).clone_outcome ho hg with
    ⟨hfits, copy, calls, recorded, hclone, hclones, hrequests, hlength⟩ |
      ⟨hfits, calls, recorded, hclone, hinUse, hlive⟩
  · refine ⟨fun _ => ?_, fun hno => absurd hfits hno⟩
    have hput := put_of_vacant hvacant recorded (some copy)
    have hperform : recordedPool.perform comparator (.clone source target) =
        .ok (⟨.result (.ok ()), calls⟩, ⟨recorded, pool.places.set target (some copy)⟩) := by
      rw [perform, getElem_places, hplace]
      dsimp only
      rw [hclone, ok_bind]
      dsimp only
      rw [hput]
      rfl
    rw [hperform] at htranslate
    have hother : target ≠ source := by
      rintro rfl
      rw [hvacant] at hsource
      cases hsource
    obtain ⟨answer, after, heq, hafter⟩ :=
      hallSound.exists_perform comparator (.clone source target)
    obtain rfl : ⟨recorded.memory, pool.places.set target (some copy)⟩ = after :=
      (Prod.mk.inj (Except.ok.inj (htranslate.symm.trans heq))).2
    refine ⟨copy, calls, recorded, _, htranslate, hperform, rfl, hrequests, hlength, ?_, ?_,
      hclones, fun place _ commands hspares => hafter.exists_finished_sparing hspares⟩
    · exact (get_set_ne hother _).trans hsource
    · exact Vector.getElem_set_self _
  · refine ⟨fun hyes => absurd hyes hfits, fun _ => ⟨calls, recorded.memory, ?_, hinUse, hlive⟩⟩
    have hperform : recordedPool.perform comparator (.clone source target) =
        .ok (⟨.result (.error .noMemory), calls⟩, ⟨recorded, pool.places⟩) := by
      rw [perform, getElem_places, hplace]
      dsimp only
      rw [hclone]
      rfl
    rw [htranslate, hperform]
    rfl

/-- A map alone in a pool of two places. -/
def sampleOne (memory : Budget Heap) (tree : Tree) : Pool (Budget Heap) 2 :=
  ⟨memory, (Vector.replicate 2 none).set 0 (some tree)⟩

/-- Four entries of one-byte keys and values are cloned for 200 bytes. With so many bytes left a
clone is made, and a removal from it does not show in the original; with one byte less it fails. -/
theorem clone_exact_sample :
    ∃ full, Operation.runAll (sampleRun.take 4) sampleTree sampleMemory =
        .ok (full, ⟨⟨none⟩, 400, 200, 9, 9⟩) ∧
      (∃ copy calls after reports later,
        (sampleOne ⟨⟨none⟩, 400, 200, 9, 9⟩ full).perform .lexicographic (.clone 0 1) =
          .ok (⟨.result (.ok ()), calls⟩, after) ∧
        after.places.get 1 = some copy ∧ full.Clones copy ∧
        (Transcript.run (fun command => step command.1 command.2)
          [(.lexicographic, .toMap 1 (.remove [2]))] after).finished = .ok (reports, later) ∧
        later.places.get 0 = some full) ∧
      ∃ calls memory,
        (sampleOne ⟨⟨none⟩, 399, 200, 9, 9⟩ full).perform .lexicographic (.clone 0 1) =
          .ok (⟨.result (.error .noMemory), calls⟩, ⟨memory, (sampleOne memory full).places⟩) := by
  obtain ⟨full, memory', hrun, hfull⟩ := exists_sampleRun_take 4
  have hfacts : (Operation.runAll (sampleRun.take 4) sampleTree sampleMemory).map
      (fun p => (p.1.size, p.1.keySize, p.1.valueSize, p.1.comparator, p.2)) =
        .ok (4, 1, 1, .lexicographic, ⟨⟨none⟩, 400, 200, 9, 9⟩) := rfl
  rw [hrun] at hfacts
  simp only [Except.map, Except.ok.injEq, Prod.mk.injEq] at hfacts
  obtain ⟨hsize, hkey, hvalue, hcomparator, rfl⟩ := hfacts
  have ho : OrdersKeys full.comparator.compare full.keySize := by
    rw [hcomparator]
    exact .ofTransCmp Blob.lexCompare full.keySize
  have hmaps : ∀ memory, ∀ map ∈ (sampleOne memory full).maps, Tree.Reachable map := by
    intro memory map hmap
    obtain rfl : map = full := List.mem_singleton.mp hmap
    exact hfull
  obtain ⟨hyes, -⟩ := clone_exact (hmaps ⟨⟨none⟩, 400, 200, 9, 9⟩)
    (show (sampleOne ⟨⟨none⟩, 400, 200, 9, 9⟩ full).places.get 0 = some full from rfl)
    (show (sampleOne ⟨⟨none⟩, 400, 200, 9, 9⟩ full).places.get 1 = none from rfl)
    ho Heap.generous .lexicographic
  obtain ⟨-, hno⟩ := clone_exact (hmaps ⟨⟨none⟩, 399, 200, 9, 9⟩)
    (show (sampleOne ⟨⟨none⟩, 399, 200, 9, 9⟩ full).places.get 0 = some full from rfl)
    (show (sampleOne ⟨⟨none⟩, 399, 200, 9, 9⟩ full).places.get 1 = none from rfl)
    ho Heap.generous .lexicographic
  rw [hsize, hkey, hvalue] at hyes hno
  dsimp only [sampleOne] at hyes hno
  obtain ⟨copy, calls, recorded, after, hperform, -, -, -, -, hsource, htarget, hclones, hframe⟩ :=
    hyes (by decide)
  obtain ⟨calls', memory, hfails, -, -⟩ := hno (by decide)
  obtain ⟨reports, later, hfinished, hplace⟩ :=
    hframe 0 (Or.inl rfl) [(.lexicographic, .toMap 1 (.remove [2]))] (by
      rintro command hmem
      rw [List.mem_singleton.mp hmem]
      exact Fin.zero_ne_one.symm)
  exact ⟨full, hrun, ⟨copy, calls, after, reports, later, hperform, htarget, hclones, hfinished,
    hplace.trans hsource⟩, calls', memory, hfails⟩

end Pool

end MeteredMap
