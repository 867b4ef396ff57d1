import MeteredMap.Proofs.Commands
import MeteredMap.Proofs.Verdict

/-!
# Capacity

The slot table of a map grows where an insertion finds all of its slots taken, and nowhere else: the
slot of an entry that is gone is there for the next one. A map that was made with memory for `n`
entries therefore needs no other table while it has no more than `n`, whatever was inserted and
removed meanwhile. An entry beyond the `n` asks for a larger table and may be refused it; the map
then still has `n` entries, and that request is the only one that is not for a block.

## Main definitions

* `MeteredMap.Tree.GrowsIfFull`, `MeteredMap.Tree.CapacityLaw` : which operations change the
  capacity of a map, and how.
* `MeteredMap.Tree.AddsBlocks` : the requests of insertions that ask for no table.
* `MeteredMap.Tree.KeepsTable` : what was asked for while the entries fitted the table.
* `MeteredMap.MapCommand.runAll`, `MeteredMap.MapCommand.AllAlong` : runs of commands, and what
  holds of each command of a run.

## Main results

* `MeteredMap.Tree.Sound.capacityLaw` : the law for sound maps.
* `MeteredMap.MapCommand.exists_keepsTable`, `MeteredMap.MapCommand.exists_runAll_within` : one
  command and a whole run in which the entries fit the table.
* `MeteredMap.Tree.Reachable.capacity_law` : the law for the maps that a run leaves.
-/

namespace MeteredMap

/-! ### Reservations -/

namespace Arena

variable {ε α : Type} [Allocator α] {arena nodes : Arena ε} {memory memory' : α}
  {vacant : List Handle}

/-- A reservation that succeeds leaves the table as it is while a slot is free, and grows it
otherwise. -/
theorem WellFormed.capacity_of_reserve (h : arena.WellFormed vacant)
    (hreserve : arena.reserve memory = ⟨.ok (), nodes, memory'⟩) :
    nodes.capacity =
      if arena.live < arena.capacity then arena.capacity
      else grownCapacity arena.slotSize arena.capacity := by
  rcases reserve_cases arena memory with ⟨hroom, heq⟩ | ⟨-, heq⟩ | ⟨⟨hfree, -, hcap⟩, heq⟩
  · rw [heq] at hreserve
    cases hreserve
    exact (if_pos (h.live_lt_of_hasRoom hroom)).symm
  · rw [heq] at hreserve
    cases hreserve
  · have hfull : ¬ arena.live < arena.capacity :=
      h.live_eq_size hfree ▸ Nat.not_lt.mpr hcap
    rw [if_neg hfull]
    rw [heq] at hreserve
    rcases grow_cases arena memory with ⟨middle, hgrow⟩ | ⟨middle, hgrow⟩
    · rw [hgrow] at hreserve
      cases hreserve
    · rw [hgrow] at hreserve
      cases hreserve
      rfl

omit [Allocator α] in
/-- While a slot is free, a reservation asks for nothing. -/
theorem WellFormed.growthRequests_of_lt (h : arena.WellFormed vacant)
    (hlt : arena.live < arena.capacity) : arena.growthRequests = [] := by
  refine if_pos ?_
  cases hfree : arena.free with
  | some x => exact Or.inl rfl
  | none => exact Or.inr (Or.inr (h.live_eq_size hfree ▸ hlt))

/-- A reservation that fails was granted nothing, and asked for nothing if there was nothing to ask
for. -/
theorem lists_of_reserve_error {recorded recorded' : Recorded α} {cause : MapError}
    (h : arena.reserve recorded = ⟨.error cause, nodes, recorded'⟩) :
    recorded'.granted = recorded.granted ∧
      (arena.growthRequests = [] → recorded'.requests = recorded.requests) := by
  rcases reserve_cases arena recorded with
    ⟨-, heq⟩ | ⟨-, heq⟩ | ⟨⟨hfree, hmax, hcap⟩, heq⟩
  · rw [heq] at h
    cases h
  · rw [heq] at h
    cases h
    exact ⟨rfl, fun _ => rfl⟩
  · rw [growthRequests_of_full hfree hmax hcap]
    rw [heq, grow] at h
    split at h
    · cases h
      exact ⟨rfl, fun _ => rfl⟩
    · next layout htable =>
      split at h
      · next middle hreply =>
        cases h
        refine ⟨(Recorded.lists_of_refused hreply).2, fun hnone => ?_⟩
        rw [htable] at hnone
        cases hnone
      · cases h

end Arena

namespace Tree

open Shape

variable {α : Type} [Allocator α] {tree middle after : Tree} {s : Shape} {vacant : List Handle}
  {memory memory' : α} {recorded recorded₁ recorded' : Recorded α} {nodes : Arena Node}
  {key value : Blob} {cause : MapError}

/-! ### The capacity after an insertion -/

theorem Sound.size_le_capacity (h : tree.Sound s vacant) : tree.size ≤ tree.capacity :=
  Nat.le_trans h.wellFormed.live_le_size h.wellFormed.size_le_capacity

theorem Sound.capacity_of_provision (h : tree.Sound s vacant)
    (hprov : tree.provision memory = ⟨.ok (), nodes, memory'⟩) :
    nodes.capacity =
      if tree.size < tree.capacity then tree.capacity
      else max (max (2 * tree.capacity) (tree.capacity + 1)) 4 := by
  obtain ⟨middle, -, hreserve⟩ := grants_of_provision_eq_ok hprov
  have hcap := h.wellFormed.capacity_of_reserve hreserve
  rw [h.slotSize] at hcap
  exact hcap

/-- The capacity changed exactly if an insertion succeeded where there were as many entries as
slots, and then the table grew. -/
def GrowsIfFull (tree : Tree) (answer : Except MapError Handle) (after : Tree) : Prop :=
  (after.capacity ≠ tree.capacity ↔ (∃ x, answer = .ok x) ∧ tree.size = tree.capacity) ∧
    (after.capacity ≠ tree.capacity →
      after.capacity = max (max (2 * tree.capacity) (tree.capacity + 1)) 4)

theorem GrowsIfFull.ofError (tree : Tree) (e : MapError) : GrowsIfFull tree (.error e) tree := by
  refine ⟨⟨fun hne => absurd rfl hne, ?_⟩, fun hne => absurd rfl hne⟩
  rintro ⟨⟨x, ⟨⟩⟩, -⟩

/-- An insertion ends, and changes the capacity only where it has to. -/
theorem Sound.exists_growsIfFull (h : tree.Sound s vacant) (memory : α) (key value : Blob) :
    ∃ answer after memory' calls,
      tree.insert memory key value = .ok ⟨⟨answer, after, memory'⟩, calls⟩ ∧
      GrowsIfFull tree answer after := by
  rcases h.insert_cases memory key value with
    ⟨e, calls, heq, -⟩ | ⟨e, memory', calls, -, heq⟩ |
      ⟨path, x, capacity, memory', after, rest, calls, hprov, heq, -, hinserted⟩
  · exact ⟨_, tree, memory, calls, heq, .ofError tree e⟩
  · exact ⟨_, tree, memory', calls, heq, .ofError tree e⟩
  · have hgrown : after.capacity = if tree.size < tree.capacity then tree.capacity
        else max (max (2 * tree.capacity) (tree.capacity + 1)) 4 :=
      hinserted.capacity_eq.trans (h.capacity_of_provision hprov)
    have hle := h.size_le_capacity
    refine ⟨_, after, memory', calls, heq, ?_⟩
    rw [GrowsIfFull, hgrown]
    simp only [Except.ok.injEq, exists_eq', true_and]
    split_ifs <;> omega

/-- A map has no more entries than slots, and its capacity changes in an insertion at most, where
every slot is taken. -/
structure CapacityLaw (tree : Tree) : Prop where
  size_le_capacity : tree.size ≤ tree.capacity
  insert : ∀ {α : Type} [Allocator α] (memory : α) (key value : Blob),
    ∃ answer after memory' calls,
      tree.insert memory key value = .ok ⟨⟨answer, after, memory'⟩, calls⟩ ∧
      GrowsIfFull tree answer after
  quiet : ∀ {α : Type} [Metered α] (memory : α) (command : MapCommand), command.Quiet →
    ∃ answer after memory' calls,
      command.run tree memory = .ok ⟨⟨answer, after, memory'⟩, calls⟩ ∧
      after.capacity = tree.capacity

theorem Sound.capacityLaw (h : tree.Sound s vacant) : tree.CapacityLaw where
  size_le_capacity := h.size_le_capacity
  insert memory key value := h.exists_growsIfFull memory key value
  quiet memory command hq := by
    obtain ⟨answer, after, memory', calls, t, rest, heq, -, n, hsheds⟩ :=
      MapCommand.leads_of_quiet hq h memory
    exact ⟨answer, after, memory', calls, heq, hsheds.capacity⟩

/-! ### Requests while the entries fit -/

/-- What `n` insertions added to a list of requests: for each of them its key block and its value
block, or the key block alone, or nothing. A slot table is what an insertion asks for after its two
blocks, so that none of them asked for one. -/
def AddsBlocks (tree : Tree) (n : Nat) (earlier later : List Layout) : Prop :=
  ∃ parts : List (List Layout), parts.length = n ∧
    (∀ part ∈ parts, part <+: [tree.keyLayout, tree.valueLayout]) ∧ later = earlier ++ parts.flatten

namespace AddsBlocks

variable {first second third part : List Layout} {n m : Nat}

theorem ofEq (tree : Tree) (n : Nat) (h : second = first) : tree.AddsBlocks n first second := by
  refine ⟨List.replicate n [], List.length_replicate, fun part hp => ?_, ?_⟩
  · rw [List.eq_of_mem_replicate hp]
    exact List.nil_prefix
  · rw [List.flatten_replicate_nil, List.append_nil, h]

/-- One insertion. -/
theorem single (hpart : part <+: [tree.keyLayout, tree.valueLayout])
    (h : second = first ++ part) : tree.AddsBlocks 1 first second := by
  refine ⟨[part], rfl, fun part' hp => ?_, ?_⟩
  · rwa [List.mem_singleton.mp hp]
  · rw [List.flatten_singleton, h]

theorem trans (h : tree.AddsBlocks n first second) (h' : tree.AddsBlocks m second third) :
    tree.AddsBlocks (n + m) first third := by
  obtain ⟨parts, rfl, hparts, rfl⟩ := h
  obtain ⟨parts', rfl, hparts', rfl⟩ := h'
  refine ⟨parts ++ parts', List.length_append, fun part hp => ?_, ?_⟩
  · exact (List.mem_append.mp hp).elim (hparts part) (hparts' part)
  · rw [List.flatten_append, List.append_assoc]

/-- One insertion that asks for no table makes two requests at most. -/
theorem length_le (h : tree.AddsBlocks 1 first second) : second.length ≤ first.length + 2 := by
  obtain ⟨parts, hone, hparts, rfl⟩ := h
  obtain ⟨part, rfl⟩ := List.length_eq_one_iff.mp hone
  rw [List.flatten_singleton, List.length_append]
  exact Nat.add_le_add_left (hparts part List.mem_cons_self).length_le _

end AddsBlocks

/-- Trees of one kind ask for the same blocks. -/
theorem Akin.addsBlocks_eq (h : Akin tree after) : after.AddsBlocks = tree.AddsBlocks := by
  funext n earlier later
  rw [AddsBlocks, AddsBlocks, h.keyLayout, h.valueLayout]

/-- What an insertion was granted if it fails, and what it asked for if a slot was free, are
blocks for keys and values. -/
theorem addsBlocks_of_provision_error
    (h : tree.provision recorded = ⟨.error cause, nodes, recorded'⟩) :
    tree.AddsBlocks 1 recorded.granted recorded'.granted ∧
      (tree.nodes.growthRequests = [] →
        tree.AddsBlocks 1 recorded.requests recorded'.requests) := by
  have hone : [tree.keyLayout] <+: [tree.keyLayout, tree.valueLayout] := ⟨[tree.valueLayout], rfl⟩
  rcases cases_of_provision_eq_error h with
    ⟨-, hkey⟩ | ⟨m₁, m₂, -, hkey, hvalue, rfl⟩ | ⟨m₁, m₂, m₃, hkey, hvalue, hreserve, rfl⟩
  · obtain ⟨hrequests, hgranted⟩ := Recorded.lists_of_refused hkey
    exact ⟨.ofEq tree 1 hgranted, fun _ => .single hone hrequests⟩
  · obtain ⟨hrequests₁, hgranted₁⟩ := Recorded.lists_of_granted hkey
    obtain ⟨hrequests₂, hgranted₂⟩ := Recorded.lists_of_refused hvalue
    obtain ⟨hrequests₃, hgranted₃⟩ := Recorded.lists_of_releases m₂ [tree.keyLayout]
    refine ⟨.single hone ((hgranted₃.trans hgranted₂).trans hgranted₁),
      fun _ => .single (List.prefix_refl _) ?_⟩
    calc (Allocator.release m₂ tree.keyLayout).requests
      _ = m₁.requests ++ [tree.valueLayout] := hrequests₃.trans hrequests₂
      _ = recorded.requests ++ [tree.keyLayout, tree.valueLayout] := by
        rw [hrequests₁, List.append_assoc]
        rfl
  · have hgrants : Grants recorded [tree.keyLayout, tree.valueLayout] m₂ :=
      .cons hkey (.cons hvalue (.nil m₂))
    obtain ⟨hrequests, hgranted⟩ := hgrants.lists_eq
    obtain ⟨hgranted₃, hrequests₃⟩ := Arena.lists_of_reserve_error hreserve
    obtain ⟨hrequests₄, hgranted₄⟩ :=
      Recorded.lists_of_releases m₃ [tree.keyLayout, tree.valueLayout]
    exact ⟨.single (List.prefix_refl _) ((hgranted₄.trans hgranted₃).trans hgranted),
      fun hnone => .single (List.prefix_refl _)
        ((hrequests₄.trans (hrequests₃ hnone)).trans hrequests)⟩

/-- As long as the entries fit the slot table, the table stays, and nothing but blocks for keys and
values is granted to the `n` insertions. Unless one of them was refused while the table was full,
nothing else is even asked for. -/
structure KeepsTable (tree : Tree) (recorded : Recorded α) (n : Nat) (refused : Prop)
    (after : Tree) (recorded' : Recorded α) : Prop where
  akin : Akin tree after
  capacity : after.size ≤ tree.capacity → after.capacity = tree.capacity
  granted : after.size ≤ tree.capacity → tree.AddsBlocks n recorded.granted recorded'.granted
  requests : after.size ≤ tree.capacity → (refused → after.size < tree.capacity) →
    tree.AddsBlocks n recorded.requests recorded'.requests

namespace KeepsTable

variable {refused : Prop} {n m : Nat}

omit [Allocator α] in
theorem refl (tree : Tree) (recorded : Recorded α) (n : Nat) (refused : Prop) :
    KeepsTable tree recorded n refused tree recorded :=
  ⟨.refl tree, fun _ => rfl, fun _ => .ofEq tree n rfl, fun _ _ => .ofEq tree n rfl⟩

omit [Allocator α] in
/-- One change after the other, where the second one leaves no fewer entries. -/
theorem trans {refused₁ refused₂ : Prop}
    (h : KeepsTable tree recorded n refused₁ middle recorded₁)
    (h' : KeepsTable middle recorded₁ m refused₂ after recorded') (hsize : middle.size ≤ after.size)
    (hrefused : refused₁ ∨ refused₂ → refused) :
    KeepsTable tree recorded (n + m) refused after recorded' := by
  have hmid : after.size ≤ tree.capacity → middle.capacity = tree.capacity :=
    fun hle => h.capacity (Nat.le_trans hsize hle)
  have hblocks : middle.AddsBlocks = tree.AddsBlocks := h.akin.addsBlocks_eq
  refine ⟨h.akin.trans h'.akin, fun hle => ?_, fun hle => ?_, fun hle hlt => ?_⟩
  · exact (h'.capacity (hmid hle ▸ hle)).trans (hmid hle)
  · have hlast := h'.granted (hmid hle ▸ hle)
    rw [hblocks] at hlast
    exact (h.granted (Nat.le_trans hsize hle)).trans hlast
  · have hfirst := h.requests (Nat.le_trans hsize hle) fun hr =>
      Nat.lt_of_le_of_lt hsize (hlt (hrefused (Or.inl hr)))
    have hlast := h'.requests (hmid hle ▸ hle) fun hr => hmid hle ▸ hlt (hrefused (Or.inr hr))
    rw [hblocks] at hlast
    exact hfirst.trans hlast

end KeepsTable

/-- Entries that are gone cost no request. -/
theorem Sheds.keepsTable {n : Nat} (h : Sheds tree recorded n after recorded') (refused : Prop) :
    KeepsTable tree recorded 0 refused after recorded' := by
  have hlists := Recorded.lists_of_releases recorded (tree.copyRequests n)
  rw [← iterate_releaseBlocks, ← h.memory] at hlists
  exact ⟨h.akin, fun _ => h.capacity, fun _ => .ofEq tree 0 hlists.2,
    fun _ _ => .ofEq tree 0 hlists.1⟩

namespace Sound

theorem keepsTable_insertEntry (h : tree.Sound s vacant) (recorded : Recorded α)
    (key value : Blob) :
    ∃ result after recorded' calls t rest,
      tree.insertEntry recorded key value = .ok ⟨⟨result, after, recorded'⟩, calls⟩ ∧
      after.Sound t rest ∧ tree.size ≤ after.size ∧
      KeepsTable tree recorded 1 (result = .error .noMemory) after recorded' := by
  rcases h.insert_cases recorded key value with
    ⟨e, calls, heq, -⟩ | ⟨e, recorded', calls, hprov, heq⟩ |
      ⟨path, x, capacity, recorded', after, rest, calls, hprov, heq, rfl, hinserted⟩
  · exact ⟨.error e, tree, recorded, calls, s, vacant, by rw [insertEntry, heq]; rfl, h,
      Nat.le_refl _, .refl tree recorded 1 _⟩
  · -- Without a refusal it failed for want of a handle, and then no table is asked for either.
    obtain ⟨hgranted, hrequests⟩ := addsBlocks_of_provision_error hprov
    refine ⟨.error e, tree, recorded', calls, s, vacant, by rw [insertEntry, heq]; rfl, h,
      Nat.le_refl _, .refl tree, fun _ => rfl, fun _ => hgranted, fun _ hlt => hrequests ?_⟩
    obtain ⟨-, -, -, -, ⟨rfl, -⟩ | ⟨-, hmax, -⟩⟩ := traffic_of_provision_error hprov
    · exact h.wellFormed.growthRequests_of_lt (hlt rfl)
    · exact if_pos (Or.inr (Or.inl hmax))
  · have hsize : after.size = tree.size + 1 := by
      rw [hinserted.sound.size_eq, h.size_eq, size_withLeaf]
    have hcap : after.capacity = capacity := hinserted.capacity_eq
    -- A slot was free if the entries still fit, so that the table did not have to grow.
    have hblocks : after.size ≤ tree.capacity →
        tree.AddsBlocks 1 recorded.requests recorded'.requests ∧
          tree.AddsBlocks 1 recorded.granted recorded'.granted := by
      intro hle
      have hfree : tree.size < tree.capacity := by omega
      obtain ⟨middle, rs, hgrants, rfl⟩ := grants_of_provision_ok hprov
      rw [insertRequests, h.wellFormed.growthRequests_of_lt hfree] at hgrants
      obtain ⟨hrequests, hgranted⟩ := hgrants.lists_eq
      obtain ⟨hrequests', hgranted'⟩ := Recorded.lists_of_releases middle rs
      exact ⟨.single (List.prefix_refl _) (hrequests'.trans hrequests),
        .single (List.prefix_refl _) (hgranted'.trans hgranted)⟩
    refine ⟨.ok (), after, recorded', calls, _, rest, by rw [insertEntry, heq]; rfl,
      hinserted.sound, by omega, hinserted.akin, fun hle => ?_, fun hle => (hblocks hle).2,
      fun hle _ => (hblocks hle).1⟩
    have hfree : tree.size < tree.capacity := by omega
    exact hcap.trans ((h.capacity_of_provision hprov).trans (if_pos hfree))

theorem keepsTable_insertMany (h : tree.Sound s vacant) (recorded : Recorded α)
    (keys : List Blob) (value : Blob) :
    ∃ results after recorded' calls t rest,
      forEachKey (fun tree memory key => tree.insertEntry memory key value) keys tree recorded =
        .ok ⟨⟨results, after, recorded'⟩, calls⟩ ∧
      after.Sound t rest ∧ tree.size ≤ after.size ∧
      KeepsTable tree recorded keys.length (.error .noMemory ∈ results) after recorded' := by
  induction keys generalizing tree s vacant recorded with
  | nil =>
    exact ⟨[], tree, recorded, [], s, vacant, rfl, h, Nat.le_refl _, .refl tree recorded 0 _⟩
  | cons key keys ih =>
    obtain ⟨result, middle, recorded₁, calls, t, rest, heq, hmiddle, hsize, hfirst⟩ :=
      h.keepsTable_insertEntry recorded key value
    obtain ⟨results, after, recorded', moreCalls, t', rest', heq', hafter, hsize', hlast⟩ :=
      ih hmiddle recorded₁
    rw [List.length_cons, Nat.add_comm]
    refine ⟨result :: results, after, recorded', calls ++ moreCalls, t', rest', ?_, hafter,
      Nat.le_trans hsize hsize', hfirst.trans hlast hsize' ?_⟩
    · rw [forEachKey, heq, ok_bind]
      simp only [heq', ok_bind, pure_eq_ok]
    · rintro (rfl | hmem)
      · exact List.mem_cons_self
      · exact List.mem_cons_of_mem _ hmem

end Sound

end Tree

/-! ### Runs of commands -/

/-- The answer tells of a request that was refused. -/
def MapAnswer.WantsMemory : MapAnswer → Prop
  | .result outcome => outcome = .error .noMemory
  | .results outcomes => .error .noMemory ∈ outcomes
  | _ => False

namespace MapCommand

open MeteredMap.Tree Shape

/-- The number of insertions that a command tries: one for each key. -/
def insertions : MapCommand → Nat
  | .insert .. => 1
  | .insertMany keys _ => keys.length
  | _ => 0

/-- A command that was carried out: the memory before it, its answer, and the map and the memory
that it left. -/
structure Done (α : Type) where
  command : MapCommand
  earlier : α
  answer : MapAnswer
  tree : Tree
  later : α

variable {α : Type} [Metered α] {tree : Tree} {s : Shape} {vacant : List Handle} {n : Nat}

/-- Carries out commands one after the other. -/
def runAll : List MapCommand → Tree → α → Except Fault (Tree × α)
  | [], tree, memory => return (tree, memory)
  | command :: commands, tree, memory => do
    let ⟨⟨_, tree, memory⟩, _⟩ ← command.run tree memory
    runAll commands tree memory

/-- What holds of every command of a run when it was carried out. -/
def AllAlong (P : Done α → Prop) : List MapCommand → Tree → α → Prop
  | [], _, _ => True
  | command :: commands, tree, memory =>
    match command.run tree memory with
    | .ok ⟨⟨answer, after, memory'⟩, _⟩ =>
      P ⟨command, memory, answer, after, memory'⟩ ∧ AllAlong P commands after memory'
    | .error _ => True

/-- A run of commands to a sound map ends at one. -/
theorem exists_runAll (commands : List MapCommand) (h : tree.Sound s vacant) (memory : α) :
    ∃ after memory' t rest, runAll commands tree memory = .ok (after, memory') ∧
      after.Sound t rest := by
  induction commands generalizing tree s vacant memory with
  | nil => exact ⟨tree, memory, s, vacant, rfl, h⟩
  | cons command commands ih =>
    obtain ⟨answer, middle, m, calls, t, rest, -, heq, hmiddle, -⟩ :=
      command.exists_exchange h memory
    obtain ⟨after, memory', t', rest', hrun, hafter⟩ := ih hmiddle m
    refine ⟨after, memory', t', rest', ?_, hafter⟩
    rw [runAll, heq, ok_bind]
    exact hrun

/-- One command, as long as the entries fit the slot table. -/
theorem exists_keepsTable (command : MapCommand) (h : tree.Sound s vacant)
    (recorded : Recorded α) :
    ∃ answer after recorded' calls t rest,
      command.run tree recorded = .ok ⟨⟨answer, after, recorded'⟩, calls⟩ ∧ after.Sound t rest ∧
      KeepsTable tree recorded command.insertions answer.WantsMemory after recorded' := by
  by_cases hq : command.Quiet
  · obtain ⟨answer, after, recorded', calls, t, rest, heq, hafter, n, hsheds⟩ :=
      leads_of_quiet hq h recorded
    have hnone : command.insertions = 0 := by
      cases command with
      | insert key value => exact hq.elim
      | insertMany keys value => exact hq.elim
      | _ => rfl
    exact ⟨answer, after, recorded', calls, t, rest, heq, hafter, hnone ▸ hsheds.keepsTable _⟩
  · cases command with
    | insert key value =>
      obtain ⟨result, after, recorded', calls, t, rest, heq, hafter, -, hkeeps⟩ :=
        h.keepsTable_insertEntry recorded key value
      exact ⟨.result result, after, recorded', calls, t, rest, by rw [MapCommand.run, heq]; rfl,
        hafter, hkeeps⟩
    | insertMany keys value =>
      obtain ⟨results, after, recorded', calls, t, rest, heq, hafter, -, hkeeps⟩ :=
        h.keepsTable_insertMany recorded keys value
      exact ⟨.results results, after, recorded', calls, t, rest,
        by rw [MapCommand.run, heq]; rfl, hafter, hkeeps⟩
    | _ => exact absurd trivial hq

/-- A run in which the entries fit the slot table after every command. -/
theorem exists_runAll_within (commands : List MapCommand) (h : tree.Sound s vacant)
    (hn : tree.capacity = n) (recorded : Recorded α)
    (hwithin : AllAlong (fun done => done.tree.size ≤ n) commands tree recorded) :
    ∃ after recorded', runAll commands tree recorded = .ok (after, recorded') ∧
      after.capacity = n ∧
      AllAlong (fun done =>
        tree.AddsBlocks done.command.insertions done.earlier.granted done.later.granted ∧
        ((done.answer.WantsMemory → done.tree.size < n) →
          tree.AddsBlocks done.command.insertions done.earlier.requests done.later.requests))
        commands tree recorded := by
  induction commands generalizing tree s vacant recorded with
  | nil => exact ⟨tree, recorded, rfl, hn, trivial⟩
  | cons command commands ih =>
    obtain ⟨answer, middle, recorded₁, calls, t, rest, heq, hmiddle, hkeeps⟩ :=
      command.exists_keepsTable h recorded
    rw [AllAlong, heq] at hwithin
    obtain ⟨hsize, hrest⟩ := hwithin
    subst hn
    obtain ⟨after, recorded', hrun, hcap, hall⟩ :=
      ih hmiddle (hkeeps.capacity hsize) recorded₁ hrest
    rw [hkeeps.akin.addsBlocks_eq] at hall
    refine ⟨after, recorded', ?_, hcap, ?_⟩
    · rw [runAll, heq, ok_bind]
      exact hrun
    · rw [AllAlong, heq]
      exact ⟨⟨hkeeps.granted hsize, hkeeps.requests hsize⟩, hall⟩

end MapCommand

/-! ### The law -/

namespace Tree

open MapCommand

variable {α : Type} [Metered α] {tree : Tree} {memory memory' : α} {keySize valueSize n : Nat}
  {comparator : Comparator}

omit [Metered α] in
theorem capacity_of_withCapacity [Allocator α]
    (h : withCapacity keySize valueSize n comparator memory = (.ok tree, memory')) :
    tree.capacity = n := by
  obtain ⟨keyLayout, valueLayout, -, rfl⟩ := Sound.exists_of_withCapacity h
  rfl

/-- Whatever commands are carried out on a reachable map, in whatever memory and under whatever
comparator, the map that is left has no more entries than slots; an insertion into it changes the
capacity exactly if it succeeds where all slots are taken, and a command that inserts nothing never
does. Therefore a map that was made with memory for `n` entries keeps that capacity in every run in
which it has at most `n`, and its insertions are granted blocks for keys and values and no slot
table. They do not even ask for one, unless an entry beyond the first `n` is refused for want of
memory. -/
theorem Reachable.capacity_law (hr : Reachable tree) (commands : List MapCommand) :
    (∀ memory : α, ∃ after memory', runAll commands tree memory = .ok (after, memory') ∧
      after.CapacityLaw) ∧
    ∀ {keySize valueSize n : Nat} {comparator : Comparator} {memory memory' : α},
      Tree.withCapacity keySize valueSize n comparator memory = (.ok tree, memory') →
      AllAlong (fun done => done.tree.size ≤ n) commands tree (⟨memory', []⟩ : Recorded α) →
      ∃ after recorded,
        runAll commands tree (⟨memory', []⟩ : Recorded α) = .ok (after, recorded) ∧
        after.capacity = n ∧
        AllAlong (fun done =>
          tree.AddsBlocks done.command.insertions done.earlier.granted done.later.granted ∧
          ((done.answer.WantsMemory → done.tree.size < n) →
            tree.AddsBlocks done.command.insertions done.earlier.requests done.later.requests))
          commands tree (⟨memory', []⟩ : Recorded α) := by
  obtain ⟨s, vacant, h⟩ := hr.sound
  refine ⟨fun memory => ?_, fun hmade hwithin => ?_⟩
  · obtain ⟨after, memory', t, rest, hrun, hafter⟩ := exists_runAll commands h memory
    exact ⟨after, memory', hrun, hafter.capacityLaw⟩
  · exact exists_runAll_within commands h (capacity_of_withCapacity hmade) _ hwithin

/-- An empty map of one-byte keys and values with two slots. -/
def pairTree : Tree :=
  { sampleTree with nodes := { Arena.empty Node.footprint with capacity := 2 } }

/-- Rounds of insertions and removals in which never more than two entries are there. -/
def pairRounds : List MapCommand :=
  [.insert [1] [0], .insert [2] [0], .insert [1] [9], .edit .left [.remove], .insert [3] [0],
    .remove [2], .insert [4] [0], .clear, .insert [5] [0], .insert [6] [0]]

/-- Six entries go through two slots, with twelve requests, and none of them is for a table. -/
theorem Reachable.capacity_law_sample :
    Tree.withCapacity 1 1 2 .lexicographic (Heap.mk none) = (.ok pairTree, ⟨none⟩) ∧
      ∃ after recorded,
        runAll pairRounds pairTree (⟨⟨none⟩, []⟩ : Recorded Heap) = .ok (after, recorded) ∧
        after.capacity = 2 ∧ recorded.requests.length = 12 ∧
        AllAlong (fun done =>
          pairTree.AddsBlocks done.command.insertions done.earlier.granted done.later.granted ∧
          ((done.answer.WantsMemory → done.tree.size < 2) →
            pairTree.AddsBlocks done.command.insertions done.earlier.requests done.later.requests))
          pairRounds pairTree (⟨⟨none⟩, []⟩ : Recorded Heap) := by
  have hmade : Tree.withCapacity 1 1 2 .lexicographic (Heap.mk none) = (.ok pairTree, ⟨none⟩) := rfl
  have hwithin : AllAlong (fun done => done.tree.size ≤ 2) pairRounds pairTree
      (⟨⟨none⟩, []⟩ : Recorded Heap) := by
    refine ⟨?_, ?_, ?_, ?_, ?_, ?_, ?_, ?_, ?_, ?_, trivial⟩ <;> exact Nat.le_of_ble_eq_true rfl
  obtain ⟨after, recorded, hrun, hcap, hall⟩ :=
    (Reachable.capacity_law (.withCapacity hmade) pairRounds).2 hmade hwithin
  have hcount : (runAll pairRounds pairTree (⟨⟨none⟩, []⟩ : Recorded Heap)).map
      (fun p => p.2.requests.length) = .ok 12 := rfl
  rw [hrun] at hcount
  exact ⟨hmade, after, recorded, hrun, hcap, Except.ok.inj hcount, hall⟩

/-- A memory with a table of two slots for one-byte keys and values, and room for the blocks of
three entries and a few bytes more, but for no larger table. -/
def pairMemory : Budget Heap :=
  ⟨⟨none⟩, 104, 96, 1, 1⟩

/-- The third entry of a map that was made with memory for two is granted its blocks and asks for a
table of four slots. It is refused, and the map never had more than two entries. -/
theorem Reachable.capacity_law_refused :
    Tree.withCapacity 1 1 2 .lexicographic (Budget.ofInner (Heap.mk none) 104) =
        (.ok pairTree, pairMemory) ∧
      AllAlong (fun done => done.tree.size ≤ 2) [.insert [1] [0], .insert [2] [0], .insert [3] [0]]
        pairTree (⟨pairMemory, []⟩ : Recorded (Budget Heap)) ∧
      (runAll [.insert [1] [0], .insert [2] [0], .insert [3] [0]] pairTree
        (⟨pairMemory, []⟩ : Recorded (Budget Heap))).map (fun p => p.2.requests) =
          .ok (List.replicate 6 ⟨1, 8⟩ ++ [⟨192, 8⟩]) ∧
      Layout.table? (4 * Node.footprint) = some ⟨192, 8⟩ ∧
      ¬ AllAlong (fun done => pairTree.AddsBlocks done.command.insertions done.earlier.requests
          done.later.requests) [.insert [1] [0], .insert [2] [0], .insert [3] [0]]
        pairTree (⟨pairMemory, []⟩ : Recorded (Budget Heap)) := by
  refine ⟨rfl, ⟨?_, ?_, ?_, trivial⟩, rfl, by decide, fun hall => ?_⟩
  · exact Nat.le_of_ble_eq_true rfl
  · exact Nat.le_of_ble_eq_true rfl
  · exact Nat.le_of_ble_eq_true rfl
  · exact absurd hall.2.2.1.length_le (Nat.not_le.mpr (Nat.le_of_ble_eq_true rfl))

end Tree

end MeteredMap
