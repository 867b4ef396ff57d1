import MeteredMap.Proofs.Commands
import MeteredMap.Proofs.Memory.Alike
import MeteredMap.Proofs.Simulation
import MeteredMap.Proofs.Tree.Phases
import MeteredMap.Proofs.Tree.RedBlack
import MeteredMap.Session.OneTree

/-!
# Starting again

A cleared tree has given back the blocks of its entries and kept its slot table, and nothing in it
tells that it ever held anything: it is the tree that the constructor makes with room for as many
nodes. What comes after depends on the memory only through what is granted and what is refused, so
two runs on the same tree, in memories that are alike, give the same answers and leave the same tree
after every command.

## Main definitions

* `MeteredMap.TreeCommand.Plain` : commands that neither move a limit nor make a clone.
* `MeteredMap.Tree.Paired` : memories that are alike in all that a tree holds.

## Main results

* `MeteredMap.TreeSession.Twins.step` : one command, side by side.
* `MeteredMap.Tree.Reachable.clear_restarts` : clearing equals a fresh start.
-/

namespace MeteredMap

open Allocator

variable {α β : Type}

/-! ### Requests side by side -/

namespace Arena

variable [Allocator α] [Allocator β] {ε : Type} {arena : Arena ε} {a : α} {b : β}
  {held : List Layout}

/-- A reservation in memories that are alike, to both of which the table may go back. -/
theorem reserve_alike (hslot : 0 < arena.slotSize)
    (h : Alike true (tableBlocks arena.slotSize arena.capacity ++ held) a b) :
    ∃ answer after a' b', arena.reserve a = ⟨answer, after, a'⟩ ∧
      arena.reserve b = ⟨answer, after, b'⟩ ∧
      Alike true (tableBlocks arena.slotSize after.capacity ++ held) a' b' := by
  unfold reserve
  split_ifs
  · exact ⟨_, _, a, b, rfl, rfl, h⟩
  · exact ⟨_, _, a, b, rfl, rfl, h⟩
  · exact ⟨_, _, a, b, rfl, rfl, h⟩
  have hlarger : 0 < grownCapacity arena.slotSize arena.capacity :=
    Nat.zero_lt_of_lt (lt_grownCapacity arena.slotSize arena.capacity)
  cases htable : Layout.table? (grownCapacity arena.slotSize arena.capacity * arena.slotSize) with
  | none =>
    simp only [grow, htable]
    exact ⟨_, _, a, b, rfl, rfl, h⟩
  | some layout =>
    obtain ⟨-, rfl⟩ := Layout.table?_eq_some_iff.mp htable
    have hpos : 0 < (Layout.mk (grownCapacity arena.slotSize arena.capacity * arena.slotSize)
        8).size := Nat.mul_pos hlarger hslot
    rcases h.allocate hpos with ⟨a', b', ha, hb, hnext⟩ | ⟨a', b', ha, hb, hnext⟩
    · simp only [grow, htable, ha, hb]
      refine ⟨_, _, _, _, rfl, rfl, ?_⟩
      rw [releaseTable_eq, releaseTable_eq, tableBlocks_of_pos hslot hlarger]
      exact (hnext.perm List.perm_middle.symm).releases
    · simp only [grow, htable, ha, hb]
      exact ⟨_, _, a', b', rfl, rfl, hnext⟩

end Arena

namespace Tree

open Shape

variable [Allocator α] [Allocator β] {tree : Tree} {s : Shape} {vacant : List Handle} {a : α}
  {b : β} {touched : Bool} {x : Handle}

/-- Two memories that are alike in all that a tree holds. A tree with entries was granted some. -/
def Paired (tree : Tree) (a : α) (b : β) : Prop :=
  ∃ touched, Alike touched tree.holdings a b ∧ (touched = false → tree.size = 0)

/-- Provision in memories that are alike. -/
theorem Sound.provision_alike (h : tree.Sound s vacant) (hp : tree.Paired a b) :
    ∃ answer nodes a' b', tree.provision a = ⟨answer, nodes, a'⟩ ∧
      tree.provision b = ⟨answer, nodes, b'⟩ ∧
      match answer with
      | .error _ => tree.Paired a' b'
      | .ok () => Alike true (Arena.tableBlocks Node.footprint nodes.capacity ++
          tree.copyRequests 1 ++ tree.copyRequests tree.size) a' b' := by
  obtain ⟨touched, hab, htouched⟩ := hp
  obtain ⟨⟨hkey, hvalue⟩, -, -⟩ := Sound.layouts_of_eq h.layouts
  have hslot : 0 < tree.nodes.slotSize := by
    rw [h.slotSize]
    decide
  unfold Tree.provision
  rcases hab.allocate (show 0 < tree.keyLayout.size from hkey) with
    ⟨a₁, b₁, ha, hb, h₁⟩ | ⟨a₁, b₁, ha, hb, h₁⟩
  · simp only [ha, hb]
    rcases h₁.allocate (show 0 < tree.valueLayout.size from hvalue) with
      ⟨a₂, b₂, ha', hb', h₂⟩ | ⟨a₂, b₂, ha', hb', h₂⟩
    · simp only [ha', hb']
      have hheld : Alike true (Arena.tableBlocks tree.nodes.slotSize tree.nodes.capacity ++
          (tree.copyRequests 1 ++ tree.copyRequests tree.size)) a₂ b₂ := by
        rw [h.slotSize]
        refine h₂.perm ?_
        have hkeys : ([tree.valueLayout, tree.keyLayout] ++ tree.holdings).Perm
            (tree.copyRequests 1 ++ tree.holdings) := (List.Perm.swap _ _ _).append_right _
        exact hkeys.trans (List.perm_append_comm_assoc _ _ _)
      obtain ⟨answer, nodes, a', b', har, hbr, hnext⟩ := Arena.reserve_alike hslot hheld
      rw [h.slotSize, ← List.append_assoc] at hnext
      simp only [har, hbr]
      cases answer with
      | ok =>
        exact ⟨_, nodes, a', b', rfl, rfl, hnext⟩
      | error e =>
        -- The table is as it was, and the two blocks go back.
        have hnodes : nodes = tree.nodes := by
          rcases h.wellFormed.reserve a₂ with ⟨e', m, heq⟩ | ⟨capacity, m, heq, -⟩
          · rw [har] at heq
            cases heq
            rfl
          · rw [har] at heq
            cases heq
        subst hnodes
        have hback : Alike true (tree.copyRequests 1 ++ tree.holdings) a' b' := by
          rw [List.append_assoc] at hnext
          exact hnext.perm (List.perm_append_comm_assoc _ _ _)
        exact ⟨_, _, _, _, rfl, rfl, true, hback.releases, fun h => by cases h⟩
    · simp only [ha', hb']
      exact ⟨_, _, _, _, rfl, rfl, true, h₂.release, fun h => by cases h⟩
  · simp only [ha, hb]
    exact ⟨_, _, _, _, rfl, rfl, touched, h₁, htouched⟩

/-! ### Operations side by side -/

/-- An insertion in memories that are alike. -/
theorem Sound.insert_alike (h : tree.Sound s vacant) (hp : tree.Paired a b) (key value : Blob) :
    ∃ answer after a' b' calls t rest,
      tree.insert a key value = .ok ⟨⟨answer, after, a'⟩, calls⟩ ∧
      tree.insert b key value = .ok ⟨⟨answer, after, b'⟩, calls⟩ ∧
      after.Sound t rest ∧ after.Paired a' b' := by
  rcases insert_phases h.wellFormed key value with
    ⟨fault, heq⟩ | ⟨e, calls, heq⟩ | ⟨arrival, calls, heq⟩
  · obtain ⟨_, _, _, _, _, _, _, hok, -⟩ := h.exchange_of_insert a key value
    rw [heq] at hok
    cases hok
  · exact ⟨_, tree, a, b, calls, s, vacant, heq a, heq b, h, hp⟩
  obtain ⟨answer, nodes, a', b', ha, hb, hnext⟩ := h.provision_alike hp
  cases answer with
  | error e =>
    obtain ⟨_, _, hprov⟩ | ⟨_, _, hprov, -⟩ := h.provision a
    · rw [ha] at hprov
      cases hprov
      refine ⟨.error e, tree, a', b', calls, s, vacant, ?_, ?_, h, hnext⟩
      · rw [heq, plant_of_error ha]
        rfl
      · rw [heq, plant_of_error hb]
        rfl
    · rw [ha] at hprov
      cases hprov
  | ok =>
    have hplanted := heq a
    have hplanted' := heq b
    rw [plant_of_ok ha] at hplanted
    rw [plant_of_ok hb] at hplanted'
    cases hsettle : tree.settle nodes ⟨key, value⟩ arrival with
    | error fault =>
      obtain ⟨_, _, _, _, _, _, _, hok, -⟩ := h.exchange_of_insert a key value
      rw [hplanted, hsettle] at hok
      cases hok
    | ok settled =>
      rw [hsettle] at hplanted hplanted'
      rcases h.insert_cases a key value with ⟨_, _, hfail, -⟩ | ⟨_, _, _, -, hfail⟩ |
        ⟨path, _, capacity, _, _, rest, _, hprov, hok, rfl, hinserted⟩
      · rw [hplanted] at hfail
        cases hfail
      · rw [hplanted] at hfail
        cases hfail
      · rw [hplanted] at hok
        cases hok
        rw [ha] at hprov
        cases hprov
        refine ⟨.ok settled.1, settled.2, a', b', calls, _, rest, hplanted, hplanted',
          hinserted.sound, true, ?_, fun h => by cases h⟩
        rw [hinserted.holdings_eq h]
        exact hnext

/-- Entries that are gone have given their blocks back to both memories. -/
theorem Paired.sheds {after : Tree} {a' : α} {b' : β} {n : Nat} (hp : tree.Paired a b)
    (ha : Sheds tree a n after a') (hb : Sheds tree b n after b') : after.Paired a' b' := by
  obtain ⟨touched, hab, htouched⟩ := hp
  have hsize := ha.size
  have hheld := hab.perm ha.holdings_perm
  rw [Paired, ha.memory, hb.memory, iterate_releaseBlocks, iterate_releaseBlocks]
  cases touched with
  | true => exact ⟨true, hheld.releases, fun h => by cases h⟩
  | false =>
    -- Nothing was granted yet, so there are no entries.
    have hempty := htouched rfl
    obtain rfl : n = 0 := by omega
    exact ⟨false, hheld, fun _ => by omega⟩

/-- A removal in memories that are alike: it ends in the same fault, or it takes the same entry out
of both. -/
theorem Sound.removeAt_alike (h : tree.Sound s vacant) (hp : tree.Paired a b) (x : Handle) :
    (∃ fault, tree.removeAt a x = .error fault ∧ tree.removeAt b x = .error fault) ∨
      ∃ removal after a' b' t rest, tree.removeAt a x = .ok (removal, after, a') ∧
        tree.removeAt b x = .ok (removal, after, b') ∧ after.Sound t rest ∧ after.Paired a' b' := by
  have ha := tree.removeAt_eq_detach a x
  have hb := tree.removeAt_eq_detach b x
  cases hdetach : tree.detach x with
  | error fault => exact Or.inl ⟨fault, by rw [ha, hdetach]; rfl, by rw [hb, hdetach]; rfl⟩
  | ok detached =>
    obtain ⟨removal, after⟩ := detached
    have hx : x ∈ s.handles := h.hasShape.mem_handles_iff.mpr (isSome_get?_of_detach hdetach)
    rw [hdetach, map_ok] at ha hb
    obtain ⟨_, _, _, _, t, _, hremoved, hafter, -, hsheds⟩ := h.exists_removeAt hx a
    obtain ⟨_, _, _, _, _, _, hremoved', -, -, hsheds'⟩ := h.exists_removeAt hx b
    rw [ha] at hremoved
    cases hremoved
    rw [hb] at hremoved'
    cases hremoved'
    exact Or.inr ⟨_, _, _, _, t, _, ha, hb, hafter, hp.sheds hsheds hsheds'⟩

end Tree

/-! ### Commands side by side -/

/-- Commands that neither move a limit nor make a clone. -/
def TreeCommand.Plain : TreeCommand → Prop
  | .setLimit _ => False
  | .clone => False
  | .becomeClone => False
  | _ => True

/-- A report without the counters of the memory. -/
def TreeReport.withoutUsage (report : TreeReport) : TreeReport :=
  { report with usage := none }

namespace TreeSession

open MeteredMap.Tree Transcript

variable {command : TreeCommand}

/-- Two sessions on the same tree, in memories that are alike. -/
def Twins [Allocator α] [Allocator β] (x : TreeSession α) (y : TreeSession β) : Prop :=
  x.tree = y.tree ∧ x.tree.Paired x.memory y.memory ∧ ∃ s vacant, x.tree.Sound s vacant

/-- A command that looks at the tree alone. -/
private theorem Twins.looked [Allocator α] [Allocator β] {tree : Tree} {a : α} {b : β}
    (h : Twins ⟨tree, a⟩ ⟨tree, b⟩) {ρ : Type} (look : Except Fault ρ)
    (answer : ρ → Traced TreeAnswer) :
    Agrees id id Twins (look >>= fun seen => .ok (answer seen, ⟨tree, a⟩))
      (look >>= fun seen => .ok (answer seen, ⟨tree, b⟩)) := by
  cases look with
  | error fault => exact Or.inl ⟨fault, rfl, rfl⟩
  | ok seen => exact Or.inr ⟨_, _, _, _, rfl, rfl, rfl, h⟩

/-- A command that removes the entry at a handle. -/
private theorem Twins.removed [Allocator α] [Allocator β] {tree : Tree} {a : α} {b : β}
    (h : Twins ⟨tree, a⟩ ⟨tree, b⟩) (x : Handle) (answer : Removal → Traced TreeAnswer) :
    Agrees id id Twins
      (tree.removeAt a x >>= fun removed => .ok (answer removed.1, ⟨removed.2.1, removed.2.2⟩))
      (tree.removeAt b x >>= fun removed =>
        .ok (answer removed.1, ⟨removed.2.1, removed.2.2⟩)) := by
  obtain ⟨-, hp, s, vacant, hs⟩ := h
  rcases hs.removeAt_alike hp x with
    ⟨fault, ha, hb⟩ | ⟨removal, after, a', b', t, rest, ha, hb, hafter, hp'⟩
  · exact Or.inl ⟨fault, by rw [ha]; rfl, by rw [hb]; rfl⟩
  · exact Or.inr ⟨_, ⟨after, a'⟩, _, ⟨after, b'⟩, by rw [ha]; rfl, by rw [hb]; rfl, rfl, rfl, hp',
      t, rest, hafter⟩

/-- A handle given as an index that may be too large. -/
private theorem Twins.indexed {x : Handle → Except Fault (Traced TreeAnswer × TreeSession α)}
    {y : Handle → Except Fault (Traced TreeAnswer × TreeSession β)}
    [Allocator α] [Allocator β] (index : Nat)
    (h : ∀ handle, Agrees id id Twins (x handle) (y handle)) :
    Agrees id id Twins (Handle.ofIndex index >>= x) (Handle.ofIndex index >>= y) := by
  cases Handle.ofIndex index with
  | error fault => exact Or.inl ⟨fault, rfl, rfl⟩
  | ok handle => exact h handle

/-- A plain command carried out in memories that are alike. -/
theorem Twins.perform [Metered α] [Metered β] {x : TreeSession α} {y : TreeSession β}
    (h : Twins x y) (hplain : command.Plain) :
    Agrees id id Twins (perform command x) (perform command y) := by
  obtain ⟨tree, a⟩ := x
  obtain ⟨_, b⟩ := y
  have htwins := h
  obtain ⟨rfl, hp, s, vacant, hs⟩ := h
  cases command with
  | insert key value =>
    obtain ⟨answer, after, a', b', calls, t, rest, ha, hb, hafter, hp'⟩ :=
      hs.insert_alike hp key value
    rw [TreeSession.perform, TreeSession.perform, ha, hb]
    cases answer <;>
      exact Or.inr ⟨_, ⟨after, a'⟩, _, ⟨after, b'⟩, rfl, rfl, rfl, rfl, hp', t, rest, hafter⟩
  | search key => exact htwins.looked (tree.search key) _
  | remove key =>
    rw [TreeSession.perform, TreeSession.perform]
    cases tree.search key with
    | error fault => exact Or.inl ⟨fault, rfl, rfl⟩
    | ok searched =>
      obtain ⟨found, calls⟩ := searched
      cases found with
      | none => exact Or.inr ⟨_, _, _, _, rfl, rfl, rfl, htwins⟩
      | some x =>
        exact htwins.removed x fun removal =>
          ⟨.removed removal.entry.value removal.next, calls⟩
  | removeAt index =>
    exact Twins.indexed index fun x => htwins.removed x fun removal => ⟨.removedAt removal.next, []⟩
  | node index => exact Twins.indexed index fun x => htwins.looked (tree.node x) _
  | neighbor side index => exact Twins.indexed index fun x => htwins.looked (tree.neighbor side x) _
  | extreme side index => exact Twins.indexed index fun x => htwins.looked (tree.extreme side x) _
  | outermost side => exact htwins.looked (tree.outermost side) _
  | clear =>
    refine Or.inr ⟨⟨.done, []⟩, ⟨_, _⟩, ⟨.done, []⟩, ⟨_, _⟩, ?_, ?_, rfl, rfl,
      hp.sheds (hs.sheds_clear a) (hs.sheds_clear b), _, _, hs.cleared⟩
    · rw [TreeSession.perform, hs.hasShape.clear a]
      rfl
    · rw [TreeSession.perform, hs.hasShape.clear b]
      rfl
  | footprint => exact Or.inr ⟨_, _, _, _, rfl, rfl, rfl, htwins⟩
  | check key value => exact Or.inr ⟨_, _, _, _, rfl, rfl, rfl, htwins⟩
  | setLimit change => exact hplain.elim
  | clone => exact hplain.elim
  | becomeClone => exact hplain.elim

/-- A plain command and the report after it, in memories that are alike. -/
theorem Twins.step [Metered α] [Metered β] {x : TreeSession α} {y : TreeSession β}
    (h : Twins x y) (hplain : command.Plain) :
    Agrees TreeReport.withoutUsage TreeReport.withoutUsage Twins (step command x)
      (step command y) := by
  unfold TreeSession.step
  rcases h.perform hplain with ⟨fault, hx, hy⟩ | ⟨traced, x', _, y', hx, hy, rfl, htwins⟩
  · exact Or.inl ⟨fault, by rw [hx]; rfl, by rw [hy]; rfl⟩
  · have htree := htwins.1
    rw [hx, hy, ok_bind, ok_bind]
    dsimp only [id]
    rw [← htree]
    cases x'.tree.treeExtent with
    | error fault => exact Or.inl ⟨fault, rfl, rfl⟩
    | ok extent =>
      cases x'.tree.drawing with
      | error fault => exact Or.inl ⟨fault, rfl, rfl⟩
      | ok drawing => exact Or.inr ⟨_, x', _, y', rfl, rfl, rfl, htwins⟩

/-- Nobody can tell two sessions apart by plain commands: the same answers and the same trees are
reported on the way, and either both end in the same fault or both end with the same tree. -/
def Indistinguishable [Metered α] [Metered β] (x : TreeSession α) (y : TreeSession β) : Prop :=
  ∀ commands : List TreeCommand, (∀ command ∈ commands, command.Plain) →
    (run step commands x).answers.map TreeReport.withoutUsage =
        (run step commands y).answers.map TreeReport.withoutUsage ∧
      (run step commands x).ending.map TreeSession.tree =
        (run step commands y).ending.map TreeSession.tree

theorem Twins.indistinguishable [Metered α] [Metered β] {x : TreeSession α} {y : TreeSession β}
    (h : Twins x y) : Indistinguishable x y := by
  intro commands hplain
  have hstep : ∀ command ∈ commands, ∀ (x : TreeSession α) (y : TreeSession β), Twins x y →
      Agrees TreeReport.withoutUsage TreeReport.withoutUsage Twins (TreeSession.step command x)
        (TreeSession.step command y) :=
    fun command hc _ _ htwins => htwins.step (hplain command hc)
  obtain ⟨hanswers, hending⟩ := run_agrees hstep h
  refine ⟨hanswers, ?_⟩
  rcases hending with ⟨fault, hx, hy⟩ | ⟨last, last', hx, hy, htree, -⟩
  · rw [hx, hy]
    rfl
  · rw [hx, hy, Except.map, Except.map, htree]

end TreeSession

/-! ### Clearing -/

theorem Budget.toNat_inUse_of_grants [Allocator α] {budget after : Budget α} {gs : List Layout}
    (hg : Grants budget gs after) :
    after.inUse.toNat = budget.inUse.toNat + (gs.map Layout.size).sum := by
  induction hg with
  | nil budget => rfl
  | cons hreply hg ih =>
    obtain ⟨hfits, inner, rfl⟩ := Budget.allocate_eq_granted hreply
    rw [ih, Budget.toNat_inUse_charge hfits, List.map_cons, List.sum_cons, Nat.add_assoc]

namespace Tree

variable {tree : Tree} {s : Shape} {vacant : List Handle}

/-- A tree without entries, with the sizes, the comparator and the capacity of another. -/
def vacated (tree : Tree) : Tree :=
  { tree with nodes := tree.nodes.clear, root := none }

/-- A constructor that is granted the slot table makes the same tree as clearing. -/
theorem Sound.withCapacity_eq_vacated [Allocator α] (h : tree.Sound s vacant)
    (hcapacity : tree.capacity ≤ Handle.maxIndex + 1) (memory : α) :
    (∃ memory', Grants memory tree.vacated.holdings memory' ∧
        withCapacity tree.keySize tree.valueSize tree.capacity tree.comparator memory =
          (.ok tree.vacated, memory')) ∨
      ∃ memory', withCapacity tree.keySize tree.valueSize tree.capacity tree.comparator memory =
          (.error .noMemory, memory') := by
  have hbound : tree.capacity * Node.footprint < Layout.bound := by
    refine Nat.lt_of_le_of_lt (Nat.mul_le_mul_right _ hcapacity) ?_
    decide
  have hnodes : { (Arena.empty Node.footprint : Arena Node) with capacity := tree.capacity } =
      tree.nodes.clear := by
    rw [Arena.clear, h.slotSize]
    rfl
  have hheld : tree.vacated.holdings = Arena.tableBlocks Node.footprint tree.capacity :=
    List.append_nil _
  rw [withCapacity, h.layouts, hheld]
  dsimp only
  rw [if_neg (Nat.not_lt.mpr hcapacity)]
  rcases Arena.withCapacity_cases hbound memory (ε := Node) with
    ⟨memory', hgrants, heq⟩ | ⟨memory', layout, -, -, heq⟩
  · rw [heq, hnodes]
    exact Or.inl ⟨memory', hgrants, rfl⟩
  · rw [heq]
    exact Or.inr ⟨memory', rfl⟩

/-- Clearing a reachable tree gives the two blocks of each of its entries back, once, and leaves an
empty tree with its slot table. If a constructor takes a capacity as large, that is the tree it
makes in any memory that grants the table; and if as many bytes remain of the budget that it was
made in, over a memory that is alike, nobody can tell the two apart from then on. -/
theorem Reachable.clear_restarts [Allocator α] [Allocator β] (hr : Reachable tree)
    {memory : Budget α} {others : List Layout} (hheld : memory.Holds (tree.holdings ++ others)) :
    ∃ drawing cleared after, tree.drawing = .ok drawing ∧
      tree.clear memory = .ok (cleared, after) ∧
      after = (drawing.entries.flatMap fun _ => [tree.keyLayout, tree.valueLayout]).foldl
        Allocator.release memory ∧
      after.inUse.toNat + tree.size * (tree.keySize + tree.valueSize) = memory.inUse.toNat ∧
      after.live.toNat + 2 * tree.size = memory.live.toNat ∧ after.total = memory.total ∧
      cleared.root = none ∧ cleared.size = 0 ∧ cleared.nodes.free = none ∧
      cleared.capacity = tree.capacity ∧
      (tree.capacity ≤ Handle.maxIndex + 1 → ∀ fresh : Budget β,
        (∃ made, Tree.withCapacity tree.keySize tree.valueSize tree.capacity tree.comparator fresh =
            (.ok cleared, made) ∧
          (made.remaining = after.remaining →
            Alike false cleared.holdings after.inner made.inner →
              TreeSession.Indistinguishable ⟨cleared, after⟩ ⟨cleared, made⟩)) ∨
          ∃ made,
            Tree.withCapacity tree.keySize tree.valueSize tree.capacity tree.comparator fresh =
              (.error .noMemory, made)) := by
  obtain ⟨s, vacant, h⟩ := hr.sound
  have hsheds : Sheds tree memory s.size tree.vacated (tree.releaseBlocks^[s.size] memory) :=
    h.sheds_clear memory
  have hreleases : tree.releaseBlocks^[s.size] memory =
      (tree.copyRequests s.size).foldl Allocator.release memory := iterate_releaseBlocks ..
  have hholds : (tree.releaseBlocks^[s.size] memory).Holds (tree.vacated.holdings ++ others) :=
    hheld.exchange (hsheds.exchange.frame others)
  have hcapacity : tree.vacated.capacity = tree.capacity := rfl
  have hsize : tree.vacated.size = 0 := rfl
  refine ⟨s.drawing none, tree.vacated, _, h.hasShape.drawing, h.hasShape.clear memory, ?_, ?_, ?_,
    ?_, rfl, rfl, rfl, rfl, fun hmax fresh => ?_⟩
  · rw [hreleases, Shape.entries_drawing, copyRequests, List.flatMap_def, List.map_const',
      Shape.entries, List.length_map]
    rfl
  · have hbefore := hheld.inUse
    have hafter := hholds.inUse
    rw [List.map_append, List.sum_append, sum_holdings, share] at hbefore hafter
    rw [hcapacity, hsize, Nat.zero_mul] at hafter
    omega
  · have hbefore := hheld.live
    have hafter := hholds.live
    rw [List.length_append, length_holdings, blockCount] at hbefore hafter
    rw [hcapacity, hsize] at hafter
    omega
  · rw [Budget.total_of_exchange hsheds.exchange]
    exact UInt64.add_zero _
  · rcases h.withCapacity_eq_vacated hmax fresh with ⟨made, hgrants, heq⟩ | ⟨made, heq⟩
    · refine Or.inl ⟨made, heq, fun hremaining hinner => ?_⟩
      have hsum : (tree.vacated.holdings.map Layout.size).sum ≤ made.inUse.toNat := by
        rw [Budget.toNat_inUse_of_grants hgrants]
        exact Nat.le_add_left _ _
      have hsum' : (tree.vacated.holdings.map Layout.size).sum ≤
          (tree.releaseBlocks^[s.size] memory).inUse.toNat := by
        rw [hholds.inUse, List.map_append, List.sum_append]
        exact Nat.le_add_right _ _
      have halike := Budget.alike hinner hremaining.symm hsum' hsum fun h => by cases h
      exact TreeSession.Twins.indistinguishable
        ⟨rfl, ⟨false, halike, fun _ => rfl⟩, _, _, h.cleared⟩
    · exact Or.inr ⟨made, heq⟩

/-- A budget of which much is in use by others. -/
def sampleShared : Budget Heap :=
  { inner := ⟨none⟩, limit := 1000, inUse := 600, total := 7, live := 1 }

theorem Reachable.clear_restarts_sample :
    ∃ (full cleared : Tree) (memory' after made : Budget Heap),
      Operation.runAll (sampleRun.take 4) sampleTree sampleMemory = .ok (full, memory') ∧
      memory'.Holds (full.holdings ++ []) ∧ full.clear memory' = .ok (cleared, after) ∧
      after.inUse.toNat + 8 = memory'.inUse.toNat ∧ after.live.toNat + 8 = memory'.live.toNat ∧
      Tree.withCapacity 1 1 4 .lexicographic sampleShared = (.ok cleared, made) ∧
      TreeSession.Indistinguishable ⟨cleared, after⟩ ⟨cleared, made⟩ := by
  obtain ⟨full, memory', hrun, hfull⟩ := exists_sampleRun_take 4
  have hfacts : (Operation.runAll (sampleRun.take 4) sampleTree sampleMemory).map
      (fun p => (p.1.keySize, p.1.valueSize, p.1.capacity, p.1.comparator, p.1.holdings, p.2)) =
        .ok (1, 1, 4, .lexicographic, ⟨192, 8⟩ :: List.replicate 8 ⟨1, 8⟩,
          ⟨⟨none⟩, 400, 200, 9, 9⟩) := rfl
  have hcleared : (Operation.runAll (sampleRun.take 4) sampleTree sampleMemory >>= fun p =>
      Prod.snd <$> p.1.clear p.2) = .ok ⟨⟨none⟩, 400, 192, 9, 1⟩ := rfl
  rw [hrun] at hfacts hcleared
  simp only [Except.map, Except.ok.injEq, Prod.mk.injEq] at hfacts
  obtain ⟨hkey, hvalue, hcapacity, hcomparator, hholdings, rfl⟩ := hfacts
  have hheld : (⟨⟨none⟩, 400, 200, 9, 9⟩ : Budget Heap).Holds (full.holdings ++ []) := by
    rw [hholdings]
    exact ⟨by decide, by decide, by decide⟩
  obtain ⟨drawing, cleared, after, -, hclear, -, hinUse, hlive, -, -, -, -, -, hfresh⟩ :=
    Reachable.clear_restarts (β := Heap) hfull hheld
  rw [ok_bind, hclear, map_ok, Except.ok.injEq] at hcleared
  rw [hkey, hvalue, hcapacity, hcomparator] at hfresh
  subst hcleared
  rcases hfresh (by decide) sampleShared with ⟨made, hmade, hsame⟩ | ⟨made, hfail⟩
  · have hmemory : (Tree.withCapacity 1 1 4 .lexicographic sampleShared).2 =
        ⟨⟨none⟩, 1000, 792, 8, 2⟩ := rfl
    obtain rfl : made = ⟨⟨none⟩, 1000, 792, 8, 2⟩ := by rw [← hmemory, hmade]
    exact ⟨full, cleared, _, _, _, hrun, hheld, hclear, rfl, rfl, hmade,
      hsame rfl (.refl _ _ _)⟩
  · have hgranted : ((Tree.withCapacity 1 1 4 .lexicographic sampleShared).1.toOption).isSome := rfl
    rw [hfail] at hgranted
    cases hgranted

end Tree

end MeteredMap
