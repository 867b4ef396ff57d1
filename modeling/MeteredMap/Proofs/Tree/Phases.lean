import MeteredMap.Proofs.Tree.Provision
import MeteredMap.Tree.Remove

/-!
# Operations in phases

An operation that changes a tree looks for a place first, then settles with its memory, and changes
links and colours for the rest. Only the first phase asks the comparator, only the second asks the
memory, and the third depends on the tree alone.

## Main definitions

* `MeteredMap.Tree.settle` : a new leaf put into a table that has room.
* `MeteredMap.Tree.plant` : an insertion from the end of its search on.
* `MeteredMap.Tree.detach` : a removal without its memory.

## Main results

* `MeteredMap.Tree.insert_phases` : an insertion fails alike in all memories or is a planting.
* `MeteredMap.Tree.removeAt_eq_detach` : a removal is a detachment, and two blocks given back.
-/

namespace MeteredMap

namespace Arena

variable {α ε : Type} [Allocator α] {arena : Arena ε}

/-- An arena with room puts in an element without asking for memory. -/
theorem insert_eq_place (h : arena.HasRoom) (memory : α) (element : ε) :
    arena.insert memory element =
      (fun placed => (placed.1, placed.2, memory)) <$> arena.place element := by
  have hfull : ¬ (arena.isFull ∧ arena.slots.size ≤ Handle.maxIndex) := by
    rintro ⟨hfull, -⟩
    simp only [isFull, Bool.and_eq_true, Option.isNone_iff_eq_none, beq_iff_eq] at hfull
    rcases h with hsome | ⟨-, hlt⟩
    · simp [hfull.1] at hsome
    · omega
  rw [insert, if_neg hfull]
  rfl

end Arena

namespace Tree

variable {α : Type} {tree : Tree} {vacant : List Handle}

/-! ### Removal -/

/-- The entry at a handle taken out of the tree, its blocks still to be given back. -/
def detach (tree : Tree) (handle : Handle) : Except Fault (Removal × Tree) := do
  let (target, next, tree) ← tree.isolate handle
  let (node, tree) ← tree.splice target
  let tree ←
    match node.color with
    | .red => pure tree
    | .black => tree.repairRemove (node.left <|> node.right) node.parent
  return (⟨node.entry, next⟩, tree)

/-- The memory has no part in a removal but to get two blocks back. -/
theorem removeAt_eq_detach [Allocator α] (tree : Tree) (memory : α) (handle : Handle) :
    tree.removeAt memory handle =
      (fun detached => (detached.1, detached.2, detached.2.releaseBlocks memory)) <$>
        tree.detach handle := by
  unfold removeAt detach
  rcases tree.isolate handle with fault | ⟨target, next, isolated⟩
  · rfl
  simp only [ok_bind]
  rcases isolated.splice target with fault | ⟨node, spliced⟩
  · rfl
  simp only [ok_bind]
  cases node.color with
  | red => rfl
  | black => cases spliced.repairRemove (node.left <|> node.right) node.parent <;> rfl

/-- A handle whose entry was taken out was live. -/
theorem isSome_get?_of_detach {handle : Handle} {detached : Removal × Tree}
    (h : tree.detach handle = .ok detached) : (tree.nodes.get? handle).isSome := by
  obtain ⟨_, hisolate, -⟩ := bind_eq_ok_iff.mp h
  obtain ⟨node, hnode, -⟩ := bind_eq_ok_iff.mp hisolate
  rw [Arena.get_eq_ok_iff.mp hnode]
  rfl

/-! ### Insertion -/

/-- A new leaf at the end of a search, in a table that has room, the colour rules restored. -/
def settle (tree : Tree) (nodes : Arena Node) (entry : Entry) (arrival : Arrival) :
    Except Fault (Handle × Tree) := do
  let (handle, nodes) ← nodes.place (Node.leaf entry arrival.parent?)
  let tree ← attach { tree with nodes } arrival handle
  let tree ← tree.repairInsert handle
  return (handle, tree)

/-- An insertion from the end of its search on: provision, then a change of links. -/
def plant [Allocator α] (tree : Tree) (memory : α) (entry : Entry) (arrival : Arrival) :
    Except Fault (Outcome Tree α (Except MapError Handle)) :=
  match tree.provision memory with
  | ⟨.error e, nodes, memory⟩ => .ok ⟨.error e, { tree with nodes }, memory⟩
  | ⟨.ok (), nodes, memory⟩ =>
    (fun settled => ⟨.ok settled.1, settled.2, memory⟩) <$> tree.settle nodes entry arrival

theorem plant_of_error [Allocator α] {memory memory' : α} {nodes : Arena Node} {e : MapError}
    (h : tree.provision memory = ⟨.error e, nodes, memory'⟩) (entry : Entry) (arrival : Arrival) :
    tree.plant memory entry arrival = .ok ⟨.error e, { tree with nodes }, memory'⟩ := by
  rw [plant, h]

theorem plant_of_ok [Allocator α] {memory memory' : α} {nodes : Arena Node}
    (h : tree.provision memory = ⟨.ok (), nodes, memory'⟩) (entry : Entry) (arrival : Arrival) :
    tree.plant memory entry arrival =
      (fun settled => ⟨.ok settled.1, settled.2, memory'⟩) <$>
        tree.settle nodes entry arrival := by
  rw [plant, h]

/-- A provision that succeeds has made room. -/
private theorem hasRoom_of_provision [Allocator α] {memory memory' : α} {nodes : Arena Node}
    (h : tree.nodes.WellFormed vacant)
    (hprovision : tree.provision memory = ⟨.ok (), nodes, memory'⟩) : nodes.HasRoom := by
  obtain ⟨middle, -, hreserve⟩ := grants_of_provision_eq_ok hprovision
  rcases h.reserve middle with ⟨e, after, heq⟩ | ⟨capacity, after, heq, -, hroom⟩
  · rw [hreserve] at heq
    cases heq
  · rw [hreserve] at heq
    cases heq
    exact hroom

/-- Linking a leaf and restoring the colour rules, in phases. -/
private theorem link_repair_eq_plant [Allocator α] (h : tree.nodes.WellFormed vacant) (memory : α)
    (entry : Entry) (arrival : Arrival) (calls : List Call) :
    (do
      let linked ← tree.link memory entry arrival
      match linked.answer with
      | .error _ => return (⟨linked, calls⟩ : Traced _)
      | .ok handle =>
        let tree ← linked.state.repairInsert handle
        return ⟨⟨.ok handle, tree, linked.memory⟩, calls⟩) =
      (fun planted => ⟨planted, calls⟩) <$> tree.plant memory entry arrival := by
  rw [link_eq, plant]
  rcases hprovision : tree.provision memory with ⟨e | ⟨⟩, nodes, memory'⟩
  · rfl
  · have hroom := hasRoom_of_provision h hprovision
    simp only [Arena.insert_eq_place hroom, settle]
    rcases nodes.place (Node.leaf entry arrival.parent?) with fault | ⟨handle, placed⟩
    · rfl
    simp only [map_ok, ok_bind]
    rcases attach { tree with nodes := placed } arrival handle with fault | linked
    · rfl
    simp only [ok_bind, pure_eq_ok]
    cases linked.repairInsert handle <;> rfl

/-- An insertion fails alike in all memories, as the fault does that may end its search, or it is a
planting where the search ended. -/
theorem insert_phases (h : tree.nodes.WellFormed vacant) (key value : Blob) :
    (∃ fault, ∀ {α : Type} [Allocator α] (memory : α),
        tree.insert memory key value = .error fault) ∨
      (∃ e calls, ∀ {α : Type} [Allocator α] (memory : α),
        tree.insert memory key value = .ok ⟨⟨.error e, tree, memory⟩, calls⟩) ∨
      ∃ arrival calls, ∀ {α : Type} [Allocator α] (memory : α),
        tree.insert memory key value =
          (fun planted => ⟨planted, calls⟩) <$> tree.plant memory ⟨key, value⟩ arrival := by
  cases hkey : tree.checkKey key with
  | error e => exact Or.inr (Or.inl ⟨e, [], fun memory => by rw [insert, hkey]; rfl⟩)
  | ok _ =>
    cases hvalue : tree.checkValue value with
    | error e => exact Or.inr (Or.inl ⟨e, [], fun memory => by rw [insert, hkey, hvalue]; rfl⟩)
    | ok _ =>
      cases hdescend : tree.descend key with
      | error fault =>
        exact Or.inl ⟨fault, fun memory => by rw [insert, hkey, hvalue, hdescend]; rfl⟩
      | ok visits =>
        cases harrival : Arrival.ofVisits visits with
        | found x =>
          refine Or.inr (Or.inl ⟨.keyExists, Visit.calls key visits, fun memory => ?_⟩)
          rw [insert, hkey, hvalue, hdescend]
          simp only [ok_bind, harrival]
          rfl
        | below parent side =>
          refine Or.inr (Or.inr ⟨.below parent side, Visit.calls key visits, fun memory => ?_⟩)
          rw [insert, hkey, hvalue, hdescend]
          simp only [ok_bind, harrival]
          exact link_repair_eq_plant h memory ⟨key, value⟩ (.below parent side) _
        | nowhere =>
          refine Or.inr (Or.inr ⟨.nowhere, Visit.calls key visits, fun memory => ?_⟩)
          rw [insert, hkey, hvalue, hdescend]
          simp only [ok_bind, harrival]
          exact link_repair_eq_plant h memory ⟨key, value⟩ .nowhere _

end Tree

end MeteredMap
