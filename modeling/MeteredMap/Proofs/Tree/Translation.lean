import Mathlib.Tactic.SplitIfs
import MeteredMap.Memory.Budget
import MeteredMap.Proofs.Steps
import MeteredMap.Tree.Clone
import MeteredMap.Tree.Footprint
import MeteredMap.Tree.Lookup

/-!
# Memories translated

A map asks its memory, gives back to it and hands it on, and does nothing else with it. If memories
of one kind are translated to memories of another kind that answer the same, whatever is done with a
map in a memory ends in the translated memory as it does in the memory itself.

## Main definitions

* `MeteredMap.Allocator.Translation`, `MeteredMap.Metered.Translation` : translations between kinds
  of memories.

## Main results

* `MeteredMap.Tree.insert_translate`, `MeteredMap.Tree.removeAt_translate`,
  `MeteredMap.Tree.clear_translate`, `MeteredMap.Tree.clone_translate` : the operations of a tree.
-/

namespace MeteredMap

variable {α β σ ρ : Type}

/-! ### Translations -/

/-- The answer with its memory translated. -/
def Reply.translate (f : α → β) : Reply α → Reply β
  | granted memory => granted (f memory)
  | refused memory => refused (f memory)

/-- What an operation leaves behind, with its memory translated. -/
def Outcome.translate (f : α → β) (outcome : Outcome σ α ρ) : Outcome σ β ρ :=
  ⟨outcome.answer, outcome.state, f outcome.memory⟩

/-- The result changed, with the same calls. -/
def Traced.map {ρ' : Type} (v : ρ → ρ') (traced : Traced ρ) : Traced ρ' :=
  ⟨v traced.value, traced.calls⟩

/-- A translation of memories to memories that answer the same. -/
structure Allocator.Translation [Allocator α] [Allocator β] (f : α → β) : Prop where
  allocate (memory : α) (layout : Layout) :
    Allocator.allocate (f memory) layout = (Allocator.allocate memory layout).translate f
  release (memory : α) (layout : Layout) :
    Allocator.release (f memory) layout = f (Allocator.release memory layout)
  canAllocate (memory : α) (layout : Layout) :
    Allocator.canAllocate (f memory) layout = Allocator.canAllocate memory layout
  footprint : Allocator.footprint β = Allocator.footprint α

/-- A translation that keeps the counters and goes along with a change of the limit. -/
structure Metered.Translation [Metered α] [Metered β] (f : α → β) : Prop
    extends Allocator.Translation f where
  usage? (memory : α) : Metered.usage? (f memory) = Metered.usage? memory
  setLimit (memory : α) (change : LimitChange) :
    Metered.setLimit (f memory) change = f (Metered.setLimit memory change)

variable [Allocator α] [Allocator β] {f : α → β} (h : Allocator.Translation f)

include h

/-! ### Arenas -/

namespace Arena

variable {ε : Type}

theorem releaseTable_translate (arena : Arena ε) (memory : α) :
    arena.releaseTable (f memory) = f (arena.releaseTable memory) := by
  unfold releaseTable
  split_ifs
  · rfl
  · exact h.release memory _

theorem grow_translate (arena : Arena ε) (memory : α) :
    arena.grow (f memory) = (arena.grow memory).translate f := by
  unfold grow
  dsimp only
  cases Layout.table? (grownCapacity arena.slotSize arena.capacity * arena.slotSize) with
  | none => rfl
  | some layout =>
    dsimp only
    rw [h.allocate]
    cases Allocator.allocate memory layout with
    | refused memory => rfl
    | granted memory =>
      simp only [Reply.translate, releaseTable_translate h]
      rfl

theorem reserve_translate (arena : Arena ε) (memory : α) :
    arena.reserve (f memory) = (arena.reserve memory).translate f := by
  unfold reserve
  split_ifs
  · rfl
  · rfl
  · rfl
  · exact grow_translate h arena memory

theorem insert_translate (arena : Arena ε) (memory : α) (element : ε) :
    arena.insert (f memory) element =
      Prod.map id (Prod.map id f) <$> arena.insert memory element := by
  unfold insert
  split_ifs
  · rw [grow_translate h]
    obtain ⟨result, grown, memory'⟩ := arena.grow memory
    cases result with
    | error e => rfl
    | ok => exact bind_eq_map_bind fun _ => rfl
  · exact bind_eq_map_bind fun _ => rfl

theorem withCapacity_translate (slotSize capacity : Nat) (memory : α) :
    (withCapacity slotSize capacity (f memory) : Except MapError (Arena ε) × β) =
      Prod.map id f (withCapacity slotSize capacity memory) := by
  unfold withCapacity
  split_ifs
  · rfl
  · cases Layout.table? (capacity * slotSize) with
    | none => rfl
    | some layout =>
      dsimp only
      rw [h.allocate]
      cases Allocator.allocate memory layout <;> rfl

end Arena

namespace Tree

/-! ### Making trees -/

theorem withCapacity_translate (keySize valueSize capacity : Nat)
    (comparator : Comparator) (memory : α) :
    withCapacity keySize valueSize capacity comparator (f memory) =
      Prod.map id f (withCapacity keySize valueSize capacity comparator memory) := by
  unfold withCapacity
  cases layouts keySize valueSize with
  | error e => rfl
  | ok both =>
    dsimp only
    split_ifs
    · rfl
    · rw [Arena.withCapacity_translate h]
      obtain ⟨made, memory'⟩ :=
        (Arena.withCapacity Node.footprint capacity memory : Except MapError (Arena Node) × α)
      cases made <;> rfl

/-! ### Insertion -/

theorem link_translate (tree : Tree) (memory : α) (entry : Entry) (arrival : Arrival) :
    tree.link (f memory) entry arrival =
      (·.translate f) <$> tree.link memory entry arrival := by
  unfold link
  rw [h.allocate]
  cases Allocator.allocate memory tree.keyLayout with
  | refused memory => rfl
  | granted memory =>
    dsimp only [Reply.translate]
    rw [h.allocate]
    cases Allocator.allocate memory tree.valueLayout with
    | refused memory =>
      dsimp only [Reply.translate]
      rw [h.release]
      rfl
    | granted memory =>
      dsimp only [Reply.translate]
      rw [Arena.reserve_translate h]
      obtain ⟨reserved, nodes, memory⟩ := tree.nodes.reserve memory
      dsimp only [Outcome.translate]
      cases reserved with
      | error e =>
        dsimp only
        rw [h.release, h.release]
        rfl
      | ok =>
        refine bind_eq_map_bind_of_map (Arena.insert_translate h nodes memory _) fun placed => ?_
        exact bind_eq_map_bind fun _ => rfl

theorem insert_translate (tree : Tree) (memory : α) (key value : Blob) :
    tree.insert (f memory) key value =
      Traced.map (·.translate f) <$> tree.insert memory key value := by
  unfold insert
  cases tree.checkKey key with
  | error e => rfl
  | ok =>
    cases tree.checkValue value with
    | error e => rfl
    | ok =>
      refine bind_eq_map_bind fun visits => ?_
      dsimp only
      rcases Arrival.ofVisits visits with found | ⟨parent, side⟩ | _
      · rfl
      all_goals
        refine bind_eq_map_bind_of_map (link_translate h tree memory _ _) fun linked => ?_
        obtain ⟨_ | handle, after, memory'⟩ := linked
        · rfl
        · exact bind_eq_map_bind fun _ => rfl

/-! ### Removal -/

theorem releaseBlocks_translate (tree : Tree) (memory : α) :
    tree.releaseBlocks (f memory) = f (tree.releaseBlocks memory) := by
  unfold releaseBlocks
  rw [h.release, h.release]

theorem removeAt_translate (tree : Tree) (memory : α) (handle : Handle) :
    tree.removeAt (f memory) handle =
      Prod.map id (Prod.map id f) <$> tree.removeAt memory handle := by
  refine bind_eq_map_bind fun isolated => ?_
  refine bind_eq_map_bind fun spliced => ?_
  dsimp only
  simp only [releaseBlocks_translate h]
  cases spliced.1.color with
  | red => rfl
  | black => exact bind_eq_map_bind fun _ => rfl

theorem removeAtInto_translate (tree : Tree) (memory : α) (handle : Handle) (buffer : Blob) :
    tree.removeAtInto (f memory) handle buffer =
      Prod.map id (Prod.map id f) <$> tree.removeAtInto memory handle buffer := by
  refine bind_eq_map_bind_of_map (removeAt_translate h tree memory handle) fun removed => ?_
  dsimp only [Prod.map, id]
  split_ifs
  · rfl
  · rfl

theorem extract_translate (tree : Tree) (memory : α) (key : Blob) :
    tree.extract (f memory) key = Traced.map (·.translate f) <$> tree.extract memory key := by
  refine bind_eq_map_bind fun found => ?_
  cases found.value with
  | error e => rfl
  | ok handle =>
    exact bind_eq_map_bind_of_map (removeAt_translate h tree memory handle) fun _ => rfl

theorem remove_translate (tree : Tree) (memory : α) (key : Blob) :
    tree.remove (f memory) key = Traced.map (·.translate f) <$> tree.remove memory key :=
  bind_eq_map_bind_of_map (extract_translate h tree memory key) fun _ => rfl

theorem removeInto_translate (tree : Tree) (memory : α) (key buffer : Blob) :
    tree.removeInto (f memory) key buffer =
      Traced.map (·.translate f) <$> tree.removeInto memory key buffer := by
  unfold removeInto
  cases tree.checkKey key with
  | error e => rfl
  | ok =>
    cases tree.checkValue buffer with
    | error e => rfl
    | ok =>
      refine bind_eq_map_bind fun found => ?_
      cases found.value with
      | error e => rfl
      | ok handle =>
        exact bind_eq_map_bind_of_map (removeAtInto_translate h tree memory handle buffer)
          fun _ => rfl

/-! ### Clearing -/

theorem clearWithin_translate (fuel : Nat) (waiting : List Handle) (tree : Tree) (memory : α) :
    clearWithin fuel waiting tree (f memory) =
      Prod.map id f <$> clearWithin fuel waiting tree memory := by
  induction fuel generalizing waiting tree memory with
  | zero => cases waiting <;> rfl
  | succ fuel ih =>
    cases waiting with
    | nil => rfl
    | cons x waiting =>
      refine bind_eq_map_bind fun node => ?_
      cases node.left with
      | some left => exact bind_eq_map_bind fun _ => ih _ _ _
      | none =>
        cases node.right with
        | some right => exact bind_eq_map_bind fun _ => ih _ _ _
        | none =>
          refine bind_eq_map_bind fun taken => ?_
          rw [releaseBlocks_translate h]
          exact ih _ _ _

theorem clear_translate (tree : Tree) (memory : α) :
    tree.clear (f memory) = Prod.map id f <$> tree.clear memory :=
  bind_eq_map_bind_of_map (clearWithin_translate h _ _ _ memory) fun _ => rfl

theorem dispose_translate (tree : Tree) (memory : α) :
    tree.dispose (f memory) = f <$> tree.dispose memory := by
  refine bind_eq_map_bind_of_map (clear_translate h tree memory) fun cleared => ?_
  dsimp only [Prod.map, id]
  rw [Arena.releaseTable_translate h]
  rfl

/-! ### Cloning -/

theorem copyWithin_translate (source : Tree) (fuel : Nat)
    (current : Option Handle) (target : Tree) (memory : α) :
    copyWithin source fuel current target (f memory) =
      Traced.map (·.translate f) <$> copyWithin source fuel current target memory := by
  induction fuel generalizing current target memory with
  | zero => cases current <;> rfl
  | succ fuel ih =>
    cases current with
    | none => rfl
    | some handle =>
      refine bind_eq_map_bind fun node => ?_
      refine bind_eq_map_bind_of_map (insert_translate h target memory _ _) fun inserted => ?_
      obtain ⟨⟨_ | x, target, memory⟩, calls⟩ := inserted
      · rfl
      · refine bind_eq_map_bind fun next => ?_
        exact bind_eq_map_bind_of_map (ih next target memory) fun _ => rfl

theorem clone_translate (tree : Tree) (memory : α) :
    tree.clone (f memory) = Traced.map (Prod.map id f) <$> tree.clone memory := by
  unfold clone
  rw [withCapacity_translate h]
  obtain ⟨_ | target, memory⟩ :=
    withCapacity tree.keySize tree.valueSize tree.size tree.comparator memory
  · rfl
  · refine bind_eq_map_bind fun first => ?_
    refine bind_eq_map_bind_of_map (copyWithin_translate h tree _ first target memory)
      fun copied => ?_
    obtain ⟨⟨_ | done, target, memory⟩, calls⟩ := copied
    · exact bind_eq_map_bind_of_map (dispose_translate h target memory) fun _ => rfl
    · rfl

/-! ### Footprints -/

theorem canPerform_translate (tree : Tree) (memory : α)
    (required : Nat) : tree.canPerform (f memory) required = tree.canPerform memory required := by
  unfold canPerform
  simp only [h.canAllocate]

theorem memoryUsage_translate (tree : Tree) :
    tree.memoryUsage β = tree.memoryUsage α := by
  unfold memoryUsage
  rw [h.footprint]

end Tree

end MeteredMap
