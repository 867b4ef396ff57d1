import MeteredMap.Comparator
import MeteredMap.Memory.Budget
import MeteredMap.Proofs.Tree.Copying

/-!
# Reachable trees

Runs of operations on a tree, in any memory, under any comparator. A tree is *reachable* if it
comes out of such a run from a constructor. Between two operations the memory may be exchanged for
any other, so that every pattern of refusals is among the runs.

Every reachable tree is sound, and on a sound tree every permitted operation ends without a fault.

## Main definitions

* `MeteredMap.Tree.Operation` : the operations, by handle where they are about one node.
* `MeteredMap.Tree.Operation.Permitted` : what a caller has to see to.
* `MeteredMap.Tree.Reachable` : trees that come out of a run.

## Main results

* `MeteredMap.Tree.Sound.run` : a permitted operation on a sound tree ends and leaves one.
* `MeteredMap.Tree.Reachable.sound` : reachable trees are sound.
* `MeteredMap.Tree.Operation.exists_runAll` : a run of permitted operations ends.
* `MeteredMap.Tree.Operation.runAll_ok` : no run reaches a fault, up to the disposal of its tree.
-/

namespace MeteredMap

namespace Tree

open Shape

variable {α : Type} [Allocator α]

/-- An operation on a tree. -/
inductive Operation where
  | insert (key value : Blob)
  | search (key : Blob)
  /-- Search for a key and remove the entry found. -/
  | remove (key : Blob)
  /-- Remove the entry at a handle, its value going to a buffer if one is given. -/
  | removeAt (handle : Handle) (buffer : Option Blob)
  /-- Write over the value at a handle. -/
  | overwriteAt (handle : Handle) (bytes : Blob) (offset : Nat)
  | node (handle : Handle)
  | neighbor (side : Side) (handle : Handle)
  | extreme (side : Side) (handle : Handle)
  | outermost (side : Side)
  | height
  /-- Iterate over all entries. -/
  | entries
  | clear
  /-- Make a clone and dispose of it. -/
  | clone
  /-- Put a clone in the place of the tree. -/
  | becomeClone

namespace Operation

/-- Carries out an operation. Its answer is dropped. -/
def run (operation : Operation) (tree : Tree) (memory : α) : Except Fault (Tree × α) := do
  match operation with
  | .insert key value =>
    let ⟨⟨_, tree, memory⟩, _⟩ ← tree.insert memory key value
    return (tree, memory)
  | .search key =>
    let _ ← tree.search key
    return (tree, memory)
  | .remove key =>
    match (← tree.search key).value with
    | none => return (tree, memory)
    | some handle =>
      let (_, tree, memory) ← tree.removeAt memory handle
      return (tree, memory)
  | .removeAt handle none =>
    let (_, tree, memory) ← tree.removeAt memory handle
    return (tree, memory)
  | .removeAt handle (some buffer) =>
    let (_, tree, memory) ← tree.removeAtInto memory handle buffer
    return (tree, memory)
  | .overwriteAt handle bytes offset => return (← tree.overwriteAt handle bytes offset, memory)
  | .node handle =>
    let _ ← tree.node handle
    return (tree, memory)
  | .neighbor side handle =>
    let _ ← tree.neighbor side handle
    return (tree, memory)
  | .extreme side handle =>
    let _ ← tree.extreme side handle
    return (tree, memory)
  | .outermost side =>
    let _ ← tree.outermost side
    return (tree, memory)
  | .height =>
    let _ ← tree.height
    return (tree, memory)
  | .entries =>
    let _ ← tree.entries
    return (tree, memory)
  | .clear => tree.clear memory
  | .clone =>
    match (← tree.clone memory).value with
    | (.error _, memory) => return (tree, memory)
    | (.ok copy, memory) => return (tree, ← copy.dispose memory)
  | .becomeClone =>
    match (← tree.clone memory).value with
    | (.error _, memory) => return (tree, memory)
    | (.ok copy, memory) => return (copy, ← tree.dispose memory)

/-- What a caller has to see to: a handle is live, and a buffer for a value is as long as one. -/
def Permitted (tree : Tree) : Operation → Prop
  | .removeAt handle buffer =>
    (tree.nodes.get? handle).isSome ∧ ∀ bytes ∈ buffer, bytes.length = tree.valueSize
  | .overwriteAt handle .. => (tree.nodes.get? handle).isSome
  | .node handle => (tree.nodes.get? handle).isSome
  | .neighbor _ handle => (tree.nodes.get? handle).isSome
  | .extreme _ handle => (tree.nodes.get? handle).isSome
  | _ => True

/-- Carries out operations one after the other. -/
def runAll : List Operation → Tree → α → Except Fault (Tree × α)
  | [], tree, memory => return (tree, memory)
  | operation :: rest, tree, memory => do
    let (tree, memory) ← operation.run tree memory
    runAll rest tree memory

/-- Every operation of a run is permitted at the moment when it is carried out. -/
def AllPermitted : List Operation → Tree → α → Prop
  | [], _, _ => True
  | operation :: rest, tree, memory =>
    operation.Permitted tree ∧
      match operation.run tree memory with
      | .ok (tree, memory) => AllPermitted rest tree memory
      | .error _ => True

end Operation

/-- Trees that come out of a run of permitted operations, each in some memory. -/
inductive Reachable : Tree → Prop
  | create {keySize valueSize : Nat} {comparator : Comparator} {tree : Tree}
      (h : Tree.create keySize valueSize comparator = .ok tree) : Reachable tree
  | withCapacity {α : Type} [Allocator α] {memory memory' : α} {keySize valueSize capacity : Nat}
      {comparator : Comparator} {tree : Tree}
      (h : Tree.withCapacity keySize valueSize capacity comparator memory = (.ok tree, memory')) :
      Reachable tree
  | step {α : Type} [Allocator α] {memory memory' : α} {operation : Operation} {tree tree' : Tree}
      (hr : Reachable tree) (hp : operation.Permitted tree)
      (h : operation.run tree memory = .ok (tree', memory')) : Reachable tree'

variable {tree after : Tree} {s t : Shape} {vacant : List Handle} {x : Handle}
  {memory memory' : α} {operation : Operation}

/-! ### Single operations -/

/-- The entry at a place with its value written over. -/
theorem Sound.overwriteAt_of_place {path : List Frame} {c : Color} {e : Entry} {a b : Shape}
    (h : tree.Sound (plug path (branch .left c x e a b)) vacant) (bytes : Blob) (offset : Nat) :
    ∃ after, tree.overwriteAt x bytes offset = .ok after ∧
      after.Sound (plug path
        (branch .left c x { e with value := e.value.overwrite bytes offset } a b)) vacant ∧
      Relinked tree after := by
  let e' : Entry := { e with value := e.value.overwrite bytes offset }
  let change : Node → Node := fun node =>
    { node with entry.value := node.entry.value.overwrite bytes offset }
  have hchange : change (Node.branch .left c e (above path) a.root b.root) =
      Node.branch .left c e' (above path) a.root b.root := rfl
  have hk := Relinked.revise tree x change
  obtain ⟨n, hn, hfits⟩ := h.unplug
  have hrelabel : (branch .left c x e' a b).Balanced n := hn.relabel
  rw [color_branch] at hfits
  obtain ⟨hblack, hbalanced⟩ := hrelabel.plug hfits
  refine ⟨_, update_eq_revise change h.hasShape.get?_branch, ?_, hk⟩
  refine h.ofAkin hk.akin (h.hasShape.revise hchange) hblack hbalanced (h.wellFormed.kept hk.nodes)
    ?_ hk.nodes.slotSize ?_ ?_
  · rw [hk.nodes.live, h.live_eq, Shape.size, Shape.size, inorder_plug_branch, inorder_plug_branch]
    simp
  · intro d hd
    have hadmits := h.admits
    simp only [Shape.entries, inorder_plug_branch, List.map_append, List.map_cons, List.mem_append,
      List.mem_cons] at hd hadmits
    rcases hd with hd | rfl | hd
    · exact hadmits d (Or.inl hd)
    · obtain ⟨hkey, hvalue⟩ := hadmits e (Or.inr (Or.inl rfl))
      exact ⟨hkey, (Blob.length_overwrite _ _ _).trans hvalue⟩
    · exact hadmits d (Or.inr (Or.inr hd))
  · intro ho
    have hascending := h.ordered ho
    simp only [Shape.entries, inorder_plug_branch, List.map_append, List.map_cons] at hascending ⊢
    exact hascending.overwritten rfl

/-- A value written over in place. -/
theorem Sound.overwriteAt (h : tree.Sound s vacant) (hx : x ∈ s.handles) (bytes : Blob)
    (offset : Nat) :
    ∃ after t pre e post, tree.overwriteAt x bytes offset = .ok after ∧ after.Sound t vacant ∧
      Relinked tree after ∧ s.inorder = pre ++ (x, e) :: post ∧
      t.inorder = pre ++ (x, { e with value := e.value.overwrite bytes offset }) :: post := by
  obtain ⟨path, c, e, a, b, rfl⟩ := exists_plug_of_mem .left hx
  obtain ⟨after, heq, hafter, hk⟩ := h.overwriteAt_of_place bytes offset
  exact ⟨after, _, _, e, _, heq, hafter, hk, inorder_plug_branch .., inorder_plug_branch ..⟩

/-- A removal whose value goes to a buffer of the right length. -/
theorem Sound.removeAtInto (h : tree.Sound s vacant) (hx : x ∈ s.handles) (memory : α)
    {buffer : Blob} (hbuffer : buffer.length = tree.valueSize) :
    ∃ e next freed after t,
      tree.removeAtInto memory x buffer = .ok ((next, e.value), after, tree.releaseBlocks memory) ∧
      after.Sound t (freed :: vacant) ∧ Akin tree after ∧
      Removes x e s.inorder freed next t.inorder ∧
      after.nodes.capacity = tree.nodes.capacity := by
  obtain ⟨e, next, freed, after, t, heq, hafter, hk, hremoves, hcap⟩ := h.removeAt hx memory
  refine ⟨e, next, freed, after, t, ?_, hafter, hk, hremoves, hcap⟩
  have he : e.value.length = buffer.length := by
    rw [hbuffer]
    exact (h.admits e (List.mem_map.mpr ⟨(x, e), hremoves.mem, rfl⟩)).2
  rw [Tree.removeAtInto, heq]
  simp only [ok_bind, if_pos he, pure_eq_ok]

/-- How the vacant slots change: some are taken from the head of the chain, or one that was in use
goes there. -/
def Recycles (tree : Tree) (vacant rest : List Handle) : Prop :=
  rest <:+ vacant ∨ ∃ y, (tree.nodes.get? y).isSome ∧ rest = y :: vacant

theorem Recycles.refl (tree : Tree) (vacant : List Handle) : tree.Recycles vacant vacant :=
  Or.inl (List.suffix_refl vacant)

/-- The slot that a removal frees was in use. -/
theorem HasShape.recycles {e : Entry} {freed : Handle} {next : Option Handle}
    {later : List (Handle × Entry)} (h : tree.HasShape s) (vacant : List Handle)
    (hremoves : Removes x e s.inorder freed next later) :
    tree.Recycles vacant (freed :: vacant) :=
  Or.inr ⟨freed, h.mem_handles_iff.mp hremoves.freed_mem, rfl⟩

/-- A permitted operation on a sound tree ends without a fault and leaves a sound tree, with vacant
slots used or freed at the head of the chain. -/
theorem Sound.run (h : tree.Sound s vacant) (hp : operation.Permitted tree) (memory : α) :
    ∃ after memory' t rest, operation.run tree memory = .ok (after, memory') ∧
      after.Sound t rest ∧ tree.Recycles vacant rest := by
  have hlive : ∀ {x}, (tree.nodes.get? x).isSome → x ∈ s.handles :=
    fun hx => h.hasShape.mem_handles_iff.mpr hx
  have hsame : tree.Sound s vacant ∧ tree.Recycles vacant vacant := ⟨h, .refl tree vacant⟩
  cases operation with
  | insert key value =>
    rcases h.insert_cases memory key value with
      ⟨e, calls, heq, -⟩ | ⟨e, memory', calls, -, heq⟩ |
        ⟨path, x, capacity, memory', after, rest, calls, -, heq, -, hinserted⟩
    · exact ⟨tree, memory, s, vacant, by rw [Operation.run, heq]; rfl, hsame⟩
    · exact ⟨tree, memory', s, vacant, by rw [Operation.run, heq]; rfl, hsame⟩
    · exact ⟨after, memory', _, rest, by rw [Operation.run, heq]; rfl, hinserted.sound,
        Or.inl hinserted.suffix⟩
  | search key =>
    exact ⟨tree, memory, s, vacant, by rw [Operation.run, h.hasShape.search]; rfl, hsame⟩
  | remove key =>
    rw [Operation.run, h.hasShape.search, ok_bind]
    cases hfound : (locate tree.comparator.compare key [] s).2.root with
    | none => exact ⟨tree, memory, s, vacant, rfl, hsame⟩
    | some x =>
      obtain ⟨e, next, freed, after, t, heq, hafter, -, hremoves, -⟩ :=
        h.removeAt (root_locate_mem hfound) memory
      exact ⟨after, _, t, _, by dsimp only; rw [heq]; rfl, hafter,
        h.hasShape.recycles vacant hremoves⟩
  | removeAt x buffer =>
    obtain ⟨hx, hbuffer⟩ := hp
    cases buffer with
    | none =>
      obtain ⟨e, next, freed, after, t, heq, hafter, -, hremoves, -⟩ := h.removeAt (hlive hx) memory
      exact ⟨after, _, t, _, by rw [Operation.run, heq]; rfl, hafter,
        h.hasShape.recycles vacant hremoves⟩
    | some bytes =>
      obtain ⟨e, next, freed, after, t, heq, hafter, -, hremoves, -⟩ :=
        h.removeAtInto (hlive hx) memory (hbuffer bytes rfl)
      exact ⟨after, _, t, _, by rw [Operation.run, heq]; rfl, hafter,
        h.hasShape.recycles vacant hremoves⟩
  | overwriteAt x bytes offset =>
    obtain ⟨after, t, pre, e, post, heq, hafter, -⟩ := h.overwriteAt (hlive hp) bytes offset
    exact ⟨after, memory, t, vacant, by rw [Operation.run, heq]; rfl, hafter, .refl tree vacant⟩
  | node x =>
    obtain ⟨n, hn⟩ := Option.isSome_iff_exists.mp hp
    exact ⟨tree, memory, s, vacant, by rw [Operation.run, node_eq hn]; rfl, hsame⟩
  | neighbor side x =>
    obtain ⟨next, heq⟩ := h.hasShape.exists_neighbor (hlive hp) side
    exact ⟨tree, memory, s, vacant, by rw [Operation.run, heq]; rfl, hsame⟩
  | extreme side x =>
    obtain ⟨path, c, e, a, b, rfl⟩ := exists_plug_of_mem side (hlive hp)
    obtain ⟨y, heq, -⟩ := h.hasShape.extreme side root_branch
    exact ⟨tree, memory, _, vacant, by rw [Operation.run, heq]; rfl, hsame⟩
  | outermost side =>
    exact ⟨tree, memory, s, vacant, by rw [Operation.run, h.hasShape.outermost]; rfl, hsame⟩
  | height =>
    exact ⟨tree, memory, s, vacant, by rw [Operation.run, h.hasShape.height]; rfl, hsame⟩
  | entries =>
    exact ⟨tree, memory, s, vacant, by rw [Operation.run, h.hasShape.entries h.live_eq]; rfl,
      hsame⟩
  | clear => exact ⟨_, _, _, _, h.hasShape.clear memory, h.cleared, Or.inl List.nil_suffix⟩
  | clone =>
    rcases h.clone_cases memory with
      ⟨copy, memory', calls, heq, hfilled, -⟩ | ⟨cause, gs, rs, memory', calls, heq, -⟩
    · obtain ⟨t, rest, ht, -⟩ := hfilled.sound
      have hdispose := ht.hasShape.dispose memory'
      refine ⟨tree, copy.nodes.releaseTable (copy.releaseBlocks^[t.size] memory'), s, vacant, ?_,
        hsame⟩
      rw [Operation.run, heq, ok_bind]
      simp only [hdispose, ok_bind, pure_eq_ok]
    · exact ⟨tree, memory', s, vacant, by rw [Operation.run, heq]; rfl, hsame⟩
  | becomeClone =>
    rcases h.clone_cases memory with
      ⟨copy, memory', calls, heq, hfilled, -⟩ | ⟨cause, gs, rs, memory', calls, heq, -⟩
    · obtain ⟨t, rest, ht, hsize⟩ := hfilled.sound
      have hdispose := h.hasShape.dispose memory'
      -- The table of a copy has no slot that is not used.
      have hfull : copy.nodes.capacity ≤ copy.nodes.live := by
        rw [hfilled.capacity, ht.live_eq, hsize, ← h.live_eq]
        exact Nat.le_refl _
      obtain rfl : rest = [] := ht.wellFormed.vacant_eq_nil hfull
      refine ⟨copy, tree.nodes.releaseTable (tree.releaseBlocks^[s.size] memory'), t, [], ?_, ht,
        Or.inl List.nil_suffix⟩
      rw [Operation.run, heq, ok_bind]
      simp only [hdispose, ok_bind, pure_eq_ok]
    · exact ⟨tree, memory', s, vacant, by rw [Operation.run, heq]; rfl, hsame⟩

/-! ### Runs -/

/-- Every reachable tree is sound. -/
theorem Reachable.sound (h : Reachable tree) : ∃ s vacant, tree.Sound s vacant := by
  induction h with
  | create h => exact ⟨_, _, (Sound.ofCreate h).1⟩
  | withCapacity h => exact ⟨_, _, (Sound.ofWithCapacity h).1⟩
  | @step α _ memory memory' operation tree tree' hr hp heq ih =>
    obtain ⟨s, vacant, hs⟩ := ih
    obtain ⟨after, memory', t, rest, heq', ht, -⟩ := hs.run hp memory
    rw [heq] at heq'
    cases heq'
    exact ⟨t, rest, ht⟩

/-- A run of permitted operations on a reachable tree ends at a reachable tree. -/
theorem Operation.exists_runAll (operations : List Operation) (hr : Reachable tree) (memory : α)
    (hp : AllPermitted operations tree memory) :
    ∃ after memory', runAll operations tree memory = .ok (after, memory') ∧ Reachable after := by
  induction operations generalizing tree memory with
  | nil => exact ⟨tree, memory, rfl, hr⟩
  | cons operation rest ih =>
    obtain ⟨hpermitted, hrest⟩ := hp
    obtain ⟨s, vacant, hs⟩ := hr.sound
    obtain ⟨mid, m₁, t, vacant', heq, ht, -⟩ := hs.run hpermitted memory
    rw [heq] at hrest
    obtain ⟨after, memory', hrun, hafter⟩ := ih (.step hr hpermitted heq) m₁ hrest
    refine ⟨after, memory', ?_, hafter⟩
    rw [runAll, heq, ok_bind]
    exact hrun

/-- So many first operations of a permitted run are a permitted run. -/
theorem Operation.AllPermitted.take {operations : List Operation} {memory : α}
    (hp : AllPermitted operations tree memory) (k : Nat) :
    AllPermitted (operations.take k) tree memory := by
  induction operations generalizing tree memory k with
  | nil =>
    rw [List.take_nil]
    exact trivial
  | cons operation rest ih =>
    obtain _ | k := k
    · exact trivial
    · obtain ⟨hpermitted, hrest⟩ := hp
      refine ⟨hpermitted, ?_⟩
      cases hrun : operation.run tree memory with
      | error fault => exact trivial
      | ok after =>
        rw [hrun] at hrest
        exact ih hrest k

/-- A run of permitted operations on a reachable tree ends without a fault, whatever the comparator
answers and whatever the memory refuses, and so does the disposal of the tree that it leaves. -/
theorem Operation.runAll_ok (operations : List Operation) (hr : Reachable tree) (memory : α)
    (hp : AllPermitted operations tree memory) :
    ∃ after memory' last, runAll operations tree memory = .ok (after, memory') ∧
      after.dispose memory' = .ok last := by
  obtain ⟨after, memory', hrun, hafter⟩ := exists_runAll operations hr memory hp
  obtain ⟨s, vacant, hs⟩ := hafter.sound
  exact ⟨after, memory', _, hrun, hs.hasShape.dispose memory'⟩

/-- An empty tree of one-byte keys and values. -/
def sampleTree : Tree :=
  { nodes := Arena.empty Node.footprint, root := none, keyLayout := ⟨1, 8⟩, valueLayout := ⟨1, 8⟩,
    comparator := .lexicographic }

/-- Five insertions of which the last is refused a larger slot table, a removal at a handle, a
clone in the place of the rest and a search. -/
def sampleRun : List Operation :=
  [.insert [3] [0], .insert [1] [0], .insert [2] [0], .insert [4] [0], .insert [5] [0],
    .removeAt ⟨2, by decide⟩ (some [9]), .height, .becomeClone, .search [4]]

/-- A memory of so few bytes that a table of four slots fits, and one of eight does not. -/
def sampleMemory : Budget Heap :=
  .ofInner ⟨none⟩ 400

theorem sampleTree_reachable : Reachable sampleTree :=
  .create (show Tree.create 1 1 .lexicographic = .ok sampleTree from rfl)

theorem sampleRun_permitted : Operation.AllPermitted sampleRun sampleTree sampleMemory := by
  refine ⟨trivial, trivial, trivial, trivial, trivial, ⟨rfl, fun bytes hb => ?_⟩, trivial, trivial,
    trivial, trivial⟩
  cases hb
  rfl

/-- The tree that so many first operations of the sample run leave. -/
theorem exists_sampleRun_take (k : Nat) :
    ∃ after memory', Operation.runAll (sampleRun.take k) sampleTree sampleMemory =
      .ok (after, memory') ∧ Reachable after :=
  Operation.exists_runAll (sampleRun.take k) sampleTree_reachable sampleMemory
    (sampleRun_permitted.take k)

theorem Operation.runAll_ok_sample :
    AllPermitted sampleRun sampleTree sampleMemory ∧
      ∃ after memory' last, runAll sampleRun sampleTree sampleMemory = .ok (after, memory') ∧
        after.dispose memory' = .ok last :=
  ⟨sampleRun_permitted,
    runAll_ok sampleRun sampleTree_reachable sampleMemory sampleRun_permitted⟩

end Tree

end MeteredMap
