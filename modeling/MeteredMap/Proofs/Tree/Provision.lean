import MeteredMap.Proofs.Memory.Traffic
import MeteredMap.Proofs.Tree.Sound
import MeteredMap.Tree.Insert
import MeteredMap.Tree.Remove

/-!
# What an insertion asks its memory for

An insertion makes all of its requests before it changes a link: for a key block, for a value block
and, if the slot table is full, for a larger table. If one is refused, the blocks granted before it
go back, and nothing of the tree has changed.

## Main definitions

* `MeteredMap.Tree.insertRequests` : the requests of an insertion, in order.
* `MeteredMap.Tree.provision` : the requests made, with what goes back if one is refused.

## Main results

* `MeteredMap.Tree.link_eq` : linking a leaf is provision, then a change of links.
* `MeteredMap.Tree.grants_of_provision_eq_ok`, `MeteredMap.Tree.cases_of_provision_eq_error` : how a
  provision came to succeed or to fail.
* `MeteredMap.Tree.traffic_of_provision_error` : the traffic of a provision that fails.
* `MeteredMap.Tree.provision_of_hasRoom` : provision where a slot is at hand.
-/

namespace MeteredMap

namespace Arena

variable {ε α : Type} [Allocator α] {arena : Arena ε}

/-- The requests of a reservation: a larger table if the one there is full and a larger one can be
laid out. -/
def growthRequests (arena : Arena ε) : List Layout :=
  if arena.free.isSome ∨ Handle.maxIndex < arena.slots.size ∨ arena.slots.size < arena.capacity then
    []
  else
    (Layout.table? (grownCapacity arena.slotSize arena.capacity * arena.slotSize)).toList

theorem growthRequests_of_hasRoom (h : arena.HasRoom) : arena.growthRequests = [] := by
  refine if_pos ?_
  rcases h with h | ⟨-, h⟩
  · exact Or.inl h
  · exact Or.inr (Or.inr h)

theorem growthRequests_of_full (hfree : arena.free = none)
    (hmax : arena.slots.size ≤ Handle.maxIndex) (hcap : arena.capacity ≤ arena.slots.size) :
    arena.growthRequests =
      (Layout.table? (grownCapacity arena.slotSize arena.capacity * arena.slotSize)).toList := by
  refine if_neg ?_
  simp only [hfree, Option.isSome_none, Bool.false_eq_true, false_or, not_or]
  omega

/-- There are too few handles for a table of nodes that cannot be laid out. -/
theorem exists_table_of_full (hmax : arena.slots.size ≤ Handle.maxIndex)
    (hcap : arena.capacity ≤ arena.slots.size) (hslot : arena.slotSize = Node.footprint) :
    ∃ layout, Layout.table? (grownCapacity arena.slotSize arena.capacity * arena.slotSize) =
      some layout := by
  have hleast : leastCapacity Node.footprint = 4 := rfl
  refine ⟨_, Layout.table?_eq_some_iff.mpr ⟨?_, rfl⟩⟩
  rw [hslot, grownCapacity, hleast]
  simp only [Node.footprint, Handle.maxIndex, Layout.bound] at hmax ⊢
  omega

/-- A reservation fails if its request is refused or the handles are used up, and for no other
reason. -/
theorem WellFormed.reserve_answer {vacant : List Handle} (h : arena.WellFormed vacant)
    (hslot : arena.slotSize = Node.footprint) (memory : α) :
    (arena.reserve memory).answer =
      if Allocator.grantedBefore arena.growthRequests memory < arena.growthRequests.length then
        .error .noMemory
      else if Handle.maxIndex < arena.live then .error .overflow
      else .ok () := by
  rcases reserve_cases arena memory with
    ⟨hroom, heq⟩ | ⟨⟨hfree, hmax⟩, heq⟩ | ⟨⟨hfree, hmax, hcap⟩, heq⟩
  · have hlive : ¬ Handle.maxIndex < arena.live := Nat.not_lt.mpr (h.live_le_of_hasRoom hroom)
    rw [heq, growthRequests_of_hasRoom hroom]
    exact ((if_neg (Nat.lt_irrefl 0)).trans (if_neg hlive)).symm
  · have hnone : arena.growthRequests = [] := if_pos (Or.inr (Or.inl hmax))
    have hlive : Handle.maxIndex < arena.live := by rwa [h.live_eq_size hfree]
    rw [heq, hnone]
    exact ((if_neg (Nat.lt_irrefl 0)).trans (if_pos hlive)).symm
  · obtain ⟨layout, htable⟩ := exists_table_of_full hmax hcap hslot
    have hrequests : arena.growthRequests = [layout] := by
      rw [growthRequests_of_full hfree hmax hcap, htable]
      rfl
    have hlive : ¬ Handle.maxIndex < arena.live := by
      rw [h.live_eq_size hfree]
      omega
    rw [heq, hrequests, grow]
    simp only [htable]
    cases hreply : Allocator.allocate memory layout with
    | refused memory' => simp [Allocator.grantedBefore, hreply]
    | granted memory' => simp [Allocator.grantedBefore, hreply, hlive]

/-- A reservation that fails is refused its only request, or makes none. -/
theorem reserve_error {memory : α} {e : MapError} {after : Arena ε} {memory' : α}
    (h : arena.reserve memory = ⟨.error e, after, memory'⟩) :
    Traffic memory [] [] memory' ∧ Allocator.grantedBefore arena.growthRequests memory = 0 ∧
      (e = .noMemory ∨ e = .overflow ∧ Handle.maxIndex < arena.slots.size) := by
  rcases reserve_cases arena memory with
    ⟨-, heq⟩ | ⟨⟨hfree, hmax⟩, heq⟩ | ⟨⟨hfree, hmax, hcap⟩, heq⟩
  · rw [heq] at h
    cases h
  · rw [heq] at h
    cases h
    rw [growthRequests, if_pos (Or.inr (Or.inl hmax))]
    exact ⟨.refl memory, rfl, Or.inr ⟨rfl, hmax⟩⟩
  · rw [growthRequests_of_full hfree hmax hcap]
    rw [heq, grow] at h
    split at h
    · next hnone =>
      cases h
      rw [hnone]
      exact ⟨.refl memory, rfl, Or.inl rfl⟩
    · next layout hsome =>
      split at h
      · next hrefused =>
        cases h
        rw [hsome]
        exact ⟨.refused hrefused (.refl _), grantedBefore_of_refused hrefused [], Or.inl rfl⟩
      · cases h

end Arena

namespace Tree

variable {α : Type} [Allocator α] {tree : Tree} {memory memory' : α} {s : Shape}
  {vacant : List Handle} {nodes : Arena Node} {cause : MapError}

/-- The requests of an insertion, in order. -/
def insertRequests (tree : Tree) : List Layout :=
  tree.keyLayout :: tree.valueLayout :: tree.nodes.growthRequests

/-- Everything that an insertion asks its memory for: a key block, a value block and room for the
node. If one is refused, those before it go back. -/
def provision (tree : Tree) (memory : α) : Outcome (Arena Node) α (Except MapError Unit) :=
  match Allocator.allocate memory tree.keyLayout with
  | .refused memory => ⟨.error .noMemory, tree.nodes, memory⟩
  | .granted memory =>
    match Allocator.allocate memory tree.valueLayout with
    | .refused memory => ⟨.error .noMemory, tree.nodes, Allocator.release memory tree.keyLayout⟩
    | .granted memory =>
      match tree.nodes.reserve memory with
      | ⟨.error e, nodes, memory⟩ => ⟨.error e, nodes, tree.releaseBlocks memory⟩
      | ⟨.ok (), nodes, memory⟩ => ⟨.ok (), nodes, memory⟩

/-- Why there is no room for one more entry, if there is none: the memory refuses a request of an
insertion, or the handles are used up. -/
def refusal (tree : Tree) (memory : α) : Option MapError :=
  if Allocator.grantedBefore tree.insertRequests memory < tree.insertRequests.length then
    some .noMemory
  else if Handle.maxIndex < tree.size then some .overflow
  else none

/-- Linking a leaf is provision, then a change of links. -/
theorem link_eq (tree : Tree) (memory : α) (entry : Entry) (arrival : Arrival) :
    tree.link memory entry arrival =
      match tree.provision memory with
      | ⟨.error e, nodes, memory⟩ => .ok ⟨.error e, { tree with nodes }, memory⟩
      | ⟨.ok (), nodes, memory⟩ => do
        let (handle, nodes, memory) ← nodes.insert memory (Node.leaf entry arrival.parent?)
        let tree ← attach { tree with nodes } arrival handle
        return ⟨.ok handle, tree, memory⟩ := by
  unfold link provision
  cases Allocator.allocate memory tree.keyLayout with
  | refused memory => rfl
  | granted memory =>
    cases hvalue : Allocator.allocate memory tree.valueLayout with
    | refused memory => simp only [hvalue]; rfl
    | granted memory =>
      simp only [hvalue]
      rcases tree.nodes.reserve memory with ⟨_ | _, nodes, memory⟩ <;> rfl

/-- How a provision came to succeed: both blocks were granted, and room was reserved. -/
theorem grants_of_provision_eq_ok (h : tree.provision memory = ⟨.ok (), nodes, memory'⟩) :
    ∃ middle, Grants memory [tree.keyLayout, tree.valueLayout] middle ∧
      tree.nodes.reserve middle = ⟨.ok (), nodes, memory'⟩ := by
  unfold provision at h
  split at h
  · cases h
  · next m₁ hkey =>
    split at h
    · cases h
    · next m₂ hvalue =>
      split at h
      · cases h
      · next hreserve =>
        cases h
        exact ⟨m₂, .cons hkey (.cons hvalue (.nil m₂)), hreserve⟩

/-- How a provision came to fail: a block was refused, or both were granted and the reservation
failed. What was granted went back. -/
theorem cases_of_provision_eq_error (h : tree.provision memory = ⟨.error cause, nodes, memory'⟩) :
    (cause = .noMemory ∧ Allocator.allocate memory tree.keyLayout = .refused memory') ∨
      (∃ m₁ m₂, cause = .noMemory ∧ Allocator.allocate memory tree.keyLayout = .granted m₁ ∧
        Allocator.allocate m₁ tree.valueLayout = .refused m₂ ∧
        memory' = Allocator.release m₂ tree.keyLayout) ∨
      ∃ m₁ m₂ m₃, Allocator.allocate memory tree.keyLayout = .granted m₁ ∧
        Allocator.allocate m₁ tree.valueLayout = .granted m₂ ∧
        tree.nodes.reserve m₂ = ⟨.error cause, nodes, m₃⟩ ∧ memory' = tree.releaseBlocks m₃ := by
  unfold provision at h
  split at h
  · next hkey =>
    cases h
    exact Or.inl ⟨rfl, hkey⟩
  · next m₁ hkey =>
    split at h
    · next m₂ hvalue =>
      cases h
      exact Or.inr (Or.inl ⟨m₁, m₂, rfl, hkey, hvalue, rfl⟩)
    · next m₂ hvalue =>
      split at h
      · next m₃ hreserve =>
        cases h
        exact Or.inr (Or.inr ⟨m₁, m₂, m₃, hkey, hvalue, hreserve, rfl⟩)
      · cases h

/-- Provision fails and leaves the slot table as it is, or makes room by its capacity alone. -/
theorem Sound.provision (h : tree.Sound s vacant) (memory : α) :
    (∃ e memory', tree.provision memory = ⟨.error e, tree.nodes, memory'⟩) ∨
      ∃ capacity memory', tree.provision memory = ⟨.ok (), { tree.nodes with capacity }, memory'⟩ ∧
        tree.nodes.capacity ≤ capacity ∧ Arena.HasRoom { tree.nodes with capacity } := by
  unfold Tree.provision
  cases Allocator.allocate memory tree.keyLayout with
  | refused memory => exact Or.inl ⟨_, _, rfl⟩
  | granted memory =>
    dsimp only
    cases Allocator.allocate memory tree.valueLayout with
    | refused memory => exact Or.inl ⟨_, _, rfl⟩
    | granted memory =>
      dsimp only
      rcases h.wellFormed.reserve memory with
        ⟨e, memory', heq⟩ | ⟨capacity, memory', heq, hle, hroom⟩
      · rw [heq]
        exact Or.inl ⟨_, _, rfl⟩
      · rw [heq]
        exact Or.inr ⟨capacity, memory', rfl, hle, hroom⟩

/-- Provision fails where there is a reason to, and nowhere else. -/
private theorem Sound.provision_answer (h : tree.Sound s vacant) (memory : α) :
    (tree.provision memory).answer =
      match tree.refusal memory with
      | some e => .error e
      | none => .ok () := by
  rw [Tree.provision, refusal, insertRequests]
  cases hkey : Allocator.allocate memory tree.keyLayout with
  | refused m₁ => simp [Allocator.grantedBefore, hkey]
  | granted m₁ =>
    cases hvalue : Allocator.allocate m₁ tree.valueLayout with
    | refused m₂ => simp [Allocator.grantedBefore, hkey, hvalue]
    | granted m₂ =>
      have hreserve : (tree.nodes.reserve m₂).answer =
          if Allocator.grantedBefore tree.nodes.growthRequests m₂ <
              tree.nodes.growthRequests.length then .error .noMemory
          else if Handle.maxIndex < tree.size then .error .overflow
          else .ok () := h.wellFormed.reserve_answer h.slotSize m₂
      have hcount : Allocator.grantedBefore
          (tree.keyLayout :: tree.valueLayout :: tree.nodes.growthRequests) memory =
            Allocator.grantedBefore tree.nodes.growthRequests m₂ + 2 := by
        simp only [Allocator.grantedBefore, hkey, hvalue]
      simp only [hcount, hvalue, List.length_cons, Nat.add_lt_add_iff_right]
      rcases houtcome : tree.nodes.reserve m₂ with ⟨answer, nodes, m₃⟩
      rw [houtcome] at hreserve
      dsimp only at hreserve
      subst hreserve
      split_ifs <;> rfl

/-- The handles are used up only where every one of them is in use. -/
theorem lt_size_of_refusal (h : tree.refusal memory = some .overflow) :
    Handle.maxIndex < tree.size := by
  unfold refusal at h
  split at h
  · cases h
  · split at h
    · assumption
    · cases h

/-- Where no memory refuses, only the size matters. -/
theorem refusal_eq_of_size_eq {β : Type} [Allocator β] {tree' : Tree} (h : tree'.size = tree.size)
    (memory : α) (other : β) :
    tree.refusal memory = some .noMemory ∨ tree'.refusal other = some .noMemory ∨
      tree'.refusal other = tree.refusal memory := by
  unfold refusal
  rw [h]
  split_ifs <;> simp

theorem Sound.refusal_of_provision_error (h : tree.Sound s vacant)
    (hprovision : tree.provision memory = ⟨.error cause, nodes, memory'⟩) :
    tree.refusal memory = some cause := by
  have hanswer := h.provision_answer memory
  rw [hprovision] at hanswer
  cases hrefusal : tree.refusal memory with
  | none =>
    rw [hrefusal] at hanswer
    cases hanswer
  | some e =>
    rw [hrefusal] at hanswer
    cases hanswer
    rfl

theorem Sound.refusal_of_provision_ok (h : tree.Sound s vacant)
    (hprovision : tree.provision memory = ⟨.ok (), nodes, memory'⟩) :
    tree.refusal memory = none := by
  have hanswer := h.provision_answer memory
  rw [hprovision] at hanswer
  cases hrefusal : tree.refusal memory with
  | none => rfl
  | some e =>
    rw [hrefusal] at hanswer
    cases hanswer

/-- The traffic of a provision that fails: what was granted goes back, and what was granted are the
requests before the first that is refused. Only for want of a handle it fails without a refusal. -/
theorem traffic_of_provision_error
    (h : tree.provision memory = ⟨.error cause, nodes, memory'⟩) :
    ∃ gs rs, gs.Perm rs ∧ Traffic memory gs rs memory' ∧
      (cause = .noMemory ∧ gs.length = Allocator.grantedBefore tree.insertRequests memory ∨
        cause = .overflow ∧ Handle.maxIndex < tree.nodes.slots.size ∧ gs.length = 2) := by
  rcases cases_of_provision_eq_error h with
    ⟨rfl, hkey⟩ | ⟨m₁, m₂, rfl, hkey, hvalue, rfl⟩ | ⟨m₁, m₂, m₃, hkey, hvalue, hreserve, rfl⟩
  · refine ⟨[], [], .refl [], .refused hkey (.refl _), Or.inl ⟨rfl, ?_⟩⟩
    rw [insertRequests, grantedBefore_of_refused hkey]
    rfl
  · refine ⟨[tree.keyLayout], [tree.keyLayout], .refl _,
      .granted hkey (.refused hvalue (.released (.refl _))), Or.inl ⟨rfl, ?_⟩⟩
    rw [insertRequests, Allocator.grantedBefore, hkey]
    dsimp only
    rw [grantedBefore_of_refused hvalue]
    rfl
  · have hgrants : Grants memory [tree.keyLayout, tree.valueLayout] m₂ :=
      .cons hkey (.cons hvalue (.nil m₂))
    obtain ⟨htraffic, hcount, hcause⟩ := Arena.reserve_error hreserve
    refine ⟨[tree.keyLayout, tree.valueLayout], [tree.keyLayout, tree.valueLayout], .refl _,
      hgrants.traffic.trans (htraffic.trans (.released (.released (.refl _)))), ?_⟩
    rcases hcause with rfl | ⟨rfl, hmax⟩
    · refine Or.inl ⟨rfl, ?_⟩
      have happend := hgrants.grantedBefore_append tree.nodes.growthRequests
      rw [hcount] at happend
      exact happend.symm
    · exact Or.inr ⟨rfl, hmax, rfl⟩

theorem insertRequests_of_hasRoom (h : tree.nodes.HasRoom) :
    tree.insertRequests = [tree.keyLayout, tree.valueLayout] := by
  rw [insertRequests, Arena.growthRequests_of_hasRoom h]

/-- Where a slot is at hand, provision asks for the two blocks only. -/
theorem provision_of_hasRoom (h : tree.nodes.HasRoom) (memory : α) :
    (∃ memory', Grants memory [tree.keyLayout, tree.valueLayout] memory' ∧
        tree.provision memory = ⟨.ok (), tree.nodes, memory'⟩) ∨
      ∃ nodes memory', tree.provision memory = ⟨.error .noMemory, nodes, memory'⟩ ∧
        Allocator.grantedBefore [tree.keyLayout, tree.valueLayout] memory < 2 := by
  unfold provision
  cases hkey : Allocator.allocate memory tree.keyLayout with
  | refused m₁ => exact Or.inr ⟨_, _, rfl, by simp [Allocator.grantedBefore, hkey]⟩
  | granted m₁ =>
    dsimp only
    cases hvalue : Allocator.allocate m₁ tree.valueLayout with
    | refused m₂ => exact Or.inr ⟨_, _, rfl, by simp [Allocator.grantedBefore, hkey, hvalue]⟩
    | granted m₂ =>
      refine Or.inl ⟨m₂, .cons hkey (.cons hvalue (.nil m₂)), ?_⟩
      dsimp only
      rw [Arena.reserve_eq_of_hasRoom h]

end Tree

end MeteredMap
