import MeteredMap.Proofs.Memory.Nested

/-!
# Recorded memories

A memory that writes down what passes: every request with its answer, and every release. What it
answers does not depend on what was written down, so that a run in a recorded memory is a run in the
memory itself, seen more closely. Of nested budgets the record shows that they are in step after
every single request and release.

## Main definitions

* `MeteredMap.Event`, `MeteredMap.Recorded` : requests and releases, and a memory with a record.
* `MeteredMap.Event.InStep`, `MeteredMap.Recorded.InStep` : nested budgets in step, at one moment
  and at every moment of a record.

## Main results

* `MeteredMap.Exchange.exists_traffic` : exchanges as traffic.
* `MeteredMap.Recorded.Keeps.traffic` : nested budgets stay in step all along traffic.
-/

namespace MeteredMap

/-! ### Records -/

/-- A request with its answer, or a release, with the memory before it. -/
inductive Event (α : Type) where
  | request (before : α) (layout : Layout) (reply : Reply α)
  | release (before : α) (layout : Layout) (after : α)

/-- A memory with what passed so far, the last event first. -/
structure Recorded (α : Type) where
  memory : α
  events : List (Event α)

variable {α : Type}

instance [Allocator α] : Allocator (Recorded α) where
  allocate recorded layout :=
    match Allocator.allocate recorded.memory layout with
    | .granted memory =>
      .granted ⟨memory, .request recorded.memory layout (.granted memory) :: recorded.events⟩
    | .refused memory =>
      .refused ⟨memory, .request recorded.memory layout (.refused memory) :: recorded.events⟩
  release recorded layout :=
    let memory := Allocator.release recorded.memory layout
    ⟨memory, .release recorded.memory layout memory :: recorded.events⟩
  canAllocate recorded layout := Allocator.canAllocate recorded.memory layout
  footprint := Allocator.footprint α

/-- A change of the limit is not written down. -/
instance [Metered α] : Metered (Recorded α) where
  usage? recorded := Metered.usage? recorded.memory
  setLimit recorded change := { recorded with memory := Metered.setLimit recorded.memory change }

/-! ### Traffic -/

section

variable [Allocator α] {memory after : α} {recorded recorded' : Recorded α}
  {gs rs held later : List Layout} {layout : Layout} {n : Nat}

theorem Recorded.allocate_of_granted
    (h : Allocator.allocate recorded.memory layout = .granted memory) :
    Allocator.allocate recorded layout =
      .granted ⟨memory, .request recorded.memory layout (.granted memory) :: recorded.events⟩ := by
  simp only [Allocator.allocate]
  rw [h]

theorem Recorded.allocate_of_refused
    (h : Allocator.allocate recorded.memory layout = .refused memory) :
    Allocator.allocate recorded layout =
      .refused ⟨memory, .request recorded.memory layout (.refused memory) :: recorded.events⟩ := by
  simp only [Allocator.allocate]
  rw [h]

/-- Traffic with a recorded memory is traffic with the memory. -/
theorem Traffic.unrecorded (h : Traffic recorded gs rs recorded') :
    Traffic recorded.memory gs rs recorded'.memory := by
  induction h with
  | refl recorded => exact .refl recorded.memory
  | @granted recorded middle recorded' layout gs rs hreply ht ih =>
    cases hmemory : Allocator.allocate recorded.memory layout with
    | granted memory =>
      rw [Recorded.allocate_of_granted hmemory] at hreply
      cases hreply
      exact .granted hmemory ih
    | refused memory =>
      rw [Recorded.allocate_of_refused hmemory] at hreply
      cases hreply
  | @refused recorded middle recorded' layout gs rs hreply ht ih =>
    cases hmemory : Allocator.allocate recorded.memory layout with
    | granted memory =>
      rw [Recorded.allocate_of_granted hmemory] at hreply
      cases hreply
    | refused memory =>
      rw [Recorded.allocate_of_refused hmemory] at hreply
      cases hreply
      exact .refused hmemory ih
  | released ht ih => exact .released ih

/-- An exchange is traffic that grants what is held later and was not held before, and takes back
what was held before and is not held later. -/
theorem Exchange.exists_traffic (h : Exchange memory held n after later) :
    ∃ gs rs, Traffic memory gs rs after ∧ (gs ++ held).Perm (rs ++ later) := by
  induction h with
  | @granted memory after gs held hg hpos => exact ⟨gs, [], hg.traffic, .refl _⟩
  | released memory rs held => exact ⟨[], rs, .ofReleases memory rs, .refl _⟩
  | @undone memory after gs rs held hperm ht => exact ⟨gs, rs, ht, hperm.append_right held⟩
  | perm memory h => exact ⟨[], [], .refl memory, h⟩
  | @trans memory middle after held between later n k h h' ih ih' =>
    obtain ⟨gs, rs, ht, hperm⟩ := ih
    obtain ⟨gs', rs', ht', hperm'⟩ := ih'
    refine ⟨gs ++ gs', rs ++ rs', ht.trans ht', ?_⟩
    rw [List.append_assoc, List.append_assoc]
    calc gs ++ (gs' ++ held)
      _ |>.Perm (gs' ++ (gs ++ held)) := List.perm_append_comm_assoc _ _ _
      _ |>.Perm (gs' ++ (rs ++ between)) := hperm.append_left gs'
      _ |>.Perm (rs ++ (gs' ++ between)) := List.perm_append_comm_assoc _ _ _
      _ |>.Perm (rs ++ (rs' ++ later)) := hperm'.append_left rs

end

/-! ### Nested budgets -/

variable {β : Type} [Allocator β]

/-- Nested budgets are in step after the event, and a request was granted exactly if it fitted
both. -/
def Event.InStep (innerLimit : UInt64) : Event (Budget (Budget β)) → Prop
  | .request before layout reply =>
    ((∃ after, reply = .granted after) ↔ before.FitsBoth layout.size) ∧
      reply.memory.InStep innerLimit
  | .release _ _ after => after.InStep innerLimit

namespace Recorded

variable {recorded recorded' : Recorded (Budget (Budget β))} {gs rs held later : List Layout}
  {layout : Layout} {n : Nat} {innerLimit : UInt64}

/-- Nested budgets over a generous memory are in step, now and after every event so far. -/
structure InStep (recorded : Recorded (Budget (Budget β))) (innerLimit : UInt64) : Prop where
  generous : Allocator.Generous recorded.memory.inner.inner
  now : recorded.memory.InStep innerLimit
  events : ∀ event ∈ recorded.events, event.InStep innerLimit

/-- Nested budgets that stay in step through one more event. -/
private theorem InStep.cons (h : recorded.InStep innerLimit) {memory : Budget (Budget β)}
    {event : Event (Budget (Budget β))} (hg : Allocator.Generous memory.inner.inner)
    (hnow : memory.InStep innerLimit) (hevent : event.InStep innerLimit) :
    InStep ⟨memory, event :: recorded.events⟩ innerLimit := by
  refine ⟨hg, hnow, fun e he => ?_⟩
  rcases List.mem_cons.mp he with rfl | he
  · exact hevent
  · exact h.events e he

/-- A request is granted if it fits both budgets. -/
theorem InStep.granted (h : recorded.InStep innerLimit)
    (hfits : recorded.memory.FitsBoth layout.size) :
    ∃ recorded', Allocator.allocate recorded layout = .granted recorded' ∧
      recorded'.InStep innerLimit ∧ recorded'.memory.inUse.toNat =
        recorded.memory.inUse.toNat + layout.size := by
  obtain ⟨backing, heq, hbacking⟩ := Budget.allocate_of_fitsBoth h.generous hfits
  have hnow := h.now.charge hfits backing
  exact ⟨_, allocate_of_granted heq,
    h.cons hbacking hnow ⟨⟨fun _ => hfits, fun _ => ⟨_, rfl⟩⟩, hnow⟩,
    Budget.toNat_inUse_charge hfits.1 _⟩

/-- A request that does not fit both budgets is refused and leaves them as they are. -/
theorem InStep.refused (h : recorded.InStep innerLimit)
    (hfits : ¬ recorded.memory.FitsBoth layout.size) :
    ∃ recorded', Allocator.allocate recorded layout = .refused recorded' ∧
      recorded'.InStep innerLimit ∧ recorded'.memory = recorded.memory := by
  have hevent :
      (Event.request recorded.memory layout (.refused recorded.memory)).InStep innerLimit :=
    ⟨⟨fun hyes => absurd hyes (by rintro ⟨_, ⟨⟩⟩), fun hyes => absurd hyes hfits⟩, h.now⟩
  exact ⟨_, allocate_of_refused (Budget.allocate_of_not_fitsBoth hfits),
    h.cons h.generous h.now hevent, rfl⟩

/-- A block in use goes back. -/
theorem InStep.release (h : recorded.InStep innerLimit)
    (hle : layout.size ≤ recorded.memory.inUse.toNat) :
    (Allocator.release recorded layout).InStep innerLimit ∧
      (Allocator.release recorded layout).memory.inUse.toNat + layout.size =
        recorded.memory.inUse.toNat := by
  have hnow := h.now.release hle
  obtain ⟨kept, hkept, hallocate, hrelease⟩ := h.generous
  refine ⟨h.cons ⟨kept, hrelease _ layout hkept, hallocate, hrelease⟩ hnow hnow, ?_⟩
  have hinUse := Budget.toNat_inUse_refund hle (Allocator.release recorded.memory.inner layout)
  show (recorded.memory.refund (Allocator.release recorded.memory.inner layout)
    layout.size).inUse.toNat + layout.size = recorded.memory.inUse.toNat
  omega

/-- Nested budgets stay in step all along traffic in which no more goes back than was in use or is
granted. -/
theorem InStep.traffic (h : recorded.InStep innerLimit) (ht : Traffic recorded gs rs recorded')
    (hle : (rs.map Layout.size).sum ≤
      recorded.memory.inUse.toNat + (gs.map Layout.size).sum) :
    recorded'.InStep innerLimit ∧ recorded'.memory.inUse.toNat + (rs.map Layout.size).sum =
      recorded.memory.inUse.toNat + (gs.map Layout.size).sum := by
  induction ht with
  | refl recorded => exact ⟨h, rfl⟩
  | @granted recorded middle recorded' layout gs rs hreply ht ih =>
    by_cases hfits : recorded.memory.FitsBoth layout.size
    · obtain ⟨_, heq, hmiddle, hinUse⟩ := h.granted hfits
      rw [hreply] at heq
      cases heq
      rw [List.map_cons, List.sum_cons] at hle ⊢
      obtain ⟨hlast, hsum⟩ := ih hmiddle (by omega)
      exact ⟨hlast, by omega⟩
    · obtain ⟨_, heq, -⟩ := h.refused hfits
      rw [hreply] at heq
      cases heq
  | @refused recorded middle recorded' layout gs rs hreply ht ih =>
    by_cases hfits : recorded.memory.FitsBoth layout.size
    · obtain ⟨_, heq, -⟩ := h.granted hfits
      rw [hreply] at heq
      cases heq
    · obtain ⟨_, heq, hmiddle, hsame⟩ := h.refused hfits
      rw [hreply] at heq
      cases heq
      rw [← hsame] at hle ⊢
      exact ih hmiddle hle
  | @released recorded recorded' layout gs rs ht ih =>
    rw [List.map_cons, List.sum_cons] at hle ⊢
    -- The rest of the traffic only adds up if the block was in use.
    have hused : layout.size ≤ recorded.memory.inUse.toNat :=
      Budget.le_inUse_of_traffic ht.unrecorded hle
    obtain ⟨hmiddle, hinUse⟩ := h.release hused
    obtain ⟨hlast, hsum⟩ := ih hmiddle (by omega)
    exact ⟨hlast, by omega⟩

theorem InStep.setLimit (h : recorded.InStep innerLimit) (change : LimitChange) :
    InStep ⟨recorded.memory.setLimit change, recorded.events⟩ innerLimit := by
  refine ⟨?_, h.now.setLimit change, h.events⟩
  cases change <;> exact h.generous

/-! ### Blocks held -/

/-- Nested budgets in step, with so many bytes in use as the blocks held have. -/
structure Keeps (recorded : Recorded (Budget (Budget β))) (innerLimit : UInt64)
    (held : List Layout) : Prop where
  inStep : recorded.InStep innerLimit
  inUse : recorded.memory.inUse.toNat = (held.map Layout.size).sum

theorem Keeps.traffic (h : recorded.Keeps innerLimit held) (ht : Traffic recorded gs rs recorded')
    (hperm : (gs ++ held).Perm (rs ++ later)) : recorded'.Keeps innerLimit later := by
  have hsum := (hperm.map Layout.size).sum_nat
  rw [List.map_append, List.sum_append, List.map_append, List.sum_append, ← h.inUse] at hsum
  obtain ⟨hinStep, hinUse⟩ := h.inStep.traffic ht (by omega)
  exact ⟨hinStep, by omega⟩

theorem Keeps.exchange (h : recorded.Keeps innerLimit held)
    (he : Exchange recorded held n recorded' later) : recorded'.Keeps innerLimit later := by
  obtain ⟨gs, rs, ht, hperm⟩ := he.exists_traffic
  exact h.traffic ht hperm

theorem Keeps.setLimit (h : recorded.Keeps innerLimit held) (change : LimitChange) :
    Keeps ⟨recorded.memory.setLimit change, recorded.events⟩ innerLimit held := by
  refine ⟨h.inStep.setLimit change, ?_⟩
  cases change <;> exact h.inUse

end Recorded

end MeteredMap
