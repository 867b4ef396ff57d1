import MeteredMap.Proofs.Memory.Recorded
import MeteredMap.Proofs.Tree.Translation

/-!
# Requests in a record

What a recorded memory was asked for, and what of it was granted, in order. A run in a recorded
memory is a run in the memory itself, so that the record tells which requests an operation makes,
those that are refused included.

## Main definitions

* `MeteredMap.Recorded.requests`, `MeteredMap.Recorded.granted` : the blocks asked for and the
  blocks granted.

## Main results

* `MeteredMap.Recorded.translation` : a record changes nothing.
* `MeteredMap.Grants.lists_eq`, `MeteredMap.Recorded.lists_of_releases` : the record of requests
  that are granted one after the other, and of blocks that go back.
* `MeteredMap.Allocator.Translation.grantedBefore` : how many requests are granted does not depend
  on a record.
-/

namespace MeteredMap

variable {α β : Type}

/-- The block that was asked for, if the event is a request. -/
def Event.requested? : Event α → Option Layout
  | request _ layout _ => some layout
  | release .. => none

/-- The block that was granted, if the event is a request that was. -/
def Event.granted? : Event α → Option Layout
  | request _ layout (.granted _) => some layout
  | request _ _ (.refused _) => none
  | release .. => none

namespace Recorded

/-- The blocks that were asked for, the first one first. -/
def requests (recorded : Recorded α) : List Layout :=
  recorded.events.reverse.filterMap Event.requested?

/-- The blocks that were granted, the first one first. -/
def granted (recorded : Recorded α) : List Layout :=
  recorded.events.reverse.filterMap Event.granted?

/-- What a recorded memory answers does not depend on its record. -/
theorem translation [Metered α] :
    Metered.Translation (Recorded.memory : Recorded α → α) where
  allocate recorded layout := by
    cases hreply : Allocator.allocate recorded.memory layout with
    | granted memory =>
      rw [allocate_of_granted hreply]
      rfl
    | refused memory =>
      rw [allocate_of_refused hreply]
      rfl
  release _ _ := rfl
  canAllocate _ _ := rfl
  footprint := rfl
  usage? _ := rfl
  setLimit _ _ := rfl

variable [Allocator α] {recorded middle : Recorded α} {layout : Layout}

/-- A request that is granted is the last one in the record. -/
theorem lists_of_granted (h : Allocator.allocate recorded layout = .granted middle) :
    middle.requests = recorded.requests ++ [layout] ∧
      middle.granted = recorded.granted ++ [layout] := by
  cases hreply : Allocator.allocate recorded.memory layout with
  | granted memory =>
    rw [allocate_of_granted hreply] at h
    cases h
    simp [requests, granted, Event.requested?, Event.granted?]
  | refused memory =>
    rw [allocate_of_refused hreply] at h
    cases h

/-- A request that is refused is the last one in the record, and is not among those granted. -/
theorem lists_of_refused (h : Allocator.allocate recorded layout = .refused middle) :
    middle.requests = recorded.requests ++ [layout] ∧ middle.granted = recorded.granted := by
  cases hreply : Allocator.allocate recorded.memory layout with
  | granted memory =>
    rw [allocate_of_granted hreply] at h
    cases h
  | refused memory =>
    rw [allocate_of_refused hreply] at h
    cases h
    simp [requests, granted, Event.requested?, Event.granted?]

/-- Nothing is asked for where blocks go back. -/
theorem lists_of_releases (recorded : Recorded α) (rs : List Layout) :
    (rs.foldl Allocator.release recorded).requests = recorded.requests ∧
      (rs.foldl Allocator.release recorded).granted = recorded.granted := by
  induction rs generalizing recorded with
  | nil => exact ⟨rfl, rfl⟩
  | cons layout rs ih =>
    obtain ⟨hrequests, hgranted⟩ := ih (Allocator.release recorded layout)
    rw [List.foldl_cons, hrequests, hgranted]
    simp [requests, granted, Allocator.release, Event.requested?, Event.granted?]

end Recorded

/-- Requests that are granted one after the other are in the record. -/
theorem Grants.lists_eq [Allocator α] {recorded recorded' : Recorded α} {gs : List Layout}
    (h : Grants recorded gs recorded') :
    recorded'.requests = recorded.requests ++ gs ∧ recorded'.granted = recorded.granted ++ gs := by
  induction h with
  | nil recorded => exact ⟨(List.append_nil _).symm, (List.append_nil _).symm⟩
  | cons hreply hg ih =>
    obtain ⟨hrequests, hgranted⟩ := Recorded.lists_of_granted hreply
    rw [hrequests, hgranted, List.append_assoc, List.append_assoc] at ih
    exact ih

/-- A translation of memories that answer the same does not change how many requests are granted. -/
theorem Allocator.Translation.grantedBefore [Allocator α] [Allocator β] {f : α → β}
    (h : Allocator.Translation f) (requests : List Layout) (memory : α) :
    Allocator.grantedBefore requests (f memory) = Allocator.grantedBefore requests memory := by
  induction requests generalizing memory with
  | nil => rfl
  | cons layout requests ih =>
    rw [Allocator.grantedBefore, Allocator.grantedBefore, h.allocate]
    cases Allocator.allocate memory layout with
    | granted middle => exact congrArg (· + 1) (ih middle)
    | refused middle => rfl

end MeteredMap
