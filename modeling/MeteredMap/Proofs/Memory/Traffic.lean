import Mathlib.Algebra.GroupWithZero.Nat
import MeteredMap.Memory.Budget

/-!
# Traffic with a memory

What passes between a map and its memory in the course of an operation: the requests that were
granted and the blocks that went back, each in order. A memory whose counters follow this traffic
is *counted*; budgets over any counted memory are. Whatever a failed operation asked for and gave
back again leaves no trace in such counters but in the number of requests granted.

## Main definitions

* `MeteredMap.Traffic` : the requests granted and the blocks given back between two moments.
* `MeteredMap.Grants`, `MeteredMap.Allocator.grantedBefore` : a list of requests granted one after
  the other, and how many of one are granted before the first that is refused.
* `MeteredMap.Counted` : memories whose counters follow the traffic.
* `MeteredMap.Usage.settle` : counters after traffic.

## Main results

* `MeteredMap.Traffic.usages_eq` : the counters after traffic.
* `MeteredMap.Usage.settle_perm` : counters after as much was given back as was granted.
-/

namespace MeteredMap

/-! ### Traffic -/

/-- The requests that a memory granted between two moments, and the blocks that went back to it,
each in order. Requests that it refused may come in between. -/
inductive Traffic {α : Type} [Allocator α] : α → List Layout → List Layout → α → Prop
  | refl (memory : α) : Traffic memory [] [] memory
  | granted {memory middle after : α} {layout : Layout} {gs rs : List Layout}
      (h : Allocator.allocate memory layout = .granted middle) (ht : Traffic middle gs rs after) :
      Traffic memory (layout :: gs) rs after
  | refused {memory middle after : α} {layout : Layout} {gs rs : List Layout}
      (h : Allocator.allocate memory layout = .refused middle) (ht : Traffic middle gs rs after) :
      Traffic memory gs rs after
  | released {memory after : α} {layout : Layout} {gs rs : List Layout}
      (ht : Traffic (Allocator.release memory layout) gs rs after) :
      Traffic memory gs (layout :: rs) after

/-- A memory grants requests one after the other, with nothing in between. -/
inductive Grants {α : Type} [Allocator α] : α → List Layout → α → Prop
  | nil (memory : α) : Grants memory [] memory
  | cons {memory middle after : α} {layout : Layout} {gs : List Layout}
      (h : Allocator.allocate memory layout = .granted middle) (hg : Grants middle gs after) :
      Grants memory (layout :: gs) after

/-- How many of the requests a memory grants, asked for them in order, before the first that it
refuses. -/
def Allocator.grantedBefore {α : Type} [Allocator α] : List Layout → α → Nat
  | [], _ => 0
  | layout :: requests, memory =>
    match Allocator.allocate memory layout with
    | .granted memory => grantedBefore requests memory + 1
    | .refused _ => 0

section

variable {α : Type} [Allocator α] {before middle after : α} {layout : Layout}
  {gs gs' rs rs' requests : List Layout}

theorem Traffic.trans (h : Traffic before gs rs middle) (h' : Traffic middle gs' rs' after) :
    Traffic before (gs ++ gs') (rs ++ rs') after := by
  induction h with
  | refl memory => exact h'
  | granted h ht ih => exact .granted h (ih h')
  | refused h ht ih => exact .refused h (ih h')
  | released ht ih => exact .released (ih h')

/-- Blocks given back one after the other. -/
theorem Traffic.ofReleases (memory : α) (rs : List Layout) :
    Traffic memory [] rs (rs.foldl Allocator.release memory) := by
  induction rs generalizing memory with
  | nil => exact .refl memory
  | cons layout rs ih => exact .released (ih _)

theorem Grants.traffic (h : Grants before gs after) : Traffic before gs [] after := by
  induction h with
  | nil memory => exact .refl memory
  | cons h hg ih => exact .granted h ih

theorem Grants.trans (h : Grants before gs middle) (h' : Grants middle gs' after) :
    Grants before (gs ++ gs') after := by
  induction h with
  | nil memory => exact h'
  | cons h hg ih => exact .cons h (ih h')

/-- Requests that follow some that are granted are counted from there on. -/
theorem Grants.grantedBefore_append (h : Grants before gs after) (requests : List Layout) :
    Allocator.grantedBefore (gs ++ requests) before =
      gs.length + Allocator.grantedBefore requests after := by
  induction h with
  | nil memory => simp
  | cons h hg ih =>
    rw [List.cons_append, Allocator.grantedBefore, h]
    dsimp only
    rw [ih, List.length_cons]
    omega

/-- Once a request is refused, it does not matter what would have been asked for behind it. -/
theorem grantedBefore_append_of_lt (requests : List Layout) {memory : α}
    (h : Allocator.grantedBefore gs memory < gs.length) :
    Allocator.grantedBefore (gs ++ requests) memory = Allocator.grantedBefore gs memory := by
  induction gs generalizing memory with
  | nil => cases h
  | cons layout gs ih =>
    rw [List.cons_append, Allocator.grantedBefore, Allocator.grantedBefore]
    rw [Allocator.grantedBefore] at h
    cases hreply : Allocator.allocate memory layout with
    | refused after => rfl
    | granted after =>
      rw [hreply, List.length_cons] at h
      exact congrArg (· + 1) (ih (Nat.lt_of_succ_lt_succ h))

theorem grantedBefore_of_refused (h : Allocator.allocate before layout = .refused after)
    (requests : List Layout) : Allocator.grantedBefore (layout :: requests) before = 0 := by
  rw [Allocator.grantedBefore, h]

end

/-! ### Counters -/

namespace Usage

/-- The counters after a block of `size` bytes was granted. -/
def charge (usage : Usage) (size : Nat) : Usage where
  inUse := usage.inUse + UInt64.ofNat size
  live := usage.live + 1
  total := usage.total + 1

/-- The counters after a block of `size` bytes was given back. -/
def refund (usage : Usage) (size : Nat) : Usage where
  inUse := usage.inUse - UInt64.ofNat size
  live := usage.live - 1
  total := usage.total

/-- The counters after traffic: requests granted and blocks given back. -/
def settle (usage : Usage) (gs rs : List Layout) : Usage where
  inUse :=
    usage.inUse + UInt64.ofNat (gs.map Layout.size).sum - UInt64.ofNat (rs.map Layout.size).sum
  live := usage.live + UInt64.ofNat gs.length - UInt64.ofNat rs.length
  total := usage.total + UInt64.ofNat gs.length

variable {layout : Layout} {gs rs : List Layout}

@[simp] theorem settle_nil (usage : Usage) : usage.settle [] [] = usage := by
  obtain ⟨inUse, live, total⟩ := usage
  simp [settle]

theorem settle_granted (usage : Usage) :
    (usage.charge layout.size).settle gs rs = usage.settle (layout :: gs) rs := by
  simp only [settle, charge, List.map_cons, List.sum_cons, List.length_cons, UInt64.ofNat_add,
    Usage.mk.injEq]
  refine ⟨?_, ?_, ?_⟩ <;> grind

theorem settle_released (usage : Usage) :
    (usage.refund layout.size).settle gs rs = usage.settle gs (layout :: rs) := by
  simp only [settle, refund, List.map_cons, List.sum_cons, List.length_cons, UInt64.ofNat_add,
    Usage.mk.injEq]
  refine ⟨?_, ?_, ?_⟩ <;> grind

/-- After as much was given back as was granted, only the number of requests granted differs. -/
theorem settle_perm (usage : Usage) (h : gs.Perm rs) :
    usage.settle gs rs = { usage with total := usage.total + UInt64.ofNat gs.length } := by
  have hsum : (gs.map Layout.size).sum = (rs.map Layout.size).sum := (h.map Layout.size).sum_nat
  rw [settle, hsum, h.length_eq]
  simp only [Usage.mk.injEq, and_true]
  refine ⟨?_, ?_⟩ <;> grind

end Usage

/-- A memory whose counters, the outermost first, follow what it grants and gets back. -/
class Counted (α : Type) extends Allocator α where
  /-- The counters of the memory and of those inside it. -/
  usages : α → List Usage
  usages_granted {memory after : α} {layout : Layout}
    (h : allocate memory layout = .granted after) :
    usages after = (usages memory).map (·.charge layout.size)
  usages_refused {memory after : α} {layout : Layout}
    (h : allocate memory layout = .refused after) :
    usages after = usages memory
  usages_released (memory : α) (layout : Layout) :
    usages (release memory layout) = (usages memory).map (·.refund layout.size)

/-- The memory at the bottom has no counters. -/
instance : Counted Heap where
  usages _ := []
  usages_granted _ := rfl
  usages_refused _ := rfl
  usages_released _ _ := rfl

/-- A budget adds its counters to those of its inner memory. -/
instance {α : Type} [Counted α] : Counted (Budget α) where
  usages budget := budget.usage :: Counted.usages budget.inner
  usages_granted {memory after layout} h := by
    simp only [Allocator.allocate] at h
    split at h
    · split at h
      · next hinner =>
        cases h
        rw [List.map_cons, ← Counted.usages_granted hinner]
        rfl
      · cases h
    · cases h
  usages_refused {memory after layout} h := by
    simp only [Allocator.allocate] at h
    split at h
    · split at h
      · cases h
      · next hinner =>
        cases h
        rw [← Counted.usages_refused hinner]
        rfl
    · cases h
      rfl
  usages_released memory layout := by
    rw [List.map_cons, ← Counted.usages_released]
    rfl

/-- The counters after traffic. -/
theorem Traffic.usages_eq {α : Type} [Counted α] {before after : α} {gs rs : List Layout}
    (h : Traffic before gs rs after) :
    Counted.usages after = (Counted.usages before).map (·.settle gs rs) := by
  induction h with
  | refl memory => simp
  | granted h ht ih =>
    rw [ih, Counted.usages_granted h, List.map_map]
    exact List.map_congr_left fun usage _ => usage.settle_granted
  | refused h ht ih => rw [ih, Counted.usages_refused h]
  | released ht ih =>
    rw [ih, Counted.usages_released, List.map_map]
    exact List.map_congr_left fun usage _ => usage.settle_released

end MeteredMap
