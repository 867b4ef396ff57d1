import Mathlib.Data.List.Perm.Basic
import MeteredMap.Proofs.Memory.Alike

/-!
# Ledgers

Whoever uses a memory directly keeps a *ledger*: the blocks granted and not given back, and the
number of requests granted so far. The counters of a budget agree with the ledger of every run of
calls, whatever the memory below the budget refuses and however the limit moves. Blocks of no bytes
may be among those held; they are granted even while more is in use than the limit allows.

## Main definitions

* `MeteredMap.MemoryCall`, `MeteredMap.Ledger` : calls to a memory, and the ledger of a run.
* `MeteredMap.Ledger.Moves` : all that a call to a budget can do.
* `MeteredMap.Ledger.Exact` : the counters of a budget agree with a ledger.

## Main results

* `MeteredMap.Ledger.moves_step` : a call to a budget does one of these things.
* `MeteredMap.Ledger.Exact.runAll` : the counters agree with the ledger after every run.
* `MeteredMap.Ledger.bookkeeping` : what a budget promises about every run of calls.
-/

namespace MeteredMap

variable {α : Type}

/-! ### Calls and ledgers -/

/-- The budget says that a request fits, and the inner memory grants it. -/
def Budget.Admits [Allocator α] (budget : Budget α) (layout : Layout) : Prop :=
  Allocator.canAllocate budget layout = true ∧
    ∃ inner, Allocator.allocate budget.inner layout = .granted inner

/-- Asks for one block filled with zeros. It is asked for like any other block, and filled once it
is there. -/
def Allocator.allocateZeroed [Allocator α] (memory : α) (layout : Layout) : Reply α :=
  Allocator.allocate memory layout

/-- A call to a memory. -/
inductive MemoryCall where
  | allocate (layout : Layout)
  | allocateZeroed (layout : Layout)
  /-- Give back the block at a position among those held. -/
  | release (position : Nat)
  | setLimit (limit : UInt64)

namespace MemoryCall

/-- The layout that a call asks for. -/
def request? : MemoryCall → Option Layout
  | allocate layout => some layout
  | allocateZeroed layout => some layout
  | _ => none

/-- The limit that a call sets. -/
def limit? : MemoryCall → Option UInt64
  | setLimit limit => some limit
  | _ => none

end MemoryCall

/-- A memory, and what one who uses it alone knows about it. -/
structure Ledger (α : Type) where
  memory : α
  /-- The layouts of the blocks granted and not given back. -/
  held : List Layout
  /-- The number of requests granted so far. -/
  granted : Nat

namespace Ledger

/-- A ledger without entries. -/
def opened (memory : α) : Ledger α :=
  ⟨memory, [], 0⟩

/-- The answer to a request entered. -/
def enter (ledger : Ledger α) (layout : Layout) : Reply α → Ledger α
  | .granted memory => ⟨memory, layout :: ledger.held, ledger.granted + 1⟩
  | .refused memory => { ledger with memory }

/-- Makes a call and enters it. Only a block that is held can be given back. -/
def step [Metered α] (ledger : Ledger α) : MemoryCall → Ledger α
  | .allocate layout => ledger.enter layout (Allocator.allocate ledger.memory layout)
  | .allocateZeroed layout => ledger.enter layout (Allocator.allocateZeroed ledger.memory layout)
  | .release position =>
    match ledger.held[position]? with
    | none => ledger
    | some layout =>
      { ledger with
        memory := Allocator.release ledger.memory layout
        held := ledger.held.eraseIdx position }
  | .setLimit limit => { ledger with memory := Metered.setLimit ledger.memory (.exactly limit) }

/-- Makes calls one after the other. -/
def runAll [Metered α] (ledger : Ledger α) (calls : List MemoryCall) : Ledger α :=
  calls.foldl step ledger

/-! ### One call to a budget -/

variable [Allocator α] {ledger after : Ledger (Budget α)} {call : MemoryCall}

/-- All that a call to a budget can do. -/
inductive Moves (ledger : Ledger (Budget α)) : MemoryCall → Ledger (Budget α) → Prop
  | granted {call : MemoryCall} {layout : Layout} {inner : α} (hcall : call.request? = some layout)
      (hfits : layout.size ≤ ledger.memory.remaining)
      (hinner : Allocator.allocate ledger.memory.inner layout = .granted inner) :
      Moves ledger call
        ⟨ledger.memory.charge inner layout.size, layout :: ledger.held, ledger.granted + 1⟩
  /-- The budget refuses, without asking the inner memory. -/
  | overdrawn {call : MemoryCall} {layout : Layout} (hcall : call.request? = some layout)
      (hfits : ¬ layout.size ≤ ledger.memory.remaining) : Moves ledger call ledger
  /-- The inner memory refuses. -/
  | declined {call : MemoryCall} {layout : Layout} {inner : α}
      (hcall : call.request? = some layout) (hfits : layout.size ≤ ledger.memory.remaining)
      (hinner : Allocator.allocate ledger.memory.inner layout = .refused inner) :
      Moves ledger call { ledger with memory := { ledger.memory with inner } }
  | released {position : Nat} {layout : Layout} (hheld : ledger.held[position]? = some layout) :
      Moves ledger (.release position)
        { ledger with
          memory := ledger.memory.refund (Allocator.release ledger.memory.inner layout) layout.size
          held := ledger.held.eraseIdx position }
  | notHeld {position : Nat} (hheld : ledger.held[position]? = none) :
      Moves ledger (.release position) ledger
  | limited (limit : UInt64) :
      Moves ledger (.setLimit limit) { ledger with memory := { ledger.memory with limit } }

/-- A call to a budget does one of these things. -/
theorem moves_step (ledger : Ledger (Budget α)) (call : MemoryCall) :
    ledger.Moves call (ledger.step call) := by
  have hrequest : ∀ layout, call.request? = some layout →
      ledger.Moves call (ledger.enter layout (Allocator.allocate ledger.memory layout)) := by
    intro layout hcall
    by_cases hfits : layout.size ≤ ledger.memory.remaining
    · rw [Budget.allocate_eq_of_fits hfits]
      cases hinner : Allocator.allocate ledger.memory.inner layout with
      | granted inner => exact .granted hcall hfits hinner
      | refused inner => exact .declined hcall hfits hinner
    · rw [Budget.allocate_of_not_fits hfits]
      exact .overdrawn hcall hfits
  cases call with
  | allocate layout => exact hrequest layout rfl
  | allocateZeroed layout => exact hrequest layout rfl
  | release position =>
    cases hheld : ledger.held[position]? with
    | none =>
      rw [step, hheld]
      exact .notHeld hheld
    | some layout =>
      rw [step, hheld]
      exact .released hheld
  | setLimit limit => exact .limited limit

theorem Moves.granted_le (h : ledger.Moves call after) : ledger.granted ≤ after.granted := by
  cases h <;> simp

theorem granted_le_runAll (ledger : Ledger (Budget α)) (calls : List MemoryCall) :
    ledger.granted ≤ (ledger.runAll calls).granted := by
  induction calls generalizing ledger with
  | nil => exact Nat.le_refl _
  | cons call calls ih => exact Nat.le_trans (moves_step ledger call).granted_le (ih _)

/-! ### Counters that agree with a ledger -/

theorem perm_eraseIdx {held : List Layout} {position : Nat} {layout : Layout}
    (h : held[position]? = some layout) : held.Perm (layout :: held.eraseIdx position) := by
  obtain ⟨hposition, rfl⟩ := List.getElem?_eq_some_iff.mp h
  exact (List.getElem_cons_eraseIdx_perm hposition).symm

theorem sum_eraseIdx {held : List Layout} {position : Nat} {layout : Layout}
    (h : held[position]? = some layout) :
    (held.map Layout.size).sum =
      layout.size + ((held.eraseIdx position).map Layout.size).sum := by
  rw [((perm_eraseIdx h).map Layout.size).sum_nat, List.map_cons, List.sum_cons]

/-- The counters of a budget agree with a ledger, as numbers and not only modulo the size of a
word. -/
structure Exact (ledger : Ledger (Budget α)) : Prop where
  inUse : ledger.memory.inUse.toNat = (ledger.held.map Layout.size).sum
  live : ledger.memory.live.toNat = ledger.held.length
  total : ledger.memory.total.toNat = ledger.granted
  length_le : ledger.held.length ≤ ledger.granted

omit [Allocator α] in
theorem Exact.opened (inner : α) (limit : UInt64) :
    (Ledger.opened (Budget.ofInner inner limit)).Exact :=
  ⟨rfl, rfl, rfl, Nat.le_refl 0⟩

/-- Counters that agree with a ledger still do after a call, as long as the number of requests
granted is one of 64 bits. -/
theorem Exact.of_moves (h : ledger.Exact) (hm : ledger.Moves call after)
    (hfew : after.granted < 2 ^ 64) : after.Exact := by
  have hinUse := h.inUse
  have hlive := h.live
  have htotal := h.total
  have hlength := h.length_le
  cases hm with
  | @granted call layout inner hcall hfits hinner =>
    dsimp only at hfew
    refine ⟨?_, ?_, ?_, Nat.succ_le_succ hlength⟩
    · rw [Budget.toNat_inUse_charge hfits, List.map_cons, List.sum_cons]
      omega
    · rw [Budget.charge, UInt64.toNat_add, UInt64.toNat_one, Nat.mod_eq_of_lt (by omega),
        List.length_cons, hlive]
    · rw [Budget.charge, UInt64.toNat_add, UInt64.toNat_one, Nat.mod_eq_of_lt (by omega), htotal]
  | overdrawn hcall hfits => exact h
  | declined hcall hfits hinner => exact ⟨hinUse, hlive, htotal, hlength⟩
  | @released position layout hheld =>
    have hsum := sum_eraseIdx hheld
    have hcount := (perm_eraseIdx hheld).length_eq
    rw [List.length_cons] at hcount
    refine ⟨?_, ?_, htotal, ?_⟩
    · rw [Budget.toNat_inUse_refund (by omega)]
      dsimp only
      omega
    · rw [Budget.refund, UInt64.toNat_sub_of_le, UInt64.toNat_one]
      · dsimp only
        omega
      · rw [UInt64.le_iff_toNat_le, UInt64.toNat_one]
        omega
    · dsimp only
      omega
  | notHeld hheld => exact h
  | limited limit => exact ⟨hinUse, hlive, htotal, hlength⟩

/-- The counters of a budget agree with the ledger after every run of calls. -/
theorem Exact.runAll (h : ledger.Exact) (calls : List MemoryCall)
    (hfew : (ledger.runAll calls).granted < 2 ^ 64) : (ledger.runAll calls).Exact := by
  induction calls generalizing ledger with
  | nil => exact h
  | cons call calls ih =>
    have hcall := Nat.lt_of_le_of_lt (granted_le_runAll (ledger.step call) calls) hfew
    exact ih (h.of_moves (moves_step ledger call) hcall) hfew

/-! ### Limits -/

/-- A call leaves no more in use than there was, or no more than the limit that it found. -/
theorem Exact.inUse_le (h : ledger.Exact) (hm : ledger.Moves call after) :
    after.memory.inUse ≤ ledger.memory.inUse ∨ after.memory.inUse ≤ ledger.memory.limit := by
  cases hm with
  | @granted call layout inner hcall hfits hinner =>
    have hinUse := Budget.toNat_inUse_charge hfits inner
    rw [Budget.remaining] at hfits
    simp only [UInt64.le_iff_toNat_le, hinUse]
    omega
  | @released position layout hheld =>
    have hinUse := h.inUse
    have hsum := sum_eraseIdx hheld
    refine Or.inl (UInt64.le_iff_toNat_le.mpr ?_)
    rw [Budget.toNat_inUse_refund (by omega)]
    exact Nat.sub_le _ _
  | _ => exact Or.inl (UInt64.le_refl _)

/-- The limit is one of some limits, and no more is in use than one of them allows. -/
structure Within (ledger : Ledger (Budget α)) (limits : List UInt64) : Prop where
  limit_mem : ledger.memory.limit ∈ limits
  inUse_le : ∃ limit ∈ limits, ledger.memory.inUse ≤ limit

theorem Within.of_moves {limits : List UInt64} (h : ledger.Within limits) (he : ledger.Exact)
    (hm : ledger.Moves call after) : after.Within (limits ++ call.limit?.toList) := by
  obtain ⟨hlimit, limit, hmem, hle⟩ := h
  refine ⟨?_, ?_⟩
  · cases hm with
    | limited limit => exact List.mem_append_right _ List.mem_cons_self
    | _ => exact List.mem_append_left _ hlimit
  · rcases he.inUse_le hm with hinUse | hinUse
    · exact ⟨limit, List.mem_append_left _ hmem, UInt64.le_trans hinUse hle⟩
    · exact ⟨_, List.mem_append_left _ hlimit, hinUse⟩

theorem Within.runAll {limits : List UInt64} (h : ledger.Within limits) (he : ledger.Exact)
    (calls : List MemoryCall) (hfew : (ledger.runAll calls).granted < 2 ^ 64) :
    (ledger.runAll calls).Within (limits ++ calls.filterMap MemoryCall.limit?) := by
  induction calls generalizing ledger limits with
  | nil => simpa [Ledger.runAll] using h
  | cons call calls ih =>
    have hcall := Nat.lt_of_le_of_lt (granted_le_runAll (ledger.step call) calls) hfew
    have hm := moves_step ledger call
    have hrest := ih (h.of_moves he hm) (he.of_moves hm hcall) hfew
    have hlimits : call.limit?.toList ++ calls.filterMap MemoryCall.limit? =
        (call :: calls).filterMap MemoryCall.limit? := by
      cases hlimit : call.limit? <;> simp [hlimit]
    rw [List.append_assoc, hlimits] at hrest
    exact hrest

/-- While more is in use than the limit allows, calls only lower it. -/
theorem Exact.inUse_le_of_over (h : ledger.Exact) (calls : List MemoryCall)
    (hfew : (ledger.runAll calls).granted < 2 ^ 64)
    (hover : ∀ k < calls.length, (ledger.runAll (calls.take k)).memory.limit <
      (ledger.runAll (calls.take k)).memory.inUse) :
    (ledger.runAll calls).memory.inUse ≤ ledger.memory.inUse := by
  induction calls generalizing ledger with
  | nil => exact UInt64.le_refl _
  | cons call calls ih =>
    have hcall := Nat.lt_of_le_of_lt (granted_le_runAll (ledger.step call) calls) hfew
    have hm := moves_step ledger call
    have hrest := ih (h.of_moves hm hcall) hfew fun k hk => hover (k + 1) (Nat.succ_lt_succ hk)
    have hfirst : ledger.memory.limit < ledger.memory.inUse := hover 0 (Nat.succ_pos _)
    rcases h.inUse_le hm with hle | hle
    · exact UInt64.le_trans hrest hle
    · exact UInt64.le_trans hrest (UInt64.le_trans hle (UInt64.le_of_lt hfirst))

/-! ### Every run -/

/-- How a request comes out. It is granted exactly if the budget admits it. -/
structure Decides (ledger : Ledger (Budget α)) (call : MemoryCall) (layout : Layout) : Prop where
  granted (h : ledger.memory.Admits layout) :
    (ledger.step call).held = layout :: ledger.held ∧
      (ledger.step call).granted = ledger.granted + 1
  /-- What is in use then is within the limit, except that a block of no bytes does not bring it
  there. -/
  within (h : ledger.memory.Admits layout) :
    (ledger.step call).memory.inUse ≤ (ledger.step call).memory.limit ∨
      layout.size = 0 ∧ (ledger.step call).memory.inUse = ledger.memory.inUse
  /-- A refusal changes nothing but the inner memory, and that only if it was asked. -/
  refused (h : ¬ ledger.memory.Admits layout) :
    ∃ inner, ledger.step call = { ledger with memory := { ledger.memory with inner } } ∧
      (Allocator.canAllocate ledger.memory layout = false → inner = ledger.memory.inner)

theorem decides_step {layout : Layout} (ledger : Ledger (Budget α))
    (hcall : call.request? = some layout) : ledger.Decides call layout := by
  have hcan : Allocator.canAllocate ledger.memory layout = true ↔
      layout.size ≤ ledger.memory.remaining := decide_eq_true_iff
  have hm := moves_step ledger call
  generalize hafter : ledger.step call = after at hm
  cases hm with
  | @granted call layout' inner hcall' hfits hinner =>
    cases hcall.symm.trans hcall'
    refine ⟨fun _ => by rw [hafter]; exact ⟨rfl, rfl⟩, fun _ => ?_,
      fun hnot => absurd ⟨hcan.mpr hfits, inner, hinner⟩ hnot⟩
    have hinUse := Budget.toNat_inUse_charge hfits inner
    rw [Budget.remaining] at hfits
    rw [hafter, UInt64.le_iff_toNat_le, ← UInt64.toNat_inj, hinUse]
    simp only [Budget.charge]
    omega
  | @overdrawn call layout' hcall' hfits =>
    cases hcall.symm.trans hcall'
    have hnot : ¬ ledger.memory.Admits layout := fun h => hfits (hcan.mp h.1)
    exact ⟨fun h => absurd h hnot, fun h => absurd h hnot,
      fun _ => ⟨ledger.memory.inner, hafter, fun _ => rfl⟩⟩
  | @declined call layout' inner hcall' hfits hinner =>
    cases hcall.symm.trans hcall'
    have hnot : ¬ ledger.memory.Admits layout := by
      rintro ⟨-, inner', hinner'⟩
      rw [hinner] at hinner'
      cases hinner'
    refine ⟨fun h => absurd h hnot, fun h => absurd h hnot,
      fun _ => ⟨inner, hafter, fun hfalse => ?_⟩⟩
    rw [hcan.mpr hfits] at hfalse
    cases hfalse
  | _ => cases hcall

/-- What a budget promises about every run of calls in which fewer than `2 ^ 64` requests are
granted: its counters agree with the blocks held and with the number of requests granted; it says
what remains, down to nothing; it grants what it admits, and a refusal leaves it as it is; no more
is in use than one of the limits so far allowed; and while more is in use than the limit allows,
calls only lower it. -/
theorem bookkeeping {inner : α} {limit : UInt64} {calls : List MemoryCall}
    {ledger : Ledger (Budget α)}
    (hrun : (opened (Budget.ofInner inner limit)).runAll calls = ledger)
    (hfew : ledger.granted < 2 ^ 64) :
    (ledger.memory.inUse.toNat = (ledger.held.map Layout.size).sum ∧
        ledger.memory.live.toNat = ledger.held.length ∧
        ledger.memory.total.toNat = ledger.granted) ∧
      (ledger.memory.remaining : Int) =
        max 0 (ledger.memory.limit.toNat - ledger.memory.inUse.toNat) ∧
      (∀ call layout, call.request? = some layout → ledger.Decides call layout) ∧
      (∃ limit' ∈ limit :: calls.filterMap MemoryCall.limit?, ledger.memory.inUse ≤ limit') ∧
      ∀ earlier later, calls = earlier ++ later →
        (∀ k < later.length,
          ((opened (Budget.ofInner inner limit)).runAll (earlier ++ later.take k)).memory.limit <
            ((opened (Budget.ofInner inner limit)).runAll (earlier ++ later.take k)).memory.inUse) →
        ledger.memory.inUse ≤
          ((opened (Budget.ofInner inner limit)).runAll earlier).memory.inUse := by
  subst hrun
  have hopened := Exact.opened inner limit
  have hexact := hopened.runAll calls hfew
  have hwithin : (opened (Budget.ofInner inner limit)).Within [limit] :=
    ⟨List.mem_cons_self, limit, List.mem_cons_self, by simp [opened, Budget.ofInner]⟩
  refine ⟨⟨hexact.inUse, hexact.live, hexact.total⟩, ?_,
    fun call layout hcall => decides_step _ hcall, (hwithin.runAll hopened calls hfew).inUse_le, ?_⟩
  · rw [Budget.remaining]
    omega
  · rintro earlier later rfl hover
    simp only [runAll, List.foldl_append] at hfew hover ⊢
    have hearlier := hopened.runAll earlier (Nat.lt_of_le_of_lt (granted_le_runAll _ later) hfew)
    exact hearlier.inUse_le_of_over later hfew hover

/-- Requests that are granted, refused by the budget and refused below it, with a limit that goes up
and then down below what is in use. -/
def sampleCalls : List MemoryCall :=
  [.allocate ⟨40, 8⟩, .allocateZeroed ⟨40, 8⟩, .allocate ⟨30, 8⟩, .setLimit 200, .allocate ⟨60, 8⟩,
    .setLimit 60, .allocate ⟨0, 1⟩, .release 2]

theorem bookkeeping_sample :
    ∃ ledger, (opened (Budget.ofInner (Heap.mk (some 50)) 100)).runAll sampleCalls = ledger ∧
      ledger.granted < 2 ^ 64 ∧ ledger.held = [⟨0, 1⟩, ⟨40, 8⟩] ∧
      ledger.memory.usage = ⟨40, 2, 3⟩ ∧ ledger.memory.remaining = 20 ∧
      ledger.Decides (.allocate ⟨30, 8⟩) ⟨30, 8⟩ := by
  have hfew : ((opened (Budget.ofInner (Heap.mk (some 50)) 100)).runAll sampleCalls).granted <
      2 ^ 64 := by decide
  obtain ⟨-, -, hdecides, -, -⟩ := bookkeeping rfl hfew
  exact ⟨_, rfl, hfew, rfl, rfl, rfl, hdecides _ _ rfl⟩

end Ledger

end MeteredMap
