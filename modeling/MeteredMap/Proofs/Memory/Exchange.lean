import MeteredMap.Proofs.Memory.Generous

/-!
# Exchanges

The blocks that a memory has granted and not got back are held by someone. An *exchange* leads from
one list of held blocks to another: blocks are granted, blocks that are held go back, or a failed
operation gets some and gives the same back. Where the counters of a budget are right about what is
held they stay right, and no counter wraps around, whatever the memory below it refuses: what is
granted fits under a limit, and no block is of no bytes.

## Main definitions

* `MeteredMap.Exchange` : the ways from what is held to what is held later, with the number of
  requests granted on the way.
* `MeteredMap.Budget.Holds` : the counters of a budget are right about what is held.

## Main results

* `MeteredMap.Budget.Holds.exchange` : the counters stay right.
* `MeteredMap.Budget.total_of_exchange` : the number of requests granted so far.
-/

namespace MeteredMap

/-! ### Exchanges -/

/-- The ways from a memory and the blocks held of it to a later one, with the number of requests
that are granted on the way. -/
inductive Exchange {α : Type} [Allocator α] : α → List Layout → Nat → α → List Layout → Prop
  | granted {memory after : α} {gs : List Layout} (held : List Layout) (hg : Grants memory gs after)
      (hpos : ∀ layout ∈ gs, 0 < layout.size) :
      Exchange memory held gs.length after (gs ++ held)
  | released (memory : α) (rs held : List Layout) :
      Exchange memory (rs ++ held) 0 (rs.foldl Allocator.release memory) held
  /-- As much goes back as was granted. -/
  | undone {memory after : α} {gs rs : List Layout} (held : List Layout) (hperm : gs.Perm rs)
      (ht : Traffic memory gs rs after) : Exchange memory held gs.length after held
  | perm {held held' : List Layout} (memory : α) (h : held.Perm held') :
      Exchange memory held 0 memory held'
  | trans {memory middle after : α} {held between later : List Layout} {n k : Nat}
      (h : Exchange memory held n middle between) (h' : Exchange middle between k after later) :
      Exchange memory held (n + k) after later

namespace Exchange

variable {α : Type} [Allocator α] {memory middle after : α} {held between later : List Layout}
  {n k : Nat}

theorem refl (memory : α) (held : List Layout) : Exchange memory held 0 memory held :=
  .perm memory (.refl held)

/-- An exchange that grants nothing, behind another. -/
theorem trans_zero (h : Exchange memory held n middle between)
    (h' : Exchange middle between 0 after later) : Exchange memory held n after later :=
  h.trans h'

/-- What others hold is not touched by an exchange. -/
theorem frame (h : Exchange memory held n after later) (others : List Layout) :
    Exchange memory (held ++ others) n after (later ++ others) := by
  induction h with
  | granted held hg hpos =>
    rw [List.append_assoc]
    exact .granted (held ++ others) hg hpos
  | released memory rs held =>
    rw [List.append_assoc]
    exact .released memory rs (held ++ others)
  | undone held hperm ht => exact .undone (held ++ others) hperm ht
  | perm memory h => exact .perm memory (h.append_right others)
  | trans h h' ih ih' => exact ih.trans ih'

end Exchange

/-! ### Counters -/

/-- No memory below a budget matters for the counters of the budget itself. -/
theorem Traffic.usage_eq {α : Type} [Allocator α] {before after : Budget α} {gs rs : List Layout}
    (h : Traffic before gs rs after) : after.usage = before.usage.settle gs rs := by
  let silent : Counted α :=
    { usages := fun _ => []
      usages_granted := fun _ => rfl
      usages_refused := fun _ => rfl
      usages_released := fun _ _ => rfl }
  have husages : after.usage :: [] = (before.usage :: []).map (·.settle gs rs) :=
    Traffic.usages_eq h
  exact List.head_eq_of_cons_eq husages

namespace Budget

variable {α : Type} {budget after : Budget α} {layout : Layout} {held later gs : List Layout}
  {n : Nat}

/-- A budget grants what fits and is granted by its inner memory. -/
theorem allocate_eq_granted [Allocator α]
    (h : Allocator.allocate budget layout = .granted after) :
    layout.size ≤ budget.remaining ∧ ∃ inner, after = budget.charge inner layout.size := by
  simp only [Allocator.allocate, fits, decide_eq_true_eq] at h
  split at h
  · next hfits =>
    split at h
    · cases h
      exact ⟨hfits, _, rfl⟩
    · cases h
  · cases h

/-- The counters of a budget are right about the blocks that are held, none of which is of no
bytes. -/
structure Holds (budget : Budget α) (held : List Layout) : Prop where
  inUse : budget.inUse.toNat = (held.map Layout.size).sum
  live : budget.live.toNat = held.length
  pos : ∀ layout ∈ held, 0 < layout.size

namespace Holds

/-- A new budget holds nothing. -/
theorem ofInner (inner : α) (limit : UInt64) : (Budget.ofInner inner limit).Holds [] :=
  ⟨rfl, rfl, fun _ h => by cases h⟩

theorem perm (h : budget.Holds held) (hperm : held.Perm later) : budget.Holds later where
  inUse := h.inUse.trans (hperm.map Layout.size).sum_nat
  live := h.live.trans hperm.length_eq
  pos layout hl := h.pos layout (hperm.mem_iff.mpr hl)

/-- There are at most as many blocks as bytes in use. -/
theorem length_le (h : budget.Holds held) : held.length ≤ budget.inUse.toNat := by
  rw [h.inUse]
  have hpos := h.pos
  clear h
  induction held with
  | nil => exact Nat.le_refl 0
  | cons layout held ih =>
    have hlayout := hpos layout List.mem_cons_self
    have hrest := ih fun l hl => hpos l (List.mem_cons_of_mem layout hl)
    rw [List.length_cons, List.map_cons, List.sum_cons]
    omega

/-- A block is granted. -/
theorem charge (h : budget.Holds held) (hfits : layout.size ≤ budget.remaining)
    (hpos : 0 < layout.size) (inner : α) :
    (budget.charge inner layout.size).Holds (layout :: held) := by
  have hinUse := toNat_inUse_charge hfits inner
  have hbound := (budget.charge inner layout.size).inUse.toNat_lt
  have hlength := h.length_le
  have hlive : budget.live.toNat + 1 < 2 ^ 64 := by
    rw [h.live]
    omega
  refine ⟨?_, ?_, ?_⟩
  · rw [hinUse, h.inUse, List.map_cons, List.sum_cons, Nat.add_comm]
  · rw [Budget.charge, UInt64.toNat_add, UInt64.toNat_one, Nat.mod_eq_of_lt hlive, h.live,
      List.length_cons]
  · rintro l hl
    rcases List.mem_cons.mp hl with rfl | hl
    · exact hpos
    · exact h.pos l hl

/-- A block that is held goes back. -/
theorem refund (h : budget.Holds (layout :: held)) (inner : α) :
    (budget.refund inner layout.size).Holds held := by
  have hinUse := h.inUse
  have hlive := h.live
  have hbound := budget.inUse.toNat_lt
  rw [List.map_cons, List.sum_cons] at hinUse
  rw [List.length_cons] at hlive
  have hsize : (UInt64.ofNat layout.size).toNat = layout.size := by
    rw [UInt64.toNat_ofNat', Nat.mod_eq_of_lt (by omega)]
  refine ⟨?_, ?_, fun l hl => h.pos l (List.mem_cons_of_mem layout hl)⟩
  · rw [Budget.refund, UInt64.toNat_sub_of_le, hsize]
    · omega
    · rw [UInt64.le_iff_toNat_le, hsize]
      omega
  · rw [Budget.refund, UInt64.toNat_sub_of_le, UInt64.toNat_one]
    · omega
    · rw [UInt64.le_iff_toNat_le, UInt64.toNat_one]
      omega

variable [Allocator α]

theorem grants (h : budget.Holds held) (hg : Grants budget gs after)
    (hpos : ∀ layout ∈ gs, 0 < layout.size) : after.Holds (gs ++ held) := by
  induction hg generalizing held with
  | nil budget => exact h
  | @cons budget middle after layout gs hreply hg ih =>
    obtain ⟨hfits, inner, rfl⟩ := allocate_eq_granted hreply
    have hcharged := h.charge hfits (hpos layout List.mem_cons_self) inner
    have hrest := ih hcharged fun l hl => hpos l (List.mem_cons_of_mem layout hl)
    exact hrest.perm List.perm_middle

theorem releases {rs : List Layout} (h : budget.Holds (rs ++ held)) :
    (rs.foldl Allocator.release budget).Holds held := by
  induction rs generalizing budget with
  | nil => exact h
  | cons layout rs ih => exact ih (h.refund _)

/-- Counters that are right about what is held stay right. -/
theorem exchange (h : budget.Holds held) (he : Exchange budget held n after later) :
    after.Holds later := by
  induction he with
  | granted held hg hpos => exact h.grants hg hpos
  | released budget rs held => exact h.releases
  | @undone budget after gs rs held hperm ht =>
    have husage := ht.usage_eq.trans (budget.usage.settle_perm hperm)
    have hinUse : after.inUse = budget.inUse := congrArg Usage.inUse husage
    have hlive : after.live = budget.live := congrArg Usage.live husage
    exact ⟨by rw [hinUse, h.inUse], by rw [hlive, h.live], h.pos⟩
  | perm budget hperm => exact h.perm hperm
  | trans he he' ih ih' => exact ih' (ih h)

end Holds

/-- Every exchange adds the requests granted on the way to their number so far. -/
theorem total_of_exchange [Allocator α] (he : Exchange budget held n after later) :
    after.total = budget.total + UInt64.ofNat n := by
  induction he with
  | granted held hg hpos => exact congrArg Usage.total hg.traffic.usage_eq
  | released budget rs held =>
    exact congrArg Usage.total (Traffic.ofReleases budget rs).usage_eq
  | undone held hperm ht => exact congrArg Usage.total ht.usage_eq
  | perm budget hperm => simp
  | trans he he' ih ih' => rw [ih', ih, UInt64.ofNat_add, UInt64.add_assoc]

end Budget

end MeteredMap
