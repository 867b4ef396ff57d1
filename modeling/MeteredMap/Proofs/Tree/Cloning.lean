import MeteredMap.Proofs.Equality
import MeteredMap.Proofs.Memory.Requests
import MeteredMap.Proofs.Tree.Holdings

/-!
# What a clone looks like

A clone is made by a walk over the entries in order and an insertion for each of them. Under a
comparator that orders the keys every one of them comes after those before it, and so it goes to the
end, into the next slot of a table that is just large enough. The clone therefore numbers its slots
in order, wherever the entries of the original lie.

## Main definitions

* `MeteredMap.Tree.Clones` : a map and its clone.

## Main results

* `MeteredMap.Tree.Inserted.at_end` : an entry that comes after all others.
* `MeteredMap.Tree.Sound.numbered_of_clone` : the slots of a clone, numbered in order.
* `MeteredMap.Tree.Sound.clone_outcome` : whether a clone is made, and what it looks like.
-/

namespace MeteredMap

namespace Tree

open Shape

variable {α : Type} [Allocator α] {tree source target after copy : Tree} {s t : Shape}
  {vacant rest : List Handle} {path : List Frame} {x : Handle} {e : Entry} {capacity : Nat}
  {memory memory' : α} {calls : List Call}

/-! ### Slots in order -/

/-- An entry that comes after all others goes to the end of the order and, where no slot is vacant,
into the first one that was never used. -/
theorem Inserted.at_end (hi : target.Inserted [] path x e capacity after rest)
    (h : target.Sound (plug path absent) [])
    (ho : OrdersKeys target.comparator.compare target.keySize) (he : e.key.length = target.keySize)
    (hlast : ∀ d ∈ (plug path absent).entries, target.comparator.compare d.key e.key = .lt) :
    rest = [] ∧ x.index = (plug path absent).size ∧
      (withLeaf path x e).inorder = (plug path absent).inorder ++ [(x, e)] := by
  have hlive := h.wellFormed.live_add
  have hsize := h.live_eq
  rcases hi.slot with hslot | ⟨-, rfl, hindex⟩
  · cases hslot
  refine ⟨rfl, by rw [hindex, ← hlive, hsize]; rfl, ?_⟩
  have hafter : pathAfter path = [] := by
    by_contra hne
    obtain ⟨pair, hpair⟩ := List.exists_mem_of_ne_nil _ hne
    have hmem : pair.2 ∈ (pathAfter path).map Prod.snd := List.mem_map_of_mem hpair
    have hascending := hi.sound.ordered (by rw [hi.akin.comparator, hi.akin.keySize]; exact ho)
    rw [hi.akin.comparator, entries_withLeaf] at hascending
    have hlt := List.rel_of_pairwise_cons (List.pairwise_append.mp hascending).2.1 hmem
    have hother : pair.2 ∈ (plug path absent).entries := by
      rw [entries_plug_absent]
      exact List.mem_append_right _ hmem
    have hgt := (ho.lt_iff_gt (h.length_key _ hother) he).mp (hlast _ hother)
    rw [hgt] at hlt
    cases hlt
  simp [inorder_plug, inorder, hafter]

/-- Entries copied in order, one slot after the other. -/
theorem numbered_of_copyWithin {pre post : List (Handle × Entry)} {fuel : Nat}
    (hsource : source.Sound s vacant)
    (ho : OrdersKeys source.comparator.compare source.keySize) (hs : s.inorder = pre ++ post)
    (htarget : target.Sound t []) (hakin : Akin source target)
    (hentries : t.entries = pre.map Prod.snd)
    (hslots : t.handles.map Handle.index = List.range t.size)
    (hcopy : copyWithin source fuel (post.head?.map Prod.fst) target memory =
      .ok ⟨⟨.ok (), after, memory'⟩, calls⟩) :
    ∃ t', after.Sound t' [] ∧ t'.entries = s.entries ∧
      t'.handles.map Handle.index = List.range t'.size := by
  induction post generalizing pre target t fuel memory calls with
  | nil =>
    rw [List.head?_nil, Option.map_none, copyWithin.eq_def] at hcopy
    cases hcopy
    refine ⟨t, htarget, ?_, hslots⟩
    rw [hentries, Shape.entries, hs, List.append_nil]
  | cons pair post ih =>
    obtain ⟨x, e⟩ := pair
    have hmem : (x, e) ∈ s.inorder := by simp [hs]
    obtain ⟨node, hnode, rfl⟩ := hsource.hasShape.exists_node_of_mem hmem
    obtain ⟨fuel, rfl⟩ : ∃ k, fuel = k + 1 := by
      cases fuel with
      | zero => cases hcopy
      | succ k => exact ⟨k, rfl⟩
    rw [List.head?_cons, Option.map_some, copyWithin, hnode, ok_bind] at hcopy
    rcases htarget.insert_cases memory node.entry.key node.entry.value with
      ⟨cause, calls', heq, -⟩ | ⟨cause, memory'', calls', -, heq⟩ |
        ⟨path, y, capacity, middle, mid, rest, calls', -, heq, rfl, hinserted⟩
    · rw [heq] at hcopy
      cases hcopy
    · rw [heq] at hcopy
      cases hcopy
    · have hinserted : target.Inserted [] path y node.entry capacity mid rest := hinserted
      have hnext : source.successor x = .ok (post.head?.map Prod.fst) :=
        hsource.hasShape.neighbor (show s.toward .right = pre ++ (x, node.entry) :: post from hs)
      rw [heq, ok_bind] at hcopy
      simp only [hnext, ok_bind] at hcopy
      obtain ⟨⟨outcome, calls''⟩, hrest, hend⟩ := bind_eq_ok_iff.mp hcopy
      cases hend
      -- The key comes after those that were copied before.
      have hadmits := hsource.admits node.entry (List.mem_map_of_mem hmem)
      have hascending := hsource.ordered ho
      rw [Shape.entries, hs, List.map_append, List.map_cons] at hascending
      have hlast : ∀ d ∈ (plug path absent).entries,
          target.comparator.compare d.key node.entry.key = .lt := by
        intro d hd
        rw [hentries] at hd
        rw [hakin.comparator]
        exact (List.pairwise_append.mp hascending).2.2 d hd _ List.mem_cons_self
      have hto : OrdersKeys target.comparator.compare target.keySize := by
        rw [hakin.comparator, hakin.keySize]
        exact ho
      obtain ⟨rfl, hindex, hinorder⟩ :=
        hinserted.at_end htarget hto (hadmits.akin hakin).1 hlast
      have hs' : s.inorder = (pre ++ [(x, node.entry)]) ++ post := by simp [hs]
      refine ih hs' hinserted.sound (hakin.trans hinserted.akin) ?_ ?_ hrest
      · rw [Shape.entries, hinorder, List.map_append, ← Shape.entries, hentries, List.map_append]
        rfl
      · rw [Shape.handles, hinorder, List.map_append, ← Shape.handles, List.map_append, hslots,
          size_withLeaf, List.range_succ, ← hindex]
        rfl

/-- The slots of a clone are numbered in order. -/
theorem Sound.numbered_of_clone (h : tree.Sound s vacant)
    (ho : OrdersKeys tree.comparator.compare tree.keySize)
    (hclone : tree.clone memory = .ok ⟨(.ok copy, memory'), calls⟩) :
    ∃ t, copy.Sound t [] ∧ t.entries = s.entries ∧
      t.handles.map Handle.index = List.range t.size := by
  rw [clone] at hclone
  rcases hmade : withCapacity tree.keySize tree.valueSize tree.size tree.comparator memory with
    ⟨_ | target, middle⟩
  · rw [hmade] at hclone
    cases hclone
  · rw [hmade] at hclone
    obtain ⟨htarget, hlayouts, hcomparator⟩ := Sound.ofWithCapacity hmade
    obtain ⟨hkey, hvalue⟩ := Prod.mk.inj (Except.ok.inj (hlayouts.symm.trans h.layouts))
    obtain ⟨first, hfirst, hclone⟩ := bind_eq_ok_iff.mp hclone
    obtain ⟨⟨⟨answer, copied, last⟩, calls'⟩, hcopied, hclone⟩ := bind_eq_ok_iff.mp hclone
    obtain rfl : s.inorder.head?.map Prod.fst = first :=
      Except.ok.inj (h.hasShape.outermost.symm.trans hfirst)
    cases answer with
    | error cause =>
      obtain ⟨_, -, hend⟩ := bind_eq_ok_iff.mp hclone
      cases hend
    | ok =>
      cases hclone
      exact numbered_of_copyWithin h ho (List.nil_append s.inorder).symm htarget
        ⟨hkey, hvalue, hcomparator⟩ rfl rfl hcopied

/-! ### Clones -/

/-- A map and its clone: the same entries, in the slots of a table that is just large enough,
numbered in order. -/
structure Clones (tree copy : Tree) : Prop where
  reachable : Reachable copy
  keySize : copy.keySize = tree.keySize
  valueSize : copy.valueSize = tree.valueSize
  comparator : copy.comparator = tree.comparator
  capacity : copy.capacity = tree.size
  entries : ∃ stored drawing, tree.entries = .ok stored ∧ copy.entries = .ok stored ∧
    Ascending copy.comparator.compare stored ∧ copy.RedBlack drawing ∧ drawing.entries = stored ∧
    drawing.handles.map Handle.index = List.range tree.size
  same : tree.sameEntries copy = .ok true
  same' : copy.sameEntries tree = .ok true

theorem Reachable.clones (hr : Reachable tree)
    (ho : OrdersKeys tree.comparator.compare tree.keySize)
    (hclone : tree.clone memory = .ok ⟨(.ok copy, memory'), calls⟩) : tree.Clones copy := by
  obtain ⟨s, vacant, h⟩ := hr.sound
  obtain ⟨t, ht, hentries, hslots⟩ := h.numbered_of_clone ho hclone
  obtain ⟨copy', _, _, heq, hfilled, -⟩ | ⟨_, _, _, _, _, heq, -⟩ := h.clone_cases memory
  swap
  · rw [hclone] at heq
    cases heq
  rw [hclone] at heq
  cases heq
  have hakin : Akin tree copy := ⟨hfilled.akin.1, hfilled.akin.2, hfilled.akin.3⟩
  have hsize : t.size = tree.size := by
    have hlength := congrArg List.length hentries
    rw [Shape.entries, List.length_map, Shape.entries, List.length_map] at hlength
    exact hlength.trans h.size_eq.symm
  refine ⟨?_, hakin.keySize, hakin.valueSize, hakin.comparator, hfilled.capacity,
    ⟨s.entries, t.drawing none, h.hasShape.entries h.live_eq, ?_, ?_, ht.redBlack, ?_, ?_⟩, ?_, ?_⟩
  · obtain ⟨last, hdispose⟩ : ∃ last, tree.dispose memory' = .ok last :=
      ⟨_, h.hasShape.dispose memory'⟩
    have hrun : Operation.run .becomeClone tree memory = .ok (copy, last) := by
      rw [Operation.run, hclone, ok_bind]
      dsimp only
      rw [hdispose]
      rfl
    exact .step hr (show Operation.Permitted tree .becomeClone from trivial) hrun
  · rw [ht.hasShape.entries ht.live_eq, hentries]
  · rw [hakin.comparator]
    exact h.ordered ho
  · rw [entries_drawing, hentries]
  · rw [handles_drawing, hslots, hsize]
  · rw [h.sameEntries_eq ht, hentries, decide_eq_true rfl]
  · rw [ht.sameEntries_eq h, hentries, decide_eq_true rfl]

/-- The requests of a clone come to a slot table that is just large enough and to two blocks for
each entry. -/
theorem cloneRequests_eq (tree : Tree) :
    (tree.cloneRequests.map Layout.size).sum =
        tree.size * (Node.footprint + tree.keySize + tree.valueSize) ∧
      tree.cloneRequests.length = 2 * tree.size + if tree.size = 0 then 0 else 1 := by
  rw [cloneRequests, List.map_append, List.sum_append, sum_copyRequests, List.length_append,
    length_copyRequests, Nat.add_assoc Node.footprint, Nat.add_comm (List.length _)]
  rcases Nat.eq_zero_or_pos tree.size with hzero | hpos
  · rw [hzero, Arena.tableBlocks_zero]
    exact ⟨by simp, rfl⟩
  · rw [Arena.tableBlocks_of_pos (by decide) hpos, if_neg (Nat.ne_of_gt hpos)]
    exact ⟨(Nat.mul_add _ _ _).symm, rfl⟩

/-- Under a budget over a generous memory a clone is made exactly if its requests fit into what
remains, and then it is granted all of them. Otherwise the counters show nothing of the attempt. -/
theorem Reachable.clone_outcome (hr : Reachable tree)
    (ho : OrdersKeys tree.comparator.compare tree.keySize) {budget : Budget α}
    (hg : Allocator.Generous budget.inner) :
    (tree.size * (Node.footprint + tree.keySize + tree.valueSize) ≤ budget.remaining ∧
        ∃ copy calls, ∃ recorded : Recorded (Budget α),
          tree.clone (⟨budget, []⟩ : Recorded (Budget α)) = .ok ⟨(.ok copy, recorded), calls⟩ ∧
          tree.Clones copy ∧ recorded.requests = recorded.granted ∧
          recorded.granted.length = 2 * tree.size + if tree.size = 0 then 0 else 1) ∨
      (¬ tree.size * (Node.footprint + tree.keySize + tree.valueSize) ≤ budget.remaining ∧
        ∃ calls, ∃ recorded : Recorded (Budget α),
          tree.clone (⟨budget, []⟩ : Recorded (Budget α)) =
            .ok ⟨(.error .noMemory, recorded), calls⟩ ∧
          recorded.memory.inUse = budget.inUse ∧ recorded.memory.live = budget.live) := by
  obtain ⟨s, vacant, h⟩ := hr.sound
  obtain ⟨hsum, hlength⟩ := tree.cloneRequests_eq
  have hfits := Budget.grantedBefore_lt_iff hg tree.cloneRequests
  rw [hsum] at hfits
  have hsame := Recorded.translation.toTranslation.grantedBefore tree.cloneRequests
    (⟨budget, []⟩ : Recorded (Budget α))
  dsimp only at hsame
  rcases h.clone_cases (⟨budget, []⟩ : Recorded (Budget α)) with
    ⟨copy, recorded, calls, heq, -, hgrants⟩ |
      ⟨cause, gs, rs, recorded, calls, heq, hperm, htraffic, hcause⟩
  · obtain ⟨hrequests, hgranted⟩ := hgrants.lists_eq
    have hall := hgrants.grantedBefore_append []
    rw [List.append_nil, ← hsame] at hall
    refine Or.inl ⟨?_, copy, calls, recorded, heq, hr.clones ho heq, ?_, ?_⟩
    · by_contra hno
      have hlt := hfits.mpr (Nat.lt_of_not_le hno)
      omega
    · rw [hrequests, hgranted]
      rfl
    · rw [hgranted, ← hlength]
      rfl
  · rcases hcause with ⟨rfl, hcount, hlt⟩ | ⟨-, k, hrepeats, -⟩
    · rw [hcount, ← hsame] at hlt
      have husage := htraffic.unrecorded.usage_eq.trans (budget.usage.settle_perm hperm)
      exact Or.inr ⟨Nat.not_le.mpr (hfits.mp hlt), calls, recorded, heq,
        congrArg Usage.inUse husage, congrArg Usage.live husage⟩
    · exact absurd hrepeats (h.not_repeats ho)

end Tree

end MeteredMap
