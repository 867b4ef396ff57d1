import Mathlib.Data.Set.Basic
import MeteredMap.Proofs.Tree.Reachability
import MeteredMap.Proofs.Tree.RedBlack

/-!
# Equality of maps

Two maps are equal if their entries, read in order, are the same. What else went into them does not
count: in which order the entries came, what was removed, where the nodes lie and how they are
linked. Under one comparator that orders the keys, the order of the entries follows from the set of
them, so that equal maps are those with the same entries.

## Main results

* `MeteredMap.transCmp_lexCompare`, `MeteredMap.lawfulEqCmp_lexCompare` : dictionary order is a
  total order of the byte strings.
* `MeteredMap.Ascending.eq_of_mem_iff` : ascending entries are determined by their set.
* `MeteredMap.Tree.Reachable.sameEntries_iff` : equality of reachable trees.
-/

namespace MeteredMap

/-! ### Dictionary order -/

/-- Dictionary order is a total order of the byte strings. -/
instance transCmp_lexCompare : Std.TransCmp Blob.lexCompare :=
  inferInstanceAs (Std.TransCmp (List.compareLex Ord.compare))

/-- In dictionary order only identical byte strings count as equal. -/
instance lawfulEqCmp_lexCompare : Std.LawfulEqCmp Blob.lexCompare :=
  inferInstanceAs (Std.LawfulEqCmp (List.compareLex Ord.compare))

/-- A total order of the byte strings orders the keys of every length. -/
theorem OrdersKeys.ofTransCmp (compare : Blob → Blob → Ordering) [Std.TransCmp compare]
    (size : Nat) : OrdersKeys compare size :=
  .ofImage compare id size

variable {compare : Blob → Blob → Ordering} {size : Nat}

/-! ### Ascending entries as sets -/

namespace Ascending

variable {entries others : List Entry}

theorem nodup (h : Ascending compare entries) (ho : OrdersKeys compare size)
    (hlength : ∀ d ∈ entries, d.key.length = size) : entries.Nodup := by
  refine h.imp_of_mem fun {d e} hd _ hlt heq => ?_
  rw [← heq, ho.eq_refl (hlength d hd)] at hlt
  cases hlt

/-- Ascending entries are determined by their set. -/
theorem eq_of_mem_iff (h : Ascending compare entries) (h' : Ascending compare others)
    (ho : OrdersKeys compare size) (hlength : ∀ d ∈ entries, d.key.length = size)
    (hmem : ∀ d, d ∈ entries ↔ d ∈ others) : entries = others := by
  have hlength' : ∀ d ∈ others, d.key.length = size := fun d hd => hlength d ((hmem d).mpr hd)
  have hperm : entries.Perm others :=
    (List.perm_ext_iff_of_nodup (h.nodup ho hlength) (h'.nodup ho hlength')).mpr hmem
  refine hperm.eq_of_pairwise (fun d e hd he hlt hgt => ?_) h h'
  rw [ho.lt_iff_gt (hlength d hd) (hlength' e he), hgt] at hlt
  cases hlt

end Ascending

namespace Tree

variable {tree other : Tree} {s t : Shape} {vacant rest : List Handle}

/-! ### Equality of trees -/

/-- Equality compares the entries in order. -/
theorem Sound.sameEntries_eq (h : tree.Sound s vacant) (h' : other.Sound t rest) :
    tree.sameEntries other = .ok (decide (s.entries = t.entries)) := by
  rw [sameEntries, h.hasShape.entries h.live_eq, h'.hasShape.entries h'.live_eq]
  split_ifs with hsize
  · rfl
  · have hne : s.entries ≠ t.entries := by
      intro heq
      have hlength := congrArg List.length heq
      rw [Shape.entries, List.length_map, Shape.entries, List.length_map] at hlength
      exact hsize (h.size_eq.trans (hlength.trans h'.size_eq.symm))
    rw [decide_eq_false hne]
    rfl

/-- Under one comparator that orders the keys of both trees, the same set of entries means the same
entries in order. Keys that count as equal need not be identical for that. -/
theorem Sound.entries_eq_iff (h : tree.Sound s vacant) (h' : other.Sound t rest)
    (hcompare : tree.comparator.compare = other.comparator.compare)
    (ho : OrdersKeys tree.comparator.compare tree.keySize)
    (ho' : OrdersKeys other.comparator.compare other.keySize) :
    s.entries = t.entries ↔ {e | e ∈ s.entries} = {e | e ∈ t.entries} := by
  constructor
  · intro heq
    rw [heq]
  · intro hset
    have hother := h'.ordered ho'
    rw [← hcompare] at hother
    exact (h.ordered ho).eq_of_mem_iff hother ho h.length_key (Set.ext_iff.mp hset)

/-- For any two reachable trees, equality compares the entries that are met from left to right. If
one comparator orders the keys of both, it compares the sets of entries. Dictionary order is a total
order of all byte strings, so it orders the keys of every length. -/
theorem Reachable.sameEntries_iff (h : Reachable tree) (h' : Reachable other) :
    (∃ d e equal, tree.drawing = .ok d ∧ other.drawing = .ok e ∧
      tree.entries = .ok d.entries ∧ other.entries = .ok e.entries ∧
      tree.sameEntries other = .ok equal ∧ (equal = true ↔ d.entries = e.entries) ∧
      (tree.comparator.compare = other.comparator.compare →
        OrdersKeys tree.comparator.compare tree.keySize →
        OrdersKeys other.comparator.compare other.keySize →
        (equal = true ↔ {x | x ∈ d.entries} = {x | x ∈ e.entries}))) ∧
      Std.TransCmp Comparator.lexicographic.compare ∧
      Std.LawfulEqCmp Comparator.lexicographic.compare ∧
      ∀ size, OrdersKeys Comparator.lexicographic.compare size := by
  obtain ⟨s, vacant, hs⟩ := h.sound
  obtain ⟨t, rest, ht⟩ := h'.sound
  refine ⟨⟨_, _, _, hs.hasShape.drawing, ht.hasShape.drawing, ?_, ?_, hs.sameEntries_eq ht, ?_, ?_⟩,
    transCmp_lexCompare, lawfulEqCmp_lexCompare, .ofTransCmp Blob.lexCompare⟩
  · rw [hs.hasShape.entries hs.live_eq, Shape.entries_drawing]
  · rw [ht.hasShape.entries ht.live_eq, Shape.entries_drawing]
  · rw [Shape.entries_drawing, Shape.entries_drawing, decide_eq_true_iff]
  · intro hcompare ho ho'
    rw [Shape.entries_drawing, Shape.entries_drawing, decide_eq_true_iff]
    exact hs.entries_eq_iff ht hcompare ho ho'

/-- Five entries in ascending order. -/
def sampleAscending : List Operation :=
  [.insert [1] [10], .insert [2] [20], .insert [3] [30], .insert [4] [40], .insert [5] [50]]

/-- The same entries in descending order, after one that is removed again. -/
def sampleDescending : List Operation :=
  [.insert [9] [90], .insert [5] [50], .remove [9], .insert [4] [40], .insert [3] [30],
    .insert [2] [20], .insert [1] [10]]

theorem Reachable.sameEntries_iff_sample :
    ∃ (left right : Tree) (a b : Heap) (d e : Drawing),
      Operation.runAll sampleAscending sampleTree (Heap.mk none) = .ok (left, a) ∧
      Operation.runAll sampleDescending sampleTree (Heap.mk none) = .ok (right, b) ∧
      left.drawing = .ok d ∧ right.drawing = .ok e ∧ d.handles ≠ e.handles ∧
      left.sameEntries right = .ok true ∧ {x | x ∈ d.entries} = {x | x ∈ e.entries} := by
  have hpermitted : Operation.AllPermitted sampleAscending sampleTree (Heap.mk none) :=
    ⟨trivial, trivial, trivial, trivial, trivial, trivial⟩
  have hpermitted' : Operation.AllPermitted sampleDescending sampleTree (Heap.mk none) :=
    ⟨trivial, trivial, trivial, trivial, trivial, trivial, trivial, trivial⟩
  obtain ⟨left, a, hrun, hleft⟩ :=
    Operation.exists_runAll sampleAscending sampleTree_reachable (Heap.mk none) hpermitted
  obtain ⟨right, b, hrun', hright⟩ :=
    Operation.exists_runAll sampleDescending sampleTree_reachable (Heap.mk none) hpermitted'
  have hfacts : (do
      let (left, _) ← Operation.runAll sampleAscending sampleTree (Heap.mk none)
      let (right, _) ← Operation.runAll sampleDescending sampleTree (Heap.mk none)
      return ((← left.drawing).handles.map Handle.index, (← right.drawing).handles.map Handle.index,
        ← left.sameEntries right, left.keySize, right.keySize)) =
      Except.ok ([0, 1, 2, 3, 4], [4, 3, 2, 0, 1], true, 1, 1) := rfl
  have hcomparators : (do
      let (left, _) ← Operation.runAll sampleAscending sampleTree (Heap.mk none)
      let (right, _) ← Operation.runAll sampleDescending sampleTree (Heap.mk none)
      return (left.comparator, right.comparator)) =
      Except.ok (.lexicographic, .lexicographic) := rfl
  obtain ⟨⟨d, e, equal, hd, he, -, -, hequal, -, hset⟩, -, -, horders⟩ :=
    sameEntries_iff hleft hright
  simp only [hrun, hrun', hd, he, hequal, ok_bind, pure_eq_ok, Except.ok.injEq, Prod.mk.injEq]
    at hfacts hcomparators
  obtain ⟨hhandles, hhandles', rfl, hkey, hkey'⟩ := hfacts
  obtain ⟨hc, hc'⟩ := hcomparators
  rw [hc, hc', hkey, hkey'] at hset
  refine ⟨left, right, a, b, d, e, hrun, hrun', hd, he, ?_, hequal,
    (hset rfl (horders 1) (horders 1)).mp rfl⟩
  intro heq
  rw [heq, hhandles'] at hhandles
  cases hhandles

end Tree

end MeteredMap
