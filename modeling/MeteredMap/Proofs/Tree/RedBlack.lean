import MeteredMap.Comparator.Orders
import MeteredMap.Proofs.Tree.Reachability

/-!
# Red-black structure

What holds of the links of a reachable tree, read off its drawing: the nodes as they lie in their
slots, nested as the child links lead. The comparator plays no part in it, and neither do the
requests that were refused on the way.

## Main definitions

* `MeteredMap.Drawing.LinksBack` : every parent link leads back to where the node was reached from.
* `MeteredMap.Drawing.NoRedPair` : no red node has a red child.
* `MeteredMap.Drawing.blackCounts`, `MeteredMap.Drawing.EvenlyBlack` : the black nodes on the ways
  down, and that from every node they are equally many.
* `MeteredMap.Tree.RedBlack` : all of it together, for a tree and its drawing.

## Main results

* `MeteredMap.Tree.Reachable.red_black` : reachable trees are red-black trees.
-/

namespace MeteredMap

namespace Drawing

/-- The handles of the nodes, in order. -/
def handles : Drawing → List Handle
  | absent => []
  | node handle _ left right => left.handles ++ handle :: right.handles

/-- The entries of the nodes, in order. -/
def entries : Drawing → List Entry
  | absent => []
  | node _ n left right => left.entries ++ n.entry :: right.entries

/-- The colour of the uppermost node. What is absent counts as black. -/
def color : Drawing → Color
  | absent => .black
  | node _ n .. => n.color

/-- Every parent link leads back to the node whose child link led here. -/
def LinksBack : Option Handle → Drawing → Prop
  | _, absent => True
  | parent, node handle n left right =>
    n.parent = parent ∧ left.LinksBack (some handle) ∧ right.LinksBack (some handle)

/-- No red node has a red child. -/
def NoRedPair : Drawing → Prop
  | absent => True
  | node _ n left right =>
    (n.color = .red → left.color = .black ∧ right.color = .black) ∧
      left.NoRedPair ∧ right.NoRedPair

/-- The number of black nodes on each way down to an absent child. -/
def blackCounts : Drawing → List Nat
  | absent => [0]
  | node _ n left right =>
    (left.blackCounts ++ right.blackCounts).map (· + if n.color = .black then 1 else 0)

/-- From every node, all ways down meet the same number of black nodes. -/
def EvenlyBlack : Drawing → Prop
  | absent => True
  | node handle n left right =>
    (∀ m ∈ (Drawing.node handle n left right).blackCounts,
        ∀ k ∈ (Drawing.node handle n left right).blackCounts, m = k) ∧
      left.EvenlyBlack ∧ right.EvenlyBlack

end Drawing

namespace Shape

variable {s : Shape} {n : Nat}

@[simp] theorem handles_drawing (s : Shape) (parent : Option Handle) :
    (s.drawing parent).handles = s.handles := by
  induction s generalizing parent with
  | absent => rfl
  | node c x e l r ihl ihr =>
    rw [drawing, Drawing.handles, ihl, ihr]
    simp [handles, inorder]

@[simp] theorem entries_drawing (s : Shape) (parent : Option Handle) :
    (s.drawing parent).entries = s.entries := by
  induction s generalizing parent with
  | absent => rfl
  | node c x e l r ihl ihr =>
    rw [drawing, Drawing.entries, ihl, ihr]
    simp [entries, inorder]

@[simp] theorem color_drawing (s : Shape) (parent : Option Handle) :
    (s.drawing parent).color = s.color := by
  cases s <;> rfl

theorem linksBack_drawing (s : Shape) (parent : Option Handle) :
    (s.drawing parent).LinksBack parent := by
  induction s generalizing parent with
  | absent => exact trivial
  | node c x e l r ihl ihr => exact ⟨rfl, ihl _, ihr _⟩

theorem Balanced.noRedPair (h : s.Balanced n) (parent : Option Handle) :
    (s.drawing parent).NoRedPair := by
  induction h generalizing parent with
  | absent => exact trivial
  | red hlc hrc hl hr ihl ihr =>
    exact ⟨fun _ => ⟨(color_drawing _ _).trans hlc, (color_drawing _ _).trans hrc⟩, ihl _, ihr _⟩
  | black hl hr ihl ihr => exact ⟨fun hc => (by cases hc), ihl _, ihr _⟩

theorem Balanced.blackCounts_eq (h : s.Balanced n) (parent : Option Handle) :
    ∀ m ∈ (s.drawing parent).blackCounts, m = n := by
  induction h generalizing parent with
  | absent => exact fun m hm => List.mem_singleton.mp hm
  | red hlc hrc hl hr ihl ihr =>
    intro m hm
    obtain ⟨k, hk, rfl⟩ := List.mem_map.mp hm
    exact (List.mem_append.mp hk).elim (ihl _ k) (ihr _ k)
  | black hl hr ihl ihr =>
    intro m hm
    obtain ⟨k, hk, rfl⟩ := List.mem_map.mp hm
    exact congrArg (· + 1) ((List.mem_append.mp hk).elim (ihl _ k) (ihr _ k))

theorem Balanced.evenlyBlack (h : s.Balanced n) (parent : Option Handle) :
    (s.drawing parent).EvenlyBlack := by
  have heven : ∀ {s : Shape} {n : Nat} (parent : Option Handle), s.Balanced n →
      ∀ m ∈ (s.drawing parent).blackCounts, ∀ k ∈ (s.drawing parent).blackCounts, m = k :=
    fun parent h m hm k hk =>
      (h.blackCounts_eq parent m hm).trans (h.blackCounts_eq parent k hk).symm
  induction h generalizing parent with
  | absent => exact trivial
  | red hlc hrc hl hr ihl ihr => exact ⟨heven parent (.red hlc hrc hl hr), ihl _, ihr _⟩
  | black hl hr ihl ihr => exact ⟨heven parent (.black hl hr), ihl _, ihr _⟩

end Shape

namespace Tree

variable {tree : Tree}

/-- The links of the tree, as they are drawn, are those of a red-black tree, from a black root
without a parent down to every occupied slot once and to no other. -/
structure RedBlack (tree : Tree) (drawing : Drawing) : Prop where
  drawn : tree.drawing = .ok drawing
  black : drawing.color = .black
  linksBack : drawing.LinksBack none
  noRedPair : drawing.NoRedPair
  evenlyBlack : drawing.EvenlyBlack
  nodup : drawing.handles.Nodup
  live (x : Handle) : x ∈ drawing.handles ↔ (tree.nodes.get? x).isSome
  length_eq : drawing.handles.length = tree.size

theorem Sound.redBlack {s : Shape} {vacant : List Handle} (h : tree.Sound s vacant) :
    tree.RedBlack (s.drawing none) := by
  obtain ⟨n, hn⟩ := h.balanced
  refine ⟨h.hasShape.drawing, ?_, s.linksBack_drawing none, hn.noRedPair none,
    hn.evenlyBlack none, ?_, fun x => ?_, ?_⟩
  · rw [Shape.color_drawing, h.black]
  · rw [Shape.handles_drawing]
    exact h.hasShape.nodup
  · rw [Shape.handles_drawing]
    exact h.hasShape.mem_handles_iff
  · rw [Shape.handles_drawing, Shape.length_handles, h.size_eq]

/-- Reachable trees are red-black trees: their links lead from a black root without a parent down
to every occupied slot once and to no other, parent links lead back, no red node has a red child,
and from every node all ways down meet the same number of black nodes. -/
theorem Reachable.red_black (h : Reachable tree) :
    ∃ drawing, tree.drawing = .ok drawing ∧
      drawing.color = .black ∧ drawing.LinksBack none ∧ drawing.NoRedPair ∧ drawing.EvenlyBlack ∧
      drawing.handles.Nodup ∧ (∀ x, x ∈ drawing.handles ↔ (tree.nodes.get? x).isSome) ∧
      drawing.handles.length = tree.size := by
  obtain ⟨s, vacant, hs⟩ := h.sound
  have hrb := hs.redBlack
  exact ⟨s.drawing none, hrb.drawn, hrb.black, hrb.linksBack, hrb.noRedPair, hrb.evenlyBlack,
    hrb.nodup, hrb.live, hrb.length_eq⟩

theorem Reachable.red_black_sample :
    ∃ after memory' drawing,
      Operation.runAll sampleRun sampleTree sampleMemory = .ok (after, memory') ∧
      after.drawing = .ok drawing ∧
      drawing.color = .black ∧ drawing.LinksBack none ∧ drawing.NoRedPair ∧ drawing.EvenlyBlack ∧
      drawing.handles.Nodup ∧ (∀ x, x ∈ drawing.handles ↔ (after.nodes.get? x).isSome) ∧
      drawing.handles.length = after.size := by
  obtain ⟨after, memory', hrun, hafter⟩ :=
    Operation.exists_runAll sampleRun sampleTree_reachable sampleMemory sampleRun_permitted
  obtain ⟨drawing, hdrawing⟩ := Reachable.red_black hafter
  exact ⟨after, memory', drawing, hrun, hdrawing⟩

end Tree

end MeteredMap
