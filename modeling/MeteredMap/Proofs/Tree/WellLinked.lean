import Mathlib.Data.Fintype.Card
import Mathlib.Data.Fintype.EquivFin
import Mathlib.Logic.Relation
import MeteredMap.Proofs.Shape.Order
import MeteredMap.Proofs.Tree.Walks

/-!
# Well-linked trees

What makes the links of a tree those of a tree, said of the links one by one: whatever they lead to
from the root down is an occupied slot, child links and parent links agree, the root has no parent,
no node is a child on both sides, and no way down comes back to where it started. Colours, entries
and slots that no link leads to may be anything.

A tree is well linked exactly if its links spell out a shape (`MeteredMap.Tree.wellLinked_iff`). The
shape is found by following the links down, which ends because there are only so many handles, and
nothing is met twice because every node has one parent.

## Main definitions

* `MeteredMap.Port` : the places where a tree keeps its links.
* `MeteredMap.Tree.target` : where the link in a place leads.
* `MeteredMap.Tree.LeadsTo`, `MeteredMap.Tree.Reaches` : one step down, and all that is below the
  root.
* `MeteredMap.Tree.WellLinked` : the links agree with each other.
* `MeteredMap.Tree.Traces` : the links from the root down spell out a shape.

## Main results

* `MeteredMap.Tree.WellLinked.of_back` : it is enough that parent links lead back.
* `MeteredMap.Tree.wellLinked_iff` : well-linked trees are those that trace a shape.
-/

namespace MeteredMap

instance : Finite Handle :=
  Finite.of_injective (fun x : Handle => (⟨x.index, Nat.lt_succ_of_le x.index_le⟩ : Fin 4294967295))
    fun x y h => by
      by_contra hne
      exact Handle.index_ne hne (Fin.mk.inj h)

/-- A place where a tree keeps a link. -/
inductive Port where
  /-- The root reference. -/
  | root
  /-- The parent link of a node. -/
  | parent (node : Handle)
  /-- The child link of a node on a side. -/
  | child (node : Handle) (side : Side)
  deriving DecidableEq

namespace Tree

open Relation Shape

/-- Where the link in a place leads, if there is one. -/
def target (tree : Tree) : Port → Option Handle
  | .root => tree.root
  | .parent x => (tree.nodes.get? x).bind Node.parent
  | .child x side => (tree.nodes.get? x).bind (·.child side)

/-- A child link leads from one node to another. -/
def LeadsTo (tree : Tree) (x y : Handle) : Prop :=
  ∃ side, tree.target (.child x side) = some y

/-- Child links lead down to a node from the root. -/
def Reaches (tree : Tree) (x : Handle) : Prop :=
  ∃ root, tree.root = some root ∧ ReflTransGen tree.LeadsTo root x

/-- The links from the root down agree with each other. -/
structure WellLinked (tree : Tree) : Prop where
  /-- Links lead to nodes. -/
  occupied {x : Handle} : tree.Reaches x → (tree.nodes.get? x).isSome
  /-- The root has no parent. -/
  root_parent {x : Handle} : tree.root = some x → tree.target (.parent x) = none
  /-- A parent link leads to the node whose child link leads back, and to no other. -/
  parent_iff {x y : Handle} : tree.Reaches y →
    (tree.target (.parent y) = some x ↔ tree.Reaches x ∧ tree.LeadsTo x y)
  /-- The two children of a node are different. -/
  apart {x y : Handle} {side : Side} : tree.Reaches x →
    tree.target (.child x side) = some y → tree.target (.child x side.other) ≠ some y
  /-- No way down comes back to where it started. -/
  acyclic {x : Handle} : tree.Reaches x → ¬ TransGen tree.LeadsTo x x

/-- The links from the root down spell out a shape. Other slots may be occupied as well. -/
structure Traces (tree : Tree) (s : Shape) : Prop where
  root_eq : tree.root = s.root
  linked : s.Linked tree.nodes.get? none
  nodup : s.handles.Nodup

variable {tree : Tree} {s a b : Shape} {x y z : Handle} {n : Node} {side : Side} {c : Color}
  {e : Entry} {path : List Frame} {p : Option Handle}

theorem target_parent_of_get? (h : tree.nodes.get? x = some n) :
    tree.target (.parent x) = n.parent := by
  rw [target, h, Option.bind_some]

theorem target_child_of_get? (h : tree.nodes.get? x = some n) (side : Side) :
    tree.target (.child x side) = n.child side := by
  rw [target, h, Option.bind_some]

/-! ### Ways down -/

theorem Reaches.of_root (h : tree.root = some x) : tree.Reaches x :=
  ⟨x, h, .refl⟩

theorem Reaches.trans (h : tree.Reaches x) (hxy : ReflTransGen tree.LeadsTo x y) :
    tree.Reaches y := by
  obtain ⟨root, hroot, hx⟩ := h
  exact ⟨root, hroot, ReflTransGen.trans hx hxy⟩

theorem Reaches.next (h : tree.Reaches x) (hxy : tree.LeadsTo x y) : tree.Reaches y :=
  h.trans (.single hxy)

/-- Whatever is reached is the root or the child of something reached. -/
theorem Reaches.cases (h : tree.Reaches y) :
    tree.root = some y ∨ ∃ x, tree.Reaches x ∧ tree.LeadsTo x y := by
  obtain ⟨root, hroot, hy⟩ := h
  rcases hy.cases_tail with rfl | ⟨x, hx, hxy⟩
  · exact Or.inl hroot
  · exact Or.inr ⟨x, ⟨root, hroot, hx⟩, hxy⟩

/-- Where parent links lead back, they lead nowhere else, and no way down is a circle. -/
theorem WellLinked.of_back (occupied : ∀ x, tree.Reaches x → (tree.nodes.get? x).isSome)
    (root_parent : ∀ x, tree.root = some x → tree.target (.parent x) = none)
    (back : ∀ x y, tree.Reaches x → tree.LeadsTo x y → tree.target (.parent y) = some x)
    (apart : ∀ x y side, tree.Reaches x → tree.target (.child x side) = some y →
      tree.target (.child x side.other) ≠ some y) : tree.WellLinked where
  occupied := occupied _
  root_parent := root_parent _
  parent_iff {x y} hy := by
    constructor
    · intro hparent
      rcases hy.cases with hroot | ⟨w, hw, hwy⟩
      · rw [root_parent y hroot] at hparent
        cases hparent
      · rw [back w y hw hwy] at hparent
        cases hparent
        exact ⟨hw, hwy⟩
    · rintro ⟨hx, hxy⟩
      exact back x y hx hxy
  apart := apart _ _ _
  acyclic {x} hx := by
    obtain ⟨root, hroot, hx⟩ := hx
    -- A circle through a node would run through its parent, and so up to the root.
    induction hx with
    | refl =>
      intro hcircle
      obtain ⟨w, hw, hlast⟩ := TransGen.tail'_iff.mp hcircle
      have hback := back w root ⟨root, hroot, hw⟩ hlast
      rw [root_parent root hroot] at hback
      cases hback
    | @tail v x hv hvx ih =>
      intro hcircle
      obtain ⟨w, hw, hlast⟩ := TransGen.tail'_iff.mp hcircle
      have hx : ReflTransGen tree.LeadsTo root x := hv.tail hvx
      have hback := back w x ⟨root, hroot, hx.trans hw⟩ hlast
      rw [back v x ⟨root, hroot, hv⟩ hvx] at hback
      cases hback
      exact ih (TransGen.head' hvx hw)

/-! ### Shapes of well-linked trees -/

namespace WellLinked

/-- Every node has one parent, so of two nodes above a third one is above the other. -/
theorem above_or_above (h : tree.WellLinked) (hx : tree.Reaches x) (hy : tree.Reaches y)
    (hxz : ReflTransGen tree.LeadsTo x z) (hyz : ReflTransGen tree.LeadsTo y z) :
    ReflTransGen tree.LeadsTo x y ∨ ReflTransGen tree.LeadsTo y x := by
  induction hxz with
  | refl => exact Or.inr hyz
  | @tail v z hxv hvz ih =>
    rcases hyz.cases_tail with rfl | ⟨w, hyw, hwz⟩
    · exact Or.inl (hxv.tail hvz)
    · have hz := (hx.trans hxv).next hvz
      have hv := (h.parent_iff hz).mpr ⟨hx.trans hxv, hvz⟩
      rw [(h.parent_iff hz).mpr ⟨hy.trans hyw, hwz⟩] at hv
      cases hv
      exact ih hyw

/-- No way leads down from a child of a node to its other child. -/
theorem not_above_sibling (h : tree.WellLinked) (hx : tree.Reaches x)
    (hy : tree.target (.child x side) = some y)
    (hz : tree.target (.child x side.other) = some z) : ¬ ReflTransGen tree.LeadsTo y z := by
  intro hyz
  have hxy : tree.LeadsTo x y := ⟨side, hy⟩
  have hxz : tree.LeadsTo x z := ⟨side.other, hz⟩
  rcases hyz.cases_tail with rfl | ⟨w, hyw, hwz⟩
  · exact h.apart hx hy hz
  · have hparent := (h.parent_iff (hx.next hxz)).mpr ⟨hx, hxz⟩
    rw [(h.parent_iff (hx.next hxz)).mpr ⟨(hx.next hxy).trans hyw, hwz⟩] at hparent
    cases hparent
    exact h.acyclic hx (TransGen.head' hxy hyw)

/-- Nothing is below both children of a node. -/
theorem not_below_both {w : Handle} (h : tree.WellLinked) (hx : tree.Reaches x)
    (hy : tree.target (.child x .left) = some y) (hz : tree.target (.child x .right) = some z)
    (hyw : ReflTransGen tree.LeadsTo y w) : ¬ ReflTransGen tree.LeadsTo z w := by
  intro hzw
  rcases h.above_or_above (hx.next ⟨_, hy⟩) (hx.next ⟨_, hz⟩) hyw hzw with hyz | hzy
  · exact h.not_above_sibling hx hy hz hyz
  · exact h.not_above_sibling hx hz hy hzy

/-- Every way down ends. -/
theorem wellFounded (h : tree.WellLinked) :
    WellFounded fun y x => tree.Reaches x ∧ tree.LeadsTo x y := by
  have hdown : ∀ {y x}, TransGen (fun y x => tree.Reaches x ∧ tree.LeadsTo x y) y x →
      tree.Reaches x ∧ TransGen tree.LeadsTo x y := by
    intro y x hyx
    induction hyx with
    | single hstep => exact ⟨hstep.1, .single hstep.2⟩
    | tail _ hstep ih => exact ⟨hstep.1, .head hstep.2 ih.2⟩
  have : Std.Irrefl (TransGen fun y x => tree.Reaches x ∧ tree.LeadsTo x y) :=
    ⟨fun x hx => h.acyclic (hdown hx).1 (hdown hx).2⟩
  have hwf : WellFounded (TransGen fun y x => tree.Reaches x ∧ tree.LeadsTo x y) :=
    Finite.wellFounded_of_trans_of_irrefl _
  exact Subrelation.wf (fun {_ _} hstep => .single hstep) hwf

/-- The shape of all that is below a node. -/
theorem exists_linked (h : tree.WellLinked) (hx : tree.Reaches x) :
    ∃ s : Shape, s.root = some x ∧ s.Linked tree.nodes.get? (tree.target (.parent x)) ∧
      s.handles.Nodup ∧ ∀ z ∈ s.handles, ReflTransGen tree.LeadsTo x z := by
  induction x using h.wellFounded.induction with
  | _ x ih =>
    obtain ⟨n, hn⟩ := Option.isSome_iff_exists.mp (h.occupied hx)
    have htarget := target_child_of_get? hn
    have hchild : ∀ side, ∃ s : Shape, s.root = n.child side ∧
        s.Linked tree.nodes.get? (some x) ∧ s.handles.Nodup ∧
        ∀ z ∈ s.handles, ∃ y, n.child side = some y ∧ ReflTransGen tree.LeadsTo y z := by
      intro side
      cases hside : n.child side with
      | none => exact ⟨absent, rfl, trivial, List.nodup_nil, fun z hz => by cases hz⟩
      | some y =>
        have hxy : tree.LeadsTo x y := ⟨side, (htarget side).trans hside⟩
        obtain ⟨s, hroot, hs, hnodup, hbelow⟩ := ih y ⟨hx, hxy⟩ (hx.next hxy)
        rw [(h.parent_iff (hx.next hxy)).mpr ⟨hx, hxy⟩] at hs
        exact ⟨s, hroot, hs, hnodup, fun z hz => ⟨y, rfl, hbelow z hz⟩⟩
    obtain ⟨l, hlroot, hl, hlnodup, hlbelow⟩ := hchild .left
    obtain ⟨r, hrroot, hr, hrnodup, hrbelow⟩ := hchild .right
    have hdown : ∀ {side y z}, n.child side = some y → ReflTransGen tree.LeadsTo y z →
        TransGen tree.LeadsTo x z := fun {side y z} hy hyz =>
      TransGen.head' ⟨side, (htarget side).trans hy⟩ hyz
    refine ⟨.node n.color x n.entry l r, rfl, ⟨?_, hl, hr⟩, ?_, fun z hz => ?_⟩
    · rw [hn, hlroot, hrroot, target_parent_of_get? hn]
      rfl
    · change (branch .left n.color x n.entry l r).handles.Nodup
      rw [handles_branch_perm.nodup_iff, List.nodup_cons, List.nodup_append, List.mem_append,
        not_or]
      refine ⟨⟨fun hxl => ?_, fun hxr => ?_⟩, hlnodup, hrnodup, ?_⟩
      · obtain ⟨y, hy, hyx⟩ := hlbelow x hxl
        exact h.acyclic hx (hdown hy hyx)
      · obtain ⟨y, hy, hyx⟩ := hrbelow x hxr
        exact h.acyclic hx (hdown hy hyx)
      · rintro z hzl _ hzr rfl
        obtain ⟨y, hy, hyz⟩ := hlbelow z hzl
        obtain ⟨y', hy', hyz'⟩ := hrbelow z hzr
        exact h.not_below_both hx ((htarget .left).trans hy) ((htarget .right).trans hy') hyz hyz'
    · rcases mem_handles_node.mp hz with rfl | hz | hz
      · exact .refl
      · obtain ⟨y, hy, hyz⟩ := hlbelow z hz
        exact (hdown hy hyz).to_reflTransGen
      · obtain ⟨y, hy, hyz⟩ := hrbelow z hz
        exact (hdown hy hyz).to_reflTransGen

/-- A well-linked tree traces a shape. -/
theorem exists_traces (h : tree.WellLinked) : ∃ s, tree.Traces s := by
  cases hroot : tree.root with
  | none => exact ⟨absent, hroot, trivial, List.nodup_nil⟩
  | some x =>
    obtain ⟨s, hs, hlinked, hnodup, -⟩ := h.exists_linked (.of_root hroot)
    rw [h.root_parent hroot] at hlinked
    exact ⟨s, hroot.trans hs.symm, hlinked, hnodup⟩

end WellLinked

/-! ### Trees that trace a shape -/

/-- The parent link of the uppermost node. -/
theorem target_parent_of_linked (h : s.Linked tree.nodes.get? p) (hx : s.root = some x) :
    tree.target (.parent x) = p := by
  obtain ⟨e, a, b, hs⟩ := exists_branch_of_root .left hx
  rw [hs] at h
  rw [target_parent_of_get? (linked_branch_iff.mp h).1, Node.parent_branch]

/-- Ways down lead from the uppermost node of a linked shape to every other one. -/
theorem exists_way_of_linked (h : s.Linked tree.nodes.get? p) (hx : x ∈ s.handles) :
    ∃ y, s.root = some y ∧ ReflTransGen tree.LeadsTo y x := by
  induction s generalizing p with
  | absent => cases hx
  | node c y e l r ihl ihr =>
    obtain ⟨hy, hl, hr⟩ := h
    have hstep := target_child_of_get? hy
    refine ⟨y, rfl, ?_⟩
    rcases mem_handles_node.mp hx with rfl | hx | hx
    · exact .refl
    · obtain ⟨z, hz, hzx⟩ := ihl hl hx
      exact .head ⟨.left, (hstep .left).trans hz⟩ hzx
    · obtain ⟨z, hz, hzx⟩ := ihr hr hx
      exact .head ⟨.right, (hstep .right).trans hz⟩ hzx

namespace Traces

theorem get?_branch (h : tree.Traces (plug path (branch side c x e a b))) :
    tree.nodes.get? x = some (Node.branch side c e (above path) a.root b.root) :=
  h.linked.look_branch

theorem target_child (h : tree.Traces (plug path (branch side c x e a b))) :
    tree.target (.child x side) = a.root := by
  rw [target_child_of_get? h.get?_branch, Node.child_branch_self]

theorem target_child_other (h : tree.Traces (plug path (branch side c x e a b))) :
    tree.target (.child x side.other) = b.root := by
  rw [target_child_of_get? h.get?_branch, Node.child_branch_other]

theorem target_parent (h : tree.Traces (plug path (branch side c x e a b))) :
    tree.target (.parent x) = above path := by
  rw [target_parent_of_get? h.get?_branch, Node.parent_branch]

/-- What is reached from the root is what has a place in the shape. -/
theorem reaches_iff (h : tree.Traces s) : tree.Reaches x ↔ x ∈ s.handles := by
  constructor
  · rintro ⟨root, hroot, hx⟩
    induction hx with
    | refl => exact root_mem_handles (h.root_eq.symm.trans hroot)
    | @tail v x _ hvx ih =>
      obtain ⟨side, hside⟩ := hvx
      obtain ⟨path, c, e, a, b, rfl⟩ := exists_plug_of_mem side ih
      rw [h.target_child] at hside
      exact mem_handles_plug.mpr
        (Or.inl (mem_handles_branch.mpr (Or.inr (Or.inl (root_mem_handles hside)))))
  · intro hx
    obtain ⟨root, hroot, hrx⟩ := exists_way_of_linked h.linked hx
    exact ⟨root, h.root_eq.trans hroot, hrx⟩

/-- A tree that traces a shape is well linked. -/
theorem wellLinked (h : tree.Traces s) : tree.WellLinked := by
  refine .of_back (fun x hx => ?_) (fun x hx => ?_) (fun x y hx hxy => ?_)
    (fun x y side hx hy hy' => ?_)
  · exact Option.isSome_iff_exists.mpr (h.linked.exists_of_mem (h.reaches_iff.mp hx))
  · exact target_parent_of_linked h.linked (h.root_eq.symm.trans hx)
  · obtain ⟨side, hside⟩ := hxy
    obtain ⟨path, c, e, a, b, rfl⟩ := exists_plug_of_mem side (h.reaches_iff.mp hx)
    rw [h.target_child] at hside
    obtain ⟨-, ha, -⟩ := linked_branch_iff.mp (linked_plug_iff.mp h.linked).1
    exact target_parent_of_linked ha hside
  · obtain ⟨path, c, e, a, b, rfl⟩ := exists_plug_of_mem side (h.reaches_iff.mp hx)
    rw [h.target_child] at hy
    rw [h.target_child_other] at hy'
    have hnodup := (List.nodup_cons.mp (nodup_branch_iff.mp h.nodup)).2
    rw [List.nodup_append, List.nodup_append] at hnodup
    exact hnodup.1.2.2 y (root_mem_handles hy) y (root_mem_handles hy') rfl

/-- The drawing of a tree shows the shape that it traces. -/
theorem drawing_eq (h : tree.Traces s) : tree.drawing = .ok (s.drawing none) :=
  h.linked.drawing_eq h.nodup h.root_eq

end Traces

theorem HasShape.traces (h : tree.HasShape s) : tree.Traces s :=
  ⟨h.root_eq, h.linked, h.nodup⟩

/-- Well-linked trees are the trees whose links spell out a shape from the root down. -/
theorem wellLinked_iff : tree.WellLinked ↔ ∃ s, tree.Traces s :=
  ⟨WellLinked.exists_traces, fun ⟨_, h⟩ => h.wellLinked⟩

end Tree

end MeteredMap
