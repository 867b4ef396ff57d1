import MeteredMap.Proofs.Tree.Reachability
import MeteredMap.Proofs.Tree.Recoloring
import MeteredMap.Proofs.Tree.RedBlack

/-!
# What an operation does to the links of a tree

The links of a tree without its entries and colours are its outline. A new leaf is hung into the
outline where its search ended, and a removal takes out of it one node that has a child missing.
The repairs turn what they find at most two and at most three times, and otherwise only recolour it.

## Main definitions

* `MeteredMap.Outline` : handles, nested as their links lead.
* `MeteredMap.Outline.hang` : a leaf where a way down ends.
* `MeteredMap.Outline.splice` : a node taken out, its child in its place.
* `MeteredMap.Visit.side` : where a search went on from a node.

## Main results

* `MeteredMap.Shape.exists_hang`, `MeteredMap.Shape.Excises.outline` : both changes of an outline.
* `MeteredMap.Tree.Reachable.few_rotations` : insertion and removal, up to colours.
-/

namespace MeteredMap

/-! ### Outlines -/

/-- Handles, nested as the child links of their nodes lead. -/
inductive Outline where
  | absent
  | node (handle : Handle) (left right : Outline)
  deriving DecidableEq

namespace Outline

/-- The outline with the leaf `x` where a way down leads. -/
def hang (x : Handle) : (way : List Side) → Outline → Outline
  | _, absent => node x absent absent
  | [], node y left right => node y left right
  | .left :: way, node y left right => node y (hang x way left) right
  | .right :: way, node y left right => node y left (hang x way right)

/-- The first of two outlines that is not absent. -/
def orElse : Outline → Outline → Outline
  | absent, right => right
  | node y left right, _ => node y left right

/-- The outline without the node `x`, in whose place its only child is. -/
def splice (x : Handle) : Outline → Outline
  | absent => absent
  | node y left right =>
    if y = x then left.orElse right else node y (splice x left) (splice x right)

theorem orElse_absent (outline : Outline) : outline.orElse absent = outline := by
  cases outline <;> rfl

end Outline

/-- The side on which a search went on. -/
def Visit.side (visit : Visit) : Side :=
  match visit.answer with
  | .lt => .left
  | .eq => .right
  | .gt => .right

/-- The drawing without entries and colours. -/
def Drawing.outline : Drawing → Outline
  | absent => .absent
  | node handle _ left right => .node handle left.outline right.outline

namespace Shape

/-- The shape without entries and colours. -/
def outline : Shape → Outline
  | absent => .absent
  | node _ handle _ left right => .node handle left.outline right.outline

variable {compare : Blob → Blob → Ordering} {key : Blob} {path p : List Frame} {s t t' : Shape}
  {side : Side} {c c' : Color} {x : Handle} {e e' : Entry} {a a' b b' child : Shape}

@[simp] theorem outline_drawing (s : Shape) (parent : Option Handle) :
    (s.drawing parent).outline = s.outline := by
  induction s generalizing parent with
  | absent => rfl
  | node c x e l r ihl ihr =>
    rw [drawing, Drawing.outline, ihl, ihr]
    rfl

theorem outline_branch_congr (ha : a.outline = a'.outline) (hb : b.outline = b'.outline) :
    (branch side c x e a b).outline = (branch side c' x e' a' b').outline := by
  cases side <;> simp only [branch, outline, ha, hb]

/-- Shapes with one outline have one around a place. -/
theorem outline_plug_congr (h : t.outline = t'.outline) :
    (plug path t).outline = (plug path t').outline := by
  induction path generalizing t t' with
  | nil => exact h
  | cons f path ih => exact ih (outline_branch_congr h rfl)

/-! ### A leaf hung in -/

/-- A leaf where a search ended is hung into the outline along the way of the search. -/
theorem exists_hang (h : locate compare key path s = (p, absent)) (x : Handle) (e : Entry) :
    ∃ t, plug p (leaf x e) = plug path t ∧
      t.outline = s.outline.hang x ((s.visits compare key).map Visit.side) := by
  induction s generalizing path with
  | absent =>
    obtain ⟨rfl, -⟩ := Prod.mk.inj h
    exact ⟨leaf x e, rfl, rfl⟩
  | node c y ey l r ihl ihr =>
    rw [locate] at h
    rw [visits]
    cases hcompare : compare key ey.key with
    | lt =>
      rw [hcompare] at h
      obtain ⟨t, hplug, ht⟩ := ihl h
      refine ⟨branch .left c y ey t r, hplug, ?_⟩
      rw [branch, outline, ht]
      rfl
    | eq =>
      rw [hcompare] at h
      cases h
    | gt =>
      rw [hcompare] at h
      obtain ⟨t, hplug, ht⟩ := ihr h
      refine ⟨branch .right c y ey t l, hplug, ?_⟩
      rw [branch, outline, ht]
      rfl

/-! ### A node taken out -/

theorem splice_of_notMem (h : x ∉ s.handles) : s.outline.splice x = s.outline := by
  induction s with
  | absent => rfl
  | node c y e l r ihl ihr =>
    rw [mem_handles_node, not_or, not_or] at h
    obtain ⟨hne, hl, hr⟩ := h
    rw [outline, Outline.splice, if_neg (Ne.symm hne), ihl hl, ihr hr]

theorem splice_branch_self :
    (branch side c x e child absent).outline.splice x = child.outline := by
  cases side with
  | left => exact (if_pos rfl).trans (Outline.orElse_absent _)
  | right => exact if_pos rfl

/-- A node taken out of a place is nowhere around it. -/
theorem splice_plug (h : x ∉ pathHandles path) (ht : t'.outline = t.outline.splice x) :
    (plug path t').outline = (plug path t).outline.splice x := by
  induction path generalizing t t' with
  | nil => exact ht
  | cons f path ih =>
    rw [pathHandles, List.mem_cons, List.mem_append, not_or, not_or] at h
    obtain ⟨hf, ha, hp⟩ := h
    refine ih hp ?_
    have haside := splice_of_notMem ha
    rw [Frame.fill, Frame.fill]
    cases f.side <;>
      simp only [branch, outline, Outline.splice, if_neg (Ne.symm hf), ht, haside]

/-- Bringing an entry to another node changes no link. -/
theorem Excises.outline {site : Excision} (h : Excises x s site) :
    (plug site.path
      (branch site.side site.color site.target site.entry site.child absent)).outline =
        s.outline := by
  cases h with
  | noLeft path c e r => rfl
  | noRight path c e l => rfl
  | both path c e l hl p hp cy y ey b =>
    dsimp only
    rw [← plug_below]
    exact outline_plug_congr (outline_branch_congr rfl (outline_plug_congr rfl))

end Shape

namespace Tree

open Shape

variable {α : Type} [Allocator α] {tree after : Tree} {s : Shape} {vacant : List Handle}
  {x : Handle} {memory memory' : α}

/-- What a removal consists of. -/
theorem steps_of_removeAt {removal : Removal}
    (h : tree.removeAt memory x = .ok (removal, after, memory')) :
    ∃ target next isolated unlinked spliced, tree.isolate x = .ok (target, next, isolated) ∧
      isolated.splice target = .ok (unlinked, spliced) ∧
      (spliced = after ∨
        spliced.repairRemove (unlinked.left <|> unlinked.right) unlinked.parent = .ok after) := by
  obtain ⟨⟨target, next, isolated⟩, hisolate, h⟩ := bind_eq_ok_iff.mp h
  obtain ⟨⟨unlinked, spliced⟩, hsplice, h⟩ := bind_eq_ok_iff.mp h
  refine ⟨target, next, isolated, unlinked, spliced, hisolate, hsplice, ?_⟩
  cases hcolor : unlinked.color with
  | red =>
    simp only [hcolor] at h
    cases h
    exact Or.inl rfl
  | black =>
    simp only [hcolor] at h
    obtain ⟨last, hrepair, h⟩ := bind_eq_ok_iff.mp h
    cases h
    exact Or.inr hrepair

/-- A removal from a sound tree takes one node with a child missing out of its outline. -/
theorem Sound.outline_of_removeAt (h : tree.Sound s vacant) (hx : x ∈ s.handles)
    {target : Handle} {next : Option Handle} {isolated spliced : Tree} {unlinked : Node}
    (hisolate : tree.isolate x = .ok (target, next, isolated))
    (hsplice : isolated.splice target = .ok (unlinked, spliced)) :
    (unlinked.left = none ∨ unlinked.right = none) ∧
      ∃ t, spliced.HasShape t ∧ t.outline = s.outline.splice target := by
  obtain ⟨site, hsite⟩ := exists_excises hx
  obtain ⟨mid, hmid, hk, hshape⟩ := h.hasShape.isolate hsite
  rw [hisolate] at hmid
  cases hmid
  have hlive : 0 < isolated.nodes.live := by
    have hlength := hsite.removes.length
    rw [hk.nodes.live, h.live_eq, Shape.size]
    omega
  obtain ⟨last, hlast, ht, -⟩ := hshape.splice (h.wellFormed.kept hk.nodes) hlive
  rw [hsplice] at hlast
  cases hlast
  refine ⟨?_, _, ht, ?_⟩
  · cases site.side
    · exact Or.inr rfl
    · exact Or.inl rfl
  · rw [← hsite.outline]
    exact splice_plug (hshape.root_notMem root_branch) splice_branch_self.symm

/-- An insertion hangs a leaf into the outline of a reachable tree where the search for its key
ended, and a removal takes one node out that has a child missing, whatever the comparator answers.
From there at most two rotations lead to the tree that an insertion leaves, and at most three to the
one that a removal leaves, up to the colours of the nodes. -/
theorem Reachable.few_rotations (hr : Reachable tree) (memory : α) :
    (∀ key value x after memory' calls,
      tree.insert memory key value = .ok ⟨⟨.ok x, after, memory'⟩, calls⟩ →
      ∃ drawing visits linked below, tree.drawing = .ok drawing ∧ tree.descend key = .ok visits ∧
        tree.link memory ⟨key, value⟩ (Arrival.ofVisits visits) = .ok ⟨.ok x, linked, memory'⟩ ∧
        linked.drawing = .ok below ∧ below.LinksBack none ∧
        below.outline = drawing.outline.hang x (visits.map Visit.side) ∧
        linked.TurnsInto 2 after) ∧
    ∀ x, (tree.nodes.get? x).isSome →
      ∃ drawing target next isolated unlinked spliced below removal after,
        tree.drawing = .ok drawing ∧ tree.isolate x = .ok (target, next, isolated) ∧
        isolated.splice target = .ok (unlinked, spliced) ∧
        (unlinked.left = none ∨ unlinked.right = none) ∧ spliced.drawing = .ok below ∧
        below.LinksBack none ∧ below.outline = drawing.outline.splice target ∧
        tree.removeAt memory x = .ok (removal, after, tree.releaseBlocks memory) ∧
        spliced.TurnsInto 3 after := by
  obtain ⟨s, vacant, h⟩ := hr.sound
  constructor
  · intro key value x after memory' calls hinsert
    obtain ⟨path, capacity, linked, rest, -, -, hlocate, -, -, hlink, hlinked, hrepair, -⟩ :=
      h.exists_of_insert hinsert
    obtain ⟨t, hplug, ht⟩ := exists_hang hlocate x ⟨key, value⟩
    rw [hplug] at hlinked
    refine ⟨s.drawing none, _, linked, t.drawing none, h.hasShape.drawing, h.hasShape.descend key,
      ?_, hlinked.drawing, linksBack_drawing t none, ?_, turnsInto_of_repairInsert hrepair⟩
    · rw [arrival_visits, hlocate]
      exact hlink
    · rw [outline_drawing, outline_drawing]
      exact ht
  · intro x hx
    have hmem := h.hasShape.mem_handles_iff.mpr hx
    obtain ⟨e, next', freed, after, u, hremove, -, -, -, -⟩ := h.removeAt hmem memory
    obtain ⟨target, next, isolated, unlinked, spliced, hisolate, hsplice, hafter⟩ :=
      steps_of_removeAt hremove
    obtain ⟨hmissing, t, hshape, ht⟩ := h.outline_of_removeAt hmem hisolate hsplice
    refine ⟨s.drawing none, target, next, isolated, unlinked, spliced, t.drawing none, _, after,
      h.hasShape.drawing, hisolate, hsplice, hmissing, hshape.drawing, linksBack_drawing t none, ?_,
      hremove, ?_⟩
    · rw [outline_drawing, outline_drawing]
      exact ht
    · rcases hafter with rfl | hrepair
      · exact (TurnsInto.refl spliced).mono (by decide)
      · exact turnsInto_of_repairRemove hrepair

/-- The third of three entries is hung below the second one, which is below the first. Two rotations
bring it above both. -/
theorem Reachable.few_rotations_sample :
    ∃ (pair linked after : Tree) (memory' memory'' : Budget Heap) (calls : List Call)
      (below : Drawing),
      Operation.runAll (sampleRun.take 2) sampleTree sampleMemory = .ok (pair, memory') ∧
      pair.insert memory' [2] [0] = .ok ⟨⟨.ok ⟨2, by decide⟩, after, memory''⟩, calls⟩ ∧
      linked.drawing = .ok below ∧
      below.outline = .node ⟨0, by decide⟩
        (.node ⟨1, by decide⟩ .absent (.node ⟨2, by decide⟩ .absent .absent)) .absent ∧
      linked.TurnsInto 2 after ∧ after.root = some ⟨2, by decide⟩ := by
  obtain ⟨pair, memory', hrun, hpair⟩ := exists_sampleRun_take 2
  have hinsert : (Operation.runAll (sampleRun.take 2) sampleTree sampleMemory >>= fun p =>
      (p.1.insert p.2 [2] [0]).map fun r => (r.value.answer, r.value.state.root)) =
        .ok (.ok ⟨2, by decide⟩, some ⟨2, by decide⟩) := rfl
  have houtline : (Operation.runAll (sampleRun.take 2) sampleTree sampleMemory >>= fun p =>
      p.1.drawing.map Drawing.outline) =
        .ok (.node ⟨0, by decide⟩ (.node ⟨1, by decide⟩ .absent .absent) .absent) := rfl
  have hway : (Operation.runAll (sampleRun.take 2) sampleTree sampleMemory >>= fun p =>
      (p.1.descend [2]).map (List.map Visit.side)) = .ok [.left, .right] := rfl
  rw [hrun, ok_bind] at hinsert houtline hway
  cases hresult : pair.insert memory' [2] [0] with
  | error fault =>
    rw [hresult] at hinsert
    cases hinsert
  | ok result =>
    obtain ⟨⟨answer, after, memory''⟩, calls⟩ := result
    rw [hresult] at hinsert
    obtain ⟨rfl, hroot⟩ := Prod.mk.inj (Except.ok.inj hinsert)
    obtain ⟨drawing, visits, linked, below, hdrawing, hdescend, -, hbelow, -, hhang, hturns⟩ :=
      (Reachable.few_rotations hpair memory').1 _ _ _ _ _ _ hresult
    rw [hdrawing] at houtline
    rw [hdescend] at hway
    refine ⟨pair, linked, after, memory', memory'', calls, below, hrun, hresult, hbelow, ?_, hturns,
      hroot⟩
    rw [hhang, Except.ok.inj houtline, Except.ok.inj hway]
    rfl

end Tree

end MeteredMap
