import MeteredMap.Proofs.Arena.SlotMap
import MeteredMap.Proofs.Tree.Vacating

/-!
# Where an insertion puts its entry

The place of a new entry among the others is told from the way down that led to it, whatever the
comparator answered there: it comes right behind the last node that the key looked for was greater
than, and right before the last one that it was less than. Its slot is told from the history of the
tree: it is the slot freed last among those that are vacant, or the first one that was never used.
Nothing else moves.

## Main definitions

* `MeteredMap.Visit.last?` : the last node of a way down at which the comparator gave an answer.
* `MeteredMap.Tree.History` : the trees that a run passes through.
* `MeteredMap.Tree.FreedAgo` : when a vacant slot was freed.

## Main results

* `MeteredMap.Shape.getLast?_pathBefore`, `MeteredMap.Shape.head?_pathAfter`,
  `MeteredMap.Shape.neighbors_of_locate` : the neighbours of a place.
* `MeteredMap.Tree.History.exists_sound` : the vacant slots lie in the chain in the order in which
  they were freed, the last one first.
* `MeteredMap.Tree.History.insert_placed` : an insertion, slot by slot.
-/

namespace MeteredMap

/-! ### The neighbours of a place -/

/-- The last node of a way down at which the comparator gave an answer. -/
def Visit.last? (answer : Ordering) (visits : List Visit) : Option Handle :=
  (visits.filter fun visit => visit.answer = answer).getLast?.map Visit.handle

namespace Shape

variable {compare : Blob → Blob → Ordering} {key : Blob} {path : List Frame} {s : Shape}

/-- The last node of a way down through the frames of a path at which it went on to a side. -/
theorem last?_visits (path : List Frame) (side : Side) :
    Visit.last? (answerToward side) (path.reverse.map visitOf) =
      (path.find? fun f => f.side = side).map Frame.handle := by
  have hanswer : ∀ f : Frame, (visitOf f).answer = answerToward side ↔ f.side = side := by
    intro f
    rw [visitOf]
    cases f.side <;> cases side <;> simp [answerToward]
  have hfilter : (path.reverse.map visitOf).filter
      (fun visit => visit.answer = answerToward side) =
        ((path.filter fun f => f.side = side).reverse).map visitOf := by
    rw [List.filter_map, ← List.filter_reverse]
    exact congrArg (List.map visitOf) (List.filter_congr fun f _ => by simp [hanswer])
  rw [Visit.last?, hfilter, List.getLast?_map, List.getLast?_reverse, List.head?_filter,
    Option.map_map]
  rfl

/-- Right before a place comes the node of the nearest frame that lies before it. -/
theorem getLast?_pathBefore (path : List Frame) :
    (pathBefore path).getLast?.map Prod.fst =
      (path.find? fun f => f.side = .right).map Frame.handle := by
  induction path with
  | nil => rfl
  | cons f path ih =>
    obtain ⟨side, c, x, e, aside⟩ := f
    cases side with
    | left => simpa [pathBefore, Frame.before] using ih
    | right => simp [pathBefore, Frame.before]

/-- Right behind a place comes the node of the nearest frame that lies behind it. -/
theorem head?_pathAfter (path : List Frame) :
    (pathAfter path).head?.map Prod.fst =
      (path.find? fun f => f.side = .left).map Frame.handle := by
  induction path with
  | nil => rfl
  | cons f path ih =>
    obtain ⟨side, c, x, e, aside⟩ := f
    cases side with
    | left => simp [pathAfter, Frame.after]
    | right => simpa [pathAfter, Frame.after] using ih

/-- The neighbours of the place where a search ended, told from its visits. -/
theorem neighbors_of_locate (h : locate compare key [] s = (path, absent)) :
    (pathBefore path).getLast?.map Prod.fst = Visit.last? .gt (s.visits compare key) ∧
      (pathAfter path).head?.map Prod.fst = Visit.last? .lt (s.visits compare key) := by
  have hvisits : path.reverse.map visitOf = s.visits compare key := visits_of_locate h
  rw [← hvisits, getLast?_pathBefore, head?_pathAfter]
  exact ⟨(last?_visits path .right).symm, (last?_visits path .left).symm⟩

end Shape

namespace Tree

open Shape

/-! ### Histories -/

/-- The trees that a run passes through, the last one first. The operations are permitted, and each
is carried out in some memory. -/
inductive History : List Tree → Prop
  | create {keySize valueSize : Nat} {comparator : Comparator} {tree : Tree}
      (h : Tree.create keySize valueSize comparator = .ok tree) : History [tree]
  | withCapacity {α : Type} [Allocator α] {memory memory' : α} {keySize valueSize capacity : Nat}
      {comparator : Comparator} {tree : Tree}
      (h : Tree.withCapacity keySize valueSize capacity comparator memory = (.ok tree, memory')) :
      History [tree]
  | step {α : Type} [Allocator α] {memory memory' : α} {operation : Operation} {tree tree' : Tree}
      {earlier : List Tree} (hr : History (tree :: earlier)) (hp : operation.Permitted tree)
      (h : operation.run tree memory = .ok (tree', memory')) : History (tree' :: tree :: earlier)

variable {α : Type} [Allocator α] {tree after : Tree} {trees earlier : List Tree} {s : Shape}
  {vacant rest : List Handle} {x y : Handle} {memory memory' : α} {operation : Operation}
  {k l : Nat}

omit [Allocator α] in
theorem Reachable.exists_history (hr : Reachable tree) : ∃ earlier, History (tree :: earlier) := by
  induction hr with
  | create h => exact ⟨[], .create h⟩
  | withCapacity h => exact ⟨[], .withCapacity h⟩
  | step _ hp h ih =>
    obtain ⟨earlier, hearlier⟩ := ih
    exact ⟨_, .step hearlier hp h⟩

/-- There is a slot in the table, and no entry in it. -/
def VacantAt (tree : Tree) (x : Handle) : Prop :=
  x.index < tree.nodes.slots.size ∧ tree.nodes.get? x = none

/-- The slot is vacant since the last `k` operations and was freed by the one before these. -/
def FreedAgo (x : Handle) : (k : Nat) → List Tree → Prop
  | 0, tree :: before :: _ => tree.VacantAt x ∧ (before.nodes.get? x).isSome
  | k + 1, tree :: earlier => tree.VacantAt x ∧ FreedAgo x k earlier
  | _, _ => False

/-- The slots of a list were freed one after the other, the first one last, and none of them in the
last `k` operations. -/
def FreedInTurn (trees : List Tree) : (k : Nat) → List Handle → Prop
  | _, [] => True
  | k, x :: vacant => ∃ l, k ≤ l ∧ FreedAgo x l trees ∧ FreedInTurn trees (l + 1) vacant

namespace FreedInTurn

theorem mono (h : FreedInTurn trees l vacant) (hle : k ≤ l) : FreedInTurn trees k vacant := by
  cases vacant with
  | nil => trivial
  | cons x vacant =>
    obtain ⟨m, hm, hfreed, hrest⟩ := h
    exact ⟨m, Nat.le_trans hle hm, hfreed, hrest⟩

theorem suffix (h : FreedInTurn trees k vacant) (hsuffix : rest <:+ vacant) :
    FreedInTurn trees k rest := by
  induction vacant generalizing k with
  | nil =>
    rw [List.suffix_nil.mp hsuffix]
    trivial
  | cons x vacant ih =>
    obtain ⟨l, hl, hfreed, hrest⟩ := h
    rcases List.suffix_cons_iff.mp hsuffix with rfl | hsuffix
    · exact ⟨l, hl, hfreed, hrest⟩
    · exact ih (hrest.mono (by omega)) hsuffix

/-- One operation later, slots that are still vacant were freed one operation earlier. -/
theorem later (h : FreedInTurn trees k vacant) (hvacant : ∀ x ∈ vacant, after.VacantAt x) :
    FreedInTurn (after :: trees) (k + 1) vacant := by
  induction vacant generalizing k with
  | nil => trivial
  | cons x vacant ih =>
    obtain ⟨l, hl, hfreed, hrest⟩ := h
    obtain ⟨hx, hvacant⟩ := List.forall_mem_cons.mp hvacant
    exact ⟨l + 1, by omega, ⟨hx, hfreed⟩, ih hrest hvacant⟩

theorem exists_freedAgo (h : FreedInTurn trees k vacant) (hx : x ∈ vacant) :
    ∃ l, k ≤ l ∧ FreedAgo x l trees := by
  induction vacant generalizing k with
  | nil => cases hx
  | cons y vacant ih =>
    obtain ⟨l, hl, hfreed, hrest⟩ := h
    rcases List.mem_cons.mp hx with rfl | hx
    · exact ⟨l, hl, hfreed⟩
    · obtain ⟨m, hm, hfreed'⟩ := ih hrest hx
      exact ⟨m, by omega, hfreed'⟩

end FreedInTurn

/-! ### The vacant slots along a run -/

omit [Allocator α] in
/-- The vacant slots lie in the chain in the order in which they were freed, the last one first. -/
theorem History.exists_sound (h : History trees) :
    ∃ tree earlier s vacant, trees = tree :: earlier ∧ tree.Sound s vacant ∧
      FreedInTurn trees 0 vacant := by
  induction h with
  | create h => exact ⟨_, [], _, [], rfl, (Sound.ofCreate h).1, trivial⟩
  | withCapacity h => exact ⟨_, [], _, [], rfl, (Sound.ofWithCapacity h).1, trivial⟩
  | @step α _ memory memory' operation tree tree' earlier hr hp heq ih =>
    obtain ⟨_, _, s, vacant, hcons, h, hturn⟩ := ih
    cases hcons
    obtain ⟨after, _, t, rest, heq', hafter, hrecycles⟩ := h.run hp memory
    rw [heq] at heq'
    cases heq'
    have hvacant : ∀ x ∈ rest, tree'.VacantAt x :=
      fun x hx => hafter.wellFormed.mem_vacant_iff.mp hx
    refine ⟨_, _, t, rest, rfl, hafter, ?_⟩
    -- A slot freed just now comes in front of all that were freed before.
    rcases hrecycles with hsuffix | ⟨y, hy, rfl⟩
    · exact ((hturn.suffix hsuffix).later hvacant).mono (Nat.zero_le _)
    · obtain ⟨hfreed, hvacant⟩ := List.forall_mem_cons.mp hvacant
      exact ⟨0, Nat.le_refl 0, ⟨hfreed, hy⟩, hturn.later hvacant⟩

/-! ### Insertions slot by slot -/

/-- A successful insertion into a tree that a run leads to, whatever its comparator answers. In
order, with their slots, the entries are those before and the new one, which comes right behind the
last node that its key was found to be greater than, or first of all, and right before the last one
that it was found to be less than, or last of all. Its slot is the one that was freed last among the
vacant ones; if none is vacant, it is the first one that was never used. -/
theorem History.insert_placed (hr : History (tree :: earlier)) {key value : Blob}
    {calls : List Call}
    (hinsert : tree.insert memory key value = .ok ⟨⟨.ok x, after, memory'⟩, calls⟩) :
    ∃ drawing drawing' visits pre post,
      tree.drawing = .ok drawing ∧ after.drawing = .ok drawing' ∧
      tree.descend key = .ok visits ∧ calls = Visit.calls key visits ∧
      drawing.inorder = pre ++ post ∧
      drawing'.inorder = pre ++ (x, ⟨key, value⟩) :: post ∧
      pre.getLast?.map Prod.fst = Visit.last? .gt visits ∧
      post.head?.map Prod.fst = Visit.last? .lt visits ∧
      ((∃ k, FreedAgo x k (tree :: earlier) ∧
          ∀ y, tree.VacantAt y → y ≠ x → ∃ l, k < l ∧ FreedAgo y l (tree :: earlier)) ∨
        (∀ y, ¬ tree.VacantAt y) ∧ ∀ y, (tree.nodes.get? y).isSome ↔ y.index < x.index) := by
  obtain ⟨_, _, s, vacant, hcons, h, hturn⟩ := hr.exists_sound
  cases hcons
  obtain ⟨path, capacity, linked, rest, rfl, -, hplace, hcalls, -, -, -, -, hinserted⟩ :=
    h.exists_of_insert hinsert
  obtain ⟨hbefore, hafter⟩ := neighbors_of_locate hplace
  refine ⟨_, _, _, pathBefore path, pathAfter path, h.hasShape.drawing,
    hinserted.sound.hasShape.drawing, h.hasShape.descend key, hcalls, ?_, ?_, hbefore, hafter, ?_⟩
  · rw [inorder_drawing, inorder_plug]
    simp [inorder]
  · rw [inorder_drawing, inorder_withLeaf]
  · rcases hinserted.slot with rfl | ⟨rfl, -, hindex⟩
    · obtain ⟨k, -, hfreed, hrest⟩ := hturn
      refine Or.inl ⟨k, hfreed, fun y hy hne => ?_⟩
      have hmem : y ∈ x :: rest := h.wellFormed.mem_vacant_iff.mpr hy
      exact hrest.exists_freedAgo (List.mem_of_ne_of_mem hne hmem)
    · have hnone : ∀ y, ¬ tree.VacantAt y :=
        fun y hy => List.not_mem_nil (h.wellFormed.mem_vacant_iff.mpr hy)
      refine Or.inr ⟨hnone, fun y => ?_⟩
      rw [hindex]
      constructor
      · intro hy
        obtain ⟨n, hn⟩ := Option.isSome_iff_exists.mp hy
        exact Arena.index_lt_of_get? hn
      · intro hlt
        by_contra hy
        exact hnone y ⟨hlt, Option.not_isSome_iff_eq_none.mp hy⟩

/-- A removal has moved the entry of `[3]` from slot 0 to slot 2, and nothing was freed since. A new
entry between `[1]` and `[3]` goes to slot 0. -/
theorem History.insert_placed_sample :
    ∃ full memory' earlier, ∃ after : Tree, ∃ memory'' calls drawing,
      Operation.runAll (sampleRun.take 7) sampleTree sampleMemory = .ok (full, memory') ∧
      History (full :: earlier) ∧
      full.insert memory' [2] [7] = .ok ⟨⟨.ok ⟨0, by decide⟩, after, memory''⟩, calls⟩ ∧
      calls = [⟨[2], [3]⟩, ⟨[2], [1]⟩] ∧ after.drawing = .ok drawing ∧
      drawing.inorder = [(⟨1, by decide⟩, ⟨[1], [0]⟩), (⟨0, by decide⟩, ⟨[2], [7]⟩),
        (⟨2, by decide⟩, ⟨[3], [0]⟩), (⟨3, by decide⟩, ⟨[4], [0]⟩)] ∧
      ∃ k, FreedAgo ⟨0, by decide⟩ k (full :: earlier) := by
  obtain ⟨full, memory', hrun, hfull⟩ := exists_sampleRun_take 7
  obtain ⟨earlier, hhistory⟩ := hfull.exists_history
  have hslot : (Operation.runAll (sampleRun.take 7) sampleTree sampleMemory).map
      (fun p => (p.1.nodes.slots.size, p.1.nodes.get? ⟨0, by decide⟩)) = .ok (4, none) := rfl
  have hresult : (Operation.runAll (sampleRun.take 7) sampleTree sampleMemory >>= fun p =>
      (p.1.insert p.2 [2] [7]).map fun o => (o.value.answer, o.calls)) =
        .ok (.ok ⟨0, by decide⟩, [⟨[2], [3]⟩, ⟨[2], [1]⟩]) := rfl
  have horder : (Operation.runAll (sampleRun.take 7) sampleTree sampleMemory >>= fun p =>
      p.1.insert p.2 [2] [7] >>= fun o => o.value.state.drawing.map Drawing.inorder) =
        .ok [(⟨1, by decide⟩, ⟨[1], [0]⟩), (⟨0, by decide⟩, ⟨[2], [7]⟩),
          (⟨2, by decide⟩, ⟨[3], [0]⟩), (⟨3, by decide⟩, ⟨[4], [0]⟩)] := rfl
  rw [hrun] at hslot hresult horder
  obtain ⟨hsize, hvacant⟩ := Prod.mk.inj (Except.ok.inj hslot)
  rw [ok_bind] at hresult horder
  cases hinsert : full.insert memory' [2] [7] with
  | error fault =>
    rw [hinsert] at hresult
    cases hresult
  | ok traced =>
    obtain ⟨⟨answer, after, memory''⟩, calls⟩ := traced
    rw [hinsert] at hresult horder
    obtain ⟨rfl, rfl⟩ := Prod.mk.inj (Except.ok.inj hresult)
    obtain ⟨-, drawing, -, -, -, -, hdrawing, -, -, -, -, -, -, ⟨k, hfreed, -⟩ | ⟨hnone, -⟩⟩ :=
      History.insert_placed hhistory hinsert
    · rw [ok_bind, hdrawing] at horder
      exact ⟨full, memory', earlier, after, memory'', _, drawing, hrun, hhistory, hinsert, rfl,
        hdrawing, Except.ok.inj horder, k, hfreed⟩
    · have hlt : 0 < full.nodes.slots.size := Nat.lt_of_lt_of_eq (by decide) hsize.symm
      exact absurd ⟨hlt, hvacant⟩ (hnone ⟨0, by decide⟩)

end Tree

end MeteredMap
