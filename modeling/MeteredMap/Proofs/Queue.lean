import MeteredMap.Proofs.Simulation
import MeteredMap.Proofs.Tree.Walks
import MeteredMap.Session.Iteration

/-!
# Iterations as double-ended queues

What an iteration is specified by: a queue of items that are taken from either end. The two ends of
an iterator walk on their own, each from node to node, and never see each other; that they stop
where they meet is for the count of what is left.

## Main definitions

* `MeteredMap.Queue.fromEnd` : items in the order in which they are met from an end.
* `MeteredMap.Queue.step` : the answers of a queue.
* `MeteredMap.Iterator.Spans` : an iterator and the nodes between its ends.

## Main results

* `MeteredMap.Iterator.Spans.exists_take` : one item taken from an end.
* `MeteredMap.Iteration.session_eq` : sessions of an iteration.
-/

namespace MeteredMap

/-! ### Queues -/

namespace Queue

variable {β : Type} {side : Side} {items : List β}

/-- Items in the order in which they are met from an end. -/
def fromEnd (side : Side) (items : List β) : List β :=
  match side with
  | .left => items
  | .right => items.reverse

@[simp] theorem fromEnd_fromEnd : fromEnd side (fromEnd side items) = items := by
  cases side
  · rfl
  · exact items.reverse_reverse

@[simp] theorem fromEnd_nil : fromEnd side ([] : List β) = [] := by
  cases side <;> rfl

@[simp] theorem length_fromEnd : (fromEnd side items).length = items.length := by
  cases side
  · rfl
  · exact List.length_reverse

theorem fromEnd_other : fromEnd side.other items = (fromEnd side items).reverse := by
  cases side
  · rfl
  · exact items.reverse_reverse.symm

theorem map_fromEnd {γ : Type} (f : β → γ) :
    (fromEnd side items).map f = fromEnd side (items.map f) := by
  cases side
  · rfl
  · exact List.map_reverse

theorem fromEnd_infix_iff {all : List β} :
    fromEnd side items <:+: fromEnd side all ↔ items <:+: all := by
  cases side
  · exact Iff.rfl
  · exact List.reverse_infix

/-- The answer to a command, and the queue after it with the one that was kept. -/
def step (command : IterationCommand) (state : List Item × List Item) :
    IterationAnswer × (List Item × List Item) :=
  let (items, saved) := state
  match command with
  | .next side =>
    (.item (fromEnd side items).head?, (fromEnd side (fromEnd side items).tail, saved))
  | .nth side n =>
    (.item (fromEnd side items)[n]?, (fromEnd side ((fromEnd side items).drop (n + 1)), saved))
  | .last => (.item items.getLast?, state)
  | .length => (.length items.length, state)
  | .bounds => (.bounds items.length (some items.length), state)
  | .collect side => (.items (fromEnd side items), state)
  | .describe form => (.text ((Item.listDocument items).render form), state)
  | .save => (.done, (items, items))
  | .restore => (.done, (saved, saved))

end Queue

/-! ### Iterators -/

namespace Iterator

open Shape Queue

variable {tree : Tree} {s : Shape} {it : Iterator} {mid : List (Handle × Entry)} {side : Side}

/-- The nodes between the two ends of an iterator. An iterator without any keeps ends that it does
not look at any more. -/
structure Spans (s : Shape) (it : Iterator) (mid : List (Handle × Entry)) : Prop where
  isInfix : mid <:+: s.inorder
  remaining : it.remaining = mid.length
  ends : ∀ side, mid ≠ [] → it.endAt side = (fromEnd side mid).head?.map Prod.fst

theorem toward_other_eq (s : Shape) (side : Side) :
    s.toward side.other = fromEnd side s.inorder := by
  cases side <;> rfl

theorem endAt_advance_self (next : Option Handle) : (it.advance side next).endAt side = next := by
  cases side <;> rfl

theorem endAt_advance_other (next : Option Handle) :
    (it.advance side next).endAt side.other = it.endAt side.other := by
  cases side <;> rfl

theorem remaining_advance (next : Option Handle) :
    (it.advance side next).remaining = it.remaining - 1 := by
  cases side <;> rfl

/-- What is next from an end is taken, and the iterator goes on behind it. -/
theorem Spans.exists_take (hs : Spans s it mid) (h : tree.HasShape s) (side : Side) :
    ∃ rest, it.take tree side = .ok ((fromEnd side mid).head?.map Prod.snd, rest) ∧
      Spans s rest (fromEnd side (fromEnd side mid).tail) := by
  have hback : mid = fromEnd side (fromEnd side mid) := fromEnd_fromEnd.symm
  have hinfix : fromEnd side mid <:+: fromEnd side s.inorder := fromEnd_infix_iff.mpr hs.isInfix
  have hlength : (fromEnd side mid).length = mid.length := length_fromEnd
  rcases hmid : fromEnd side mid with _ | ⟨⟨x, e⟩, others⟩
  · have hremaining : it.remaining = 0 := by rw [hs.remaining, ← hlength, hmid, List.length_nil]
    rw [hmid] at hback
    refine ⟨it, ?_, hback ▸ hs⟩
    rw [Iterator.take, if_pos hremaining]
    rfl
  · rw [hmid] at hinfix hlength
    obtain ⟨pre, post, hsplit⟩ := hinfix
    have hne : mid ≠ [] := by
      rintro rfl
      cases hlength
    have htoward : s.toward side.other = pre ++ (x, e) :: (others ++ post) := by
      rw [toward_other_eq, ← hsplit]
      simp
    have hentry : tree.entry x = .ok e :=
      h.entry_of_mem ((mem_toward_iff side.other).mp (by simp [htoward]))
    have hend : it.endAt side = some x := by
      rw [hs.ends side hne, hmid]
      rfl
    have hremaining : it.remaining = others.length + 1 := by rw [hs.remaining, ← hlength]; rfl
    refine ⟨it.advance side ((others ++ post).head?.map Prod.fst), ?_, ?_, ?_, ?_⟩
    · rw [Iterator.take, if_neg (by omega), hend]
      simp only [h.neighbor htoward, hentry, ok_bind, pure_eq_ok]
      rfl
    · have hrest : fromEnd side (fromEnd side others) <:+: fromEnd side s.inorder := by
        rw [fromEnd_fromEnd]
        exact ⟨pre ++ [(x, e)], post, by simp [← hsplit]⟩
      exact fromEnd_infix_iff.mp hrest
    · rw [remaining_advance, hremaining, length_fromEnd, List.tail_cons, Nat.add_sub_cancel]
    · intro side' hothers
      rw [List.tail_cons] at hothers ⊢
      have hleft : others ≠ [] := by
        rintro rfl
        exact hothers fromEnd_nil
      obtain rfl | rfl : side' = side ∨ side' = side.other := by
        cases side <;> cases side' <;> simp [Side.other]
      · rw [endAt_advance_self, fromEnd_fromEnd, List.head?_append_of_ne_nil _ hleft]
      · -- The far end stays where it is, and the last of the nodes left is the last as before.
        have hreverse : others.reverse ≠ [] := by simpa using hleft
        rw [endAt_advance_other, hs.ends side.other hne, fromEnd_other, hmid, fromEnd_other,
          fromEnd_fromEnd, List.reverse_cons, List.head?_append_of_ne_nil _ hreverse]

/-- Items dropped from an end, and the one behind them taken. -/
theorem Spans.exists_nth (hs : Spans s it mid) (h : tree.HasShape s) (side : Side) (n : Nat) :
    ∃ rest, it.nth tree side n = .ok ((fromEnd side mid)[n]?.map Prod.snd, rest) ∧
      Spans s rest (fromEnd side ((fromEnd side mid).drop (n + 1))) := by
  induction n generalizing it mid with
  | zero =>
    obtain ⟨rest, heq, hrest⟩ := hs.exists_take h side
    rw [List.drop_one]
    exact ⟨rest, by rw [Iterator.nth, heq, List.head?_eq_getElem?], hrest⟩
  | succ n ih =>
    obtain ⟨rest, heq, hrest⟩ := hs.exists_take h side
    rw [Iterator.nth, heq, ok_bind]
    rcases hmid : fromEnd side mid with _ | ⟨⟨x, e⟩, others⟩
    · rw [hmid] at hrest
      exact ⟨rest, rfl, hrest⟩
    · rw [hmid, List.tail_cons] at hrest
      obtain ⟨last, hnth, hlast⟩ := ih hrest
      rw [fromEnd_fromEnd] at hnth hlast
      exact ⟨last, hnth, hlast⟩

/-- All that is left, from an end. -/
theorem Spans.drain_eq (hs : Spans s it mid) (h : tree.HasShape s) (side : Side) :
    it.drain tree side = .ok ((fromEnd side mid).map Prod.snd) := by
  have hlength : (fromEnd side mid).length = mid.length := length_fromEnd
  rw [Iterator.drain, hs.remaining, ← hlength]
  generalize hmid : fromEnd side mid = others
  induction others generalizing it mid with
  | nil => rfl
  | cons pair others ih =>
    obtain ⟨rest, heq, hrest⟩ := hs.exists_take h side
    rw [hmid, List.tail_cons] at hrest
    have hothers := ih hrest length_fromEnd fromEnd_fromEnd
    rw [List.length_cons, Iterator.drainUpTo, heq, hmid, ok_bind]
    dsimp only [List.head?_cons, Option.map_some]
    rw [hothers]
    rfl

theorem Spans.last_eq (hs : Spans s it mid) (h : tree.HasShape s) :
    it.last tree = .ok (mid.getLast?.map Prod.snd) := by
  obtain ⟨rest, heq, -⟩ := hs.exists_take h .right
  rw [Iterator.last, Iterator.nextBack, heq, ok_bind, fromEnd, List.head?_reverse]
  rfl

end Iterator

namespace Tree

open Shape Queue Iterator

variable {tree : Tree} {s : Shape}

/-- An iteration starts with all nodes between its ends. -/
theorem HasShape.exists_iterator (h : tree.HasShape s) (hlive : tree.nodes.live = s.size) :
    ∃ it, tree.iterator = .ok it ∧ Spans s it s.inorder := by
  have hfirst : tree.first = .ok ((s.toward Side.left.other).head?.map Prod.fst) := h.outermost
  have hlast : tree.last = .ok ((s.toward Side.right.other).head?.map Prod.fst) := h.outermost
  refine ⟨⟨(s.toward Side.left.other).head?.map Prod.fst,
    (s.toward Side.right.other).head?.map Prod.fst, tree.size⟩, ?_, List.infix_rfl, hlive, ?_⟩
  · rw [Tree.iterator, hfirst, hlast]
    rfl
  · rintro side -
    rw [← toward_other_eq]
    cases side <;> rfl

end Tree

namespace Iteration

open Shape Queue Iterator

variable {tree : Tree} {s : Shape} {view : View}

/-- The items that a view shows of nodes. -/
def items (view : View) (nodes : List (Handle × Entry)) : List Item :=
  nodes.map (view.item ∘ Prod.snd)

/-- An iteration at work, with its copy, and a queue with one that was kept. -/
def Follows (s : Shape) (view : View) (iteration : Iteration) (state : List Item × List Item) :
    Prop :=
  ∃ mid kept, Spans s iteration.current mid ∧ Spans s iteration.saved kept ∧
    state = (items view mid, items view kept)

/-- Every command to an iteration is answered as by the queue. -/
theorem Follows.step (h : tree.HasShape s) (command : IterationCommand) (iteration : Iteration)
    (state : List Item × List Item) (hf : Follows s view iteration state) :
    ∃ next, Iteration.step tree view command iteration = .ok ((Queue.step command state).1, next) ∧
      Follows s view next (Queue.step command state).2 := by
  obtain ⟨mid, kept, hmid, hkept, rfl⟩ := hf
  have hitems : ∀ side, fromEnd side (items view mid) = items view (fromEnd side mid) :=
    fun side => (map_fromEnd _).symm
  cases command with
  | next side =>
    obtain ⟨rest, heq, hrest⟩ := hmid.exists_take h side
    refine ⟨{ iteration with current := rest }, ?_, _, kept, hrest, hkept, ?_⟩
    · simp only [Iteration.step, heq, ok_bind, pure_eq_ok, Queue.step, hitems]
      simp [items]
    · simp only [Queue.step, hitems]
      simp [items, map_fromEnd]
  | nth side n =>
    obtain ⟨rest, heq, hrest⟩ := hmid.exists_nth h side n
    refine ⟨{ iteration with current := rest }, ?_, _, kept, hrest, hkept, ?_⟩
    · simp only [Iteration.step, heq, ok_bind, pure_eq_ok, Queue.step, hitems]
      simp [items]
    · simp only [Queue.step, hitems]
      simp [items, map_fromEnd]
  | last =>
    refine ⟨iteration, ?_, mid, kept, hmid, hkept, rfl⟩
    simp only [Iteration.step, hmid.last_eq h, ok_bind, pure_eq_ok, Queue.step]
    simp [items]
  | length =>
    refine ⟨iteration, ?_, mid, kept, hmid, hkept, rfl⟩
    simp [Iteration.step, hmid.remaining, Queue.step, items]
  | bounds =>
    refine ⟨iteration, ?_, mid, kept, hmid, hkept, rfl⟩
    simp [Iteration.step, Iterator.sizeHint, hmid.remaining, Queue.step, items]
  | collect side =>
    refine ⟨iteration, ?_, mid, kept, hmid, hkept, rfl⟩
    simp only [Iteration.step, hmid.drain_eq h, ok_bind, pure_eq_ok, Queue.step, hitems]
    simp [items]
  | describe form =>
    refine ⟨iteration, ?_, mid, kept, hmid, hkept, rfl⟩
    simp only [Iteration.step, hmid.drain_eq h, ok_bind, pure_eq_ok, Queue.step]
    simp [items, fromEnd]
  | save => exact ⟨⟨iteration.current, iteration.current⟩, rfl, mid, mid, hmid, hmid, rfl⟩
  | restore => exact ⟨⟨iteration.saved, iteration.saved⟩, rfl, kept, kept, hkept, hkept, rfl⟩

/-- A session of an iteration answers as the queue of all items does. -/
theorem session_eq (h : tree.HasShape s) (hlive : tree.nodes.live = s.size) (view : View)
    (commands : List IterationCommand) :
    session tree view commands = .ok (Transcript.play Queue.step commands
      (s.entries.map view.item, s.entries.map view.item)).1 := by
  obtain ⟨it, hit, hspans⟩ := h.exists_iterator hlive
  have hitems : items view s.inorder = s.entries.map view.item := by
    simp [items, Shape.entries]
  have hstart : Follows s view ⟨it, it⟩ (s.entries.map view.item, s.entries.map view.item) :=
    ⟨_, _, hspans, hspans, by rw [hitems]⟩
  obtain ⟨last, heq, -⟩ := Transcript.finished_of_simulates (Follows.step h) commands hstart
  rw [session, hit, ok_bind, heq]
  rfl

end Iteration

end MeteredMap
