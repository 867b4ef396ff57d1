import Mathlib.Logic.Function.Basic
import MeteredMap.Proofs.Queue
import MeteredMap.Proofs.Tree.RedBlack

/-!
# Any number of iterators over one tree

An iterator may be copied and reversed, and every copy goes on by itself. What such a family of
iterators is specified by: double-ended queues, each of which also keeps what was taken from its two
ends. Put together again, the items taken from the front, those left and those taken from the back
are at every moment all items of the tree, so none is met twice or lost where the ends meet.

A reversed iterator is the same iterator with the other end as its front.

## Main definitions

* `MeteredMap.Deque` : a double-ended queue with what was taken from its ends.
* `MeteredMap.DirectedIterator` : an iterator with one end as its front.
* `MeteredMap.DirectedIterator.Command` : calls on any number of iterators, and copies.
* `MeteredMap.DirectedIterator.Exhausts` : an iterator and its queue, as a caller can tell them.

## Main results

* `MeteredMap.DirectedIterator.Follows.answer` : every call is answered as by the queue.
* `MeteredMap.Tree.Reachable.iterators_eq_deques` : families of iterators are double-ended queues.
-/

namespace MeteredMap

open Queue

/-- The end of an order that lies on a side, seen with `front` as the left. -/
def Side.seenFrom (front : Side) : Side → Side
  | left => front
  | right => front.other

/-! ### Queues that keep what was taken -/

/-- A double-ended queue with what was taken from either end, in the order in which it was
taken. -/
structure Deque (β : Type) where
  front : List β
  rest : List β
  back : List β

namespace Deque

variable {β : Type} {q : Deque β}

/-- A queue from which nothing was taken yet. -/
def full (items : List β) : Deque β :=
  ⟨[], items, []⟩

/-- All items that were ever in the queue, from the front to the back. -/
def all (q : Deque β) : List β :=
  q.front ++ q.rest ++ q.back.reverse

/-- The queue with its ends exchanged. -/
def reverse (q : Deque β) : Deque β :=
  ⟨q.back, q.rest.reverse, q.front⟩

/-- The queue after `n` items were taken from the front, or all if fewer are left. -/
def dropFront (q : Deque β) (n : Nat) : Deque β :=
  ⟨q.front ++ q.rest.take n, q.rest.drop n, q.back⟩

/-- The queue after `n` items were taken from an end, or all if fewer are left. -/
def drop (q : Deque β) (n : Nat) : Side → Deque β
  | .left => q.dropFront n
  | .right => (q.reverse.dropFront n).reverse

theorem all_reverse : q.reverse.all = q.all.reverse := by
  simp [all, reverse]

theorem all_dropFront (n : Nat) : (q.dropFront n).all = q.all := by
  rw [all, dropFront, all, List.append_assoc q.front, List.take_append_drop]

/-- Taking items moves them from one part of the queue to another and loses none. -/
theorem all_drop (n : Nat) (side : Side) : (q.drop n side).all = q.all := by
  cases side
  · exact all_dropFront n
  · rw [drop, all_reverse, all_dropFront, all_reverse, List.reverse_reverse]

theorem rest_drop (n : Nat) (side : Side) :
    (q.drop n side).rest = fromEnd side ((fromEnd side q.rest).drop n) := by
  cases side <;> rfl

end Deque

/-! ### Iterators in a direction -/

/-- An iterator with the end that counts as its front. -/
structure DirectedIterator where
  iterator : Iterator
  front : Side

namespace DirectedIterator

/-- A call on an iterator. The sides are the front and the back that the iterator has by itself. -/
inductive Query where
  /-- Take the next item from an end. -/
  | next (side : Side)
  /-- Drop `n` items from an end and take the one behind them. -/
  | nth (side : Side) (n : Nat)
  /-- Show the last item of a copy. -/
  | last
  /-- Count the items left. -/
  | length
  /-- Give bounds for the number of items left. -/
  | bounds
  /-- Exchange the ends. -/
  | reverse

/-- A call on one of several iterators, each in a place of its own. -/
inductive Command where
  | ask (place : Nat) (query : Query)
  /-- Put a copy of the iterator in one place into another. -/
  | copy (source target : Nat)

/-- The answer to a call, and the iterator after it. A plain iterator finds its last item from the
back, a reversed one goes through all items left. -/
def answer (tree : Tree) (view : View) (query : Query) (d : DirectedIterator) :
    Except Fault (IterationAnswer × DirectedIterator) := do
  match query with
  | .next side =>
    let (entry, it) ← d.iterator.take tree (d.front.seenFrom side)
    return (.item (entry.map view.item), { d with iterator := it })
  | .nth side n =>
    let (entry, it) ← d.iterator.nth tree (d.front.seenFrom side) n
    return (.item (entry.map view.item), { d with iterator := it })
  | .last =>
    match d.front with
    | .left => return (.item ((← d.iterator.last tree).map view.item), d)
    | .right => return (.item ((← d.iterator.drain tree .right).getLast?.map view.item), d)
  | .length => return (.length d.iterator.remaining, d)
  | .bounds => return (.bounds d.iterator.sizeHint.1 d.iterator.sizeHint.2, d)
  | .reverse => return (.done, { d with front := d.front.other })

/-- The answer to a command, and the iterators after it. -/
def step (tree : Tree) (view : View) (command : Command) (places : Nat → DirectedIterator) :
    Except Fault (IterationAnswer × (Nat → DirectedIterator)) := do
  match command with
  | .ask i query =>
    let (answer, d) ← (places i).answer tree view query
    return (answer, Function.update places i d)
  | .copy i j => return (.done, Function.update places j (places i))

/-- The answers to commands that start with a new iterator in every place, and the iterators after
them. -/
def session (tree : Tree) (view : View) (commands : List Command) :
    Except Fault (List IterationAnswer × (Nat → DirectedIterator)) := do
  let start ← tree.iterator
  (Transcript.run (step tree view) commands fun _ => ⟨start, .left⟩).finished

end DirectedIterator

namespace Deque

open DirectedIterator

/-- The answer to a call, and the queue after it. -/
def answer (query : Query) (q : Deque Item) : IterationAnswer × Deque Item :=
  match query with
  | .next side => (.item (fromEnd side q.rest).head?, q.drop 1 side)
  | .nth side n => (.item (fromEnd side q.rest)[n]?, q.drop (n + 1) side)
  | .last => (.item q.rest.getLast?, q)
  | .length => (.length q.rest.length, q)
  | .bounds => (.bounds q.rest.length (some q.rest.length), q)
  | .reverse => (.done, q.reverse)

/-- The answer to a command, and the queues after it. -/
def step (command : Command) (places : Nat → Deque Item) :
    IterationAnswer × (Nat → Deque Item) :=
  match command with
  | .ask i query =>
    let (answer, q) := (places i).answer query
    (answer, Function.update places i q)
  | .copy i j => (.done, Function.update places j (places i))

/-- The answers to commands that start with a queue of all items in every place, and the queues
after them. -/
def session (items : List Item) (commands : List Command) :
    List IterationAnswer × (Nat → Deque Item) :=
  Transcript.play step commands fun _ => full items

end Deque

/-! ### One call -/

namespace Queue

variable {β : Type} {items : List β}

theorem fromEnd_seenFrom (front side : Side) :
    fromEnd side (fromEnd front items) = fromEnd (front.seenFrom side) items := by
  cases front <;> cases side <;> simp [fromEnd, Side.seenFrom, Side.other]

end Queue

namespace DirectedIterator

open Shape Iterator Iteration

variable {tree : Tree} {s : Shape} {view : View} {d : DirectedIterator} {q : Deque Item}

/-- An iterator, and a queue of the items between its ends in its direction. -/
def Follows (s : Shape) (view : View) (d : DirectedIterator) (q : Deque Item) : Prop :=
  ∃ mid, Spans s d.iterator mid ∧ q.rest = fromEnd d.front (items view mid) ∧
    q.all = fromEnd d.front (items view s.inorder)

/-- Items met from an end of a queue are the nodes met from the end of the tree that it faces. -/
private theorem fromEnd_rest {mid : List (Handle × Entry)} (side : Side)
    (hrest : q.rest = fromEnd d.front (items view mid)) :
    fromEnd side q.rest = items view (fromEnd (d.front.seenFrom side) mid) := by
  rw [hrest, fromEnd_seenFrom]
  exact (map_fromEnd _).symm

/-- Items dropped from an end and the one behind them taken, by an iterator and by its queue. -/
theorem Follows.nth (hf : Follows s view d q) (h : tree.HasShape s) (side : Side) (n : Nat) :
    ∃ entry it, d.iterator.nth tree (d.front.seenFrom side) n = .ok (entry, it) ∧
      entry.map view.item = (fromEnd side q.rest)[n]? ∧
      Follows s view { d with iterator := it } (q.drop (n + 1) side) := by
  obtain ⟨mid, hmid, hrest, hall⟩ := hf
  obtain ⟨it, heq, hit⟩ := hmid.exists_nth h (d.front.seenFrom side) n
  refine ⟨_, it, heq, ?_, _, hit, ?_, (Deque.all_drop _ _).trans hall⟩
  · rw [fromEnd_rest side hrest]
    simp [items]
  · have hback : ∀ l : List (Handle × Entry),
        fromEnd side (items view l) =
          fromEnd d.front (items view (fromEnd (d.front.seenFrom side) l)) := by
      intro l
      rw [items, items, map_fromEnd, ← fromEnd_seenFrom]
      cases d.front <;> cases side <;> simp [fromEnd]
    rw [Deque.rest_drop, fromEnd_rest side hrest, ← hback]
    simp [items]

/-- The last item, found from the back or by going through all that are left. -/
theorem Follows.last (hf : Follows s view d q) (h : tree.HasShape s) :
    d.answer tree view .last = .ok (.item q.rest.getLast?, d) := by
  obtain ⟨mid, hmid, hrest, -⟩ := hf
  rw [DirectedIterator.answer, hrest]
  cases hfront : d.front with
  | left =>
    simp only [hmid.last_eq h, ok_bind, pure_eq_ok]
    simp [items, fromEnd]
  | right =>
    simp only [hmid.drain_eq h, ok_bind, pure_eq_ok]
    simp [items, fromEnd]

/-- Every call on an iterator is answered as by its queue. -/
theorem Follows.answer (hf : Follows s view d q) (h : tree.HasShape s) (query : Query) :
    ∃ next, d.answer tree view query = .ok ((q.answer query).1, next) ∧
      Follows s view next (q.answer query).2 := by
  have hlength : d.iterator.remaining = q.rest.length := by
    obtain ⟨mid, hmid, hrest, -⟩ := hf
    simp [hmid.remaining, hrest, items]
  cases query with
  | next side =>
    obtain ⟨entry, it, heq, hentry, hnext⟩ := hf.nth h side 0
    refine ⟨{ d with iterator := it }, ?_, hnext⟩
    rw [DirectedIterator.answer, ← Iterator.nth, heq, ok_bind, Deque.answer,
      List.head?_eq_getElem?, ← hentry]
    rfl
  | nth side n =>
    obtain ⟨entry, it, heq, hentry, hnext⟩ := hf.nth h side n
    refine ⟨{ d with iterator := it }, ?_, hnext⟩
    rw [DirectedIterator.answer, heq, ok_bind, Deque.answer, ← hentry]
    rfl
  | last => exact ⟨d, hf.last h, hf⟩
  | length => exact ⟨d, by rw [Deque.answer, ← hlength]; rfl, hf⟩
  | bounds => exact ⟨d, by rw [Deque.answer, ← hlength]; rfl, hf⟩
  | reverse =>
    obtain ⟨mid, hmid, hrest, hall⟩ := hf
    refine ⟨{ d with front := d.front.other }, rfl, mid, hmid, ?_, ?_⟩
    · rw [fromEnd_other, ← hrest]
      rfl
    · rw [fromEnd_other, ← hall]
      exact Deque.all_reverse

/-! ### Sessions -/

/-- Every command to several iterators is answered as by their queues. -/
theorem Follows.step (h : tree.HasShape s) (command : Command) (places : Nat → DirectedIterator)
    (queues : Nat → Deque Item) (hf : ∀ i, Follows s view (places i) (queues i)) :
    ∃ next, DirectedIterator.step tree view command places =
        .ok ((Deque.step command queues).1, next) ∧
      ∀ i, Follows s view (next i) ((Deque.step command queues).2 i) := by
  have hupdate : ∀ {d q} (j : Nat), Follows s view d q →
      ∀ i, Follows s view (Function.update places j d i) (Function.update queues j q i) := by
    intro d q j hdq i
    by_cases hij : i = j
    · subst hij
      rw [Function.update_self, Function.update_self]
      exact hdq
    · rw [Function.update_of_ne hij, Function.update_of_ne hij]
      exact hf i
  cases command with
  | ask i query =>
    obtain ⟨next, heq, hnext⟩ := (hf i).answer h query
    exact ⟨_, by rw [DirectedIterator.step, heq]; rfl, hupdate i hnext⟩
  | copy i j => exact ⟨_, rfl, hupdate j (hf i)⟩

/-- What a caller can tell of an iterator from the queue of what it has left: nothing was met twice
or lost on the way, the count of what is left and both bounds for it are exact, an exhausted
iterator gives nothing more and stays as it is, and an item asked for beyond the end takes all that
is left. -/
structure Exhausts (tree : Tree) (all : List Item) (d : DirectedIterator) (q : Deque Item) :
    Prop where
  conserved : q.front ++ q.rest ++ q.back.reverse = fromEnd d.front all
  length : d.iterator.remaining = q.rest.length
  bounds : d.iterator.sizeHint = (q.rest.length, some q.rest.length)
  fused : d.iterator.remaining = 0 → ∀ side, d.iterator.take tree side = .ok (none, d.iterator)
  beyond : ∀ side n, d.iterator.remaining ≤ n →
    ∃ it, d.iterator.nth tree side n = .ok (none, it) ∧ it.remaining = 0

theorem Follows.exhausts (hf : Follows s view d q) (h : tree.HasShape s) :
    Exhausts tree (items view s.inorder) d q := by
  obtain ⟨mid, hmid, hrest, hall⟩ := hf
  have hlength : d.iterator.remaining = q.rest.length := by
    simp [hmid.remaining, hrest, items]
  refine ⟨hall, hlength, ?_, fun hzero side => ?_, fun side n hn => ?_⟩
  · rw [Iterator.sizeHint, hlength]
  · rw [Iterator.take, if_pos hzero]
    rfl
  · obtain ⟨it, heq, hit⟩ := hmid.exists_nth h side n
    have hfew : (fromEnd side mid).length ≤ n := by rwa [length_fromEnd, ← hmid.remaining]
    refine ⟨it, ?_, ?_⟩
    · rw [heq, List.getElem?_eq_none hfew]
      rfl
    · rw [hit.remaining, length_fromEnd, List.drop_eq_nil_of_le (by omega)]
      rfl

end DirectedIterator

namespace Tree

variable {tree : Tree}

/-- Any number of iterators over a reachable tree, whatever its comparator, answer every run of
calls as double-ended queues do that all start with the entries of the tree in order, as the view
shows them; and so they stand after every run. -/
theorem Reachable.iterators_eq_deques (hr : Reachable tree) (view : View)
    (commands : List DirectedIterator.Command) :
    ∃ drawing places, tree.drawing = .ok drawing ∧ drawing.entries.length = tree.size ∧
      DirectedIterator.session tree view commands =
        .ok ((Deque.session (drawing.entries.map view.item) commands).1, places) ∧
      ∀ i, (places i).Exhausts tree (drawing.entries.map view.item)
        ((Deque.session (drawing.entries.map view.item) commands).2 i) := by
  obtain ⟨s, vacant, h⟩ := hr.sound
  obtain ⟨start, hstart, hspans⟩ := h.hasShape.exists_iterator h.live_eq
  have hitems : Iteration.items view s.inorder = s.entries.map view.item := by
    simp [Iteration.items, Shape.entries]
  have hfull : ∀ _ : Nat, DirectedIterator.Follows s view ⟨start, .left⟩
      (Deque.full (s.entries.map view.item)) := by
    refine fun _ => ⟨s.inorder, hspans, hitems.symm, ?_⟩
    rw [hitems, Deque.all, Deque.full]
    simp [fromEnd]
  obtain ⟨places, hsession, hplaces⟩ := Transcript.finished_of_simulates
    (R := fun (places : Nat → DirectedIterator) (queues : Nat → Deque Item) =>
      ∀ i, DirectedIterator.Follows s view (places i) (queues i))
    (DirectedIterator.Follows.step h.hasShape) commands hfull
  refine ⟨s.drawing none, places, h.hasShape.drawing, ?_, ?_, fun i => ?_⟩
  · rw [Shape.entries_drawing, h.size_eq]
    exact List.length_map ..
  · rw [DirectedIterator.session, hstart, Shape.entries_drawing]
    exact hsession
  · rw [Shape.entries_drawing, ← hitems]
    rw [← hitems] at hplaces
    exact (hplaces i).exhausts h.hasShape

/-- Items taken from both ends of one iterator, from both ends of a reversed copy of what it then
has left, and from the first again beyond its end. -/
def sampleQueries : List DirectedIterator.Command :=
  [.ask 0 (.next .left), .copy 0 1, .ask 1 .reverse, .ask 0 (.next .right), .ask 1 (.nth .left 1),
    .ask 1 .last, .ask 0 .last, .ask 0 (.nth .left 7), .ask 0 (.next .right), .ask 1 .bounds]

example :
    ((Deque.session [.blob [1], .blob [2], .blob [3], .blob [4]] sampleQueries).2 1).back =
      [.blob [1]] := by
  decide

theorem Reachable.iterators_eq_deques_sample :
    ∃ (full : Tree) (memory' : Budget Heap) (places : Nat → DirectedIterator),
      Operation.runAll (sampleRun.take 4) sampleTree sampleMemory = .ok (full, memory') ∧
      DirectedIterator.session full .keys sampleQueries =
        .ok ([.item (some (.blob [1])), .done, .done, .item (some (.blob [4])),
          .item (some (.blob [3])), .item (some (.blob [2])), .item (some (.blob [3])), .item none,
          .item none, .bounds 1 (some 1)], places) ∧
      (places 1).Exhausts full [.blob [1], .blob [2], .blob [3], .blob [4]]
        ⟨[.blob [4], .blob [3]], [.blob [2]], [.blob [1]]⟩ := by
  obtain ⟨full, memory', hrun, hfull⟩ := exists_sampleRun_take 4
  have hkeys : (Operation.runAll (sampleRun.take 4) sampleTree sampleMemory >>= fun p =>
      (fun drawing => drawing.entries.map View.keys.item) <$> p.1.drawing) =
        .ok [.blob [1], .blob [2], .blob [3], .blob [4]] := rfl
  obtain ⟨drawing, places, hdrawing, -, hsession, hplaces⟩ :=
    Reachable.iterators_eq_deques hfull .keys sampleQueries
  rw [hrun, ok_bind, hdrawing, map_ok, Except.ok.injEq] at hkeys
  rw [hkeys] at hsession hplaces
  exact ⟨full, memory', places, hrun, hsession, hplaces 1⟩

end Tree

end MeteredMap
