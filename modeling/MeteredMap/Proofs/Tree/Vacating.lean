import MeteredMap.Proofs.Preflight
import MeteredMap.Proofs.Tree.RedBlack

/-!
# Which slot a removal vacates

A removal seen slot by slot. Handles lead to slots, so whoever keeps a handle across a removal has
to know whether its entry is still there. Where the removed entry's node has a child missing, its
own slot is vacated and nothing else moves. Where both children are there, the entry that follows
moves into the slot, and the slot it came from is vacated. The vacated slot is the next to be taken:
it stays at the head of the free list until an insertion succeeds or more entries are taken out.

## Main definitions

* `MeteredMap.Drawing.inorder` : the nodes of a drawing in order, each with its slot and its entry.
* `MeteredMap.Tree.Reuses` : the next insertion takes the given slot.
* `MeteredMap.Tree.Operation.TakesOut` : the operations after which entries may be missing.

## Main results

* `MeteredMap.Shape.Removes.slots` : the two ways in which an entry is taken out of an order.
* `MeteredMap.Tree.HasShape.target_eq_iff` : a removal vacates the slot of its own entry exactly if
  a child is missing there.
* `MeteredMap.Tree.Sound.reuses` : the vacant slot at the head of the free list is taken next.
* `MeteredMap.Tree.Sound.runAll_keeping` : the free list stays as long as no entry comes or goes.
* `MeteredMap.Tree.Reachable.removeAt_slots` : a removal, slot by slot.
-/

namespace MeteredMap

/-- The nodes in order, each with its slot and its entry. -/
def Drawing.inorder : Drawing → List (Handle × Entry)
  | absent => []
  | node handle n left right => left.inorder ++ (handle, n.entry) :: right.inorder

namespace Shape

variable {x freed : Handle} {e : Entry} {before after : List (Handle × Entry)}
  {next : Option Handle}

@[simp] theorem inorder_drawing (s : Shape) (parent : Option Handle) :
    (s.drawing parent).inorder = s.inorder := by
  induction s generalizing parent with
  | absent => rfl
  | node c x e l r ihl ihr =>
    rw [drawing, Drawing.inorder, ihl, ihr]
    rfl

/-- One entry taken out of an order in which every slot is met once. What came before it stays as it
was. What comes after it stays as well if the entry's own slot is freed; otherwise the first of it
moves into this slot, and its own is freed. -/
theorem Removes.slots (h : Removes x e before freed next after)
    (hnodup : (before.map Prod.fst).Nodup) :
    ∃ pre post rest, before = pre ++ (x, e) :: post ∧ after = pre ++ rest ∧
      next = rest.head?.map Prod.fst ∧ rest.map Prod.snd = post.map Prod.snd ∧
      (freed = x ∧ rest = post ∨
        freed ≠ x ∧ ∃ ey others, post = (freed, ey) :: others ∧ rest = (x, ey) :: others) := by
  cases h with
  | direct pre post => exact ⟨pre, post, post, rfl, rfl, rfl, rfl, Or.inl ⟨rfl, rfl⟩⟩
  | swapped pre post y ey =>
    have hne : freed ≠ x := by
      rintro rfl
      rw [List.map_append, List.nodup_append] at hnodup
      exact (List.nodup_cons.mp hnodup.2.1).1 List.mem_cons_self
    exact ⟨pre, _, (x, ey) :: post, rfl, rfl, rfl, rfl, Or.inr ⟨hne, ey, post, rfl, rfl⟩⟩

end Shape

namespace Tree

open Shape

variable {α : Type} [Allocator α] {tree after : Tree} {s t : Shape} {vacant rest : List Handle}
  {x : Handle} {node : Node} {memory memory' : α} {operation : Operation}

/-! ### The slot that is vacated -/

/-- A removal vacates the slot of its own entry exactly if a child is missing there. -/
theorem HasShape.target_eq_iff (h : tree.HasShape s) {site : Excision} (hx : Excises x s site)
    (hnode : tree.nodes.get? x = some node) :
    node.entry = site.entry ∧ (site.target = x ↔ node.left = none ∨ node.right = none) := by
  cases hx with
  | noLeft path c e r =>
    obtain rfl := Option.some.inj (h.get?_branch.symm.trans hnode)
    exact ⟨rfl, fun _ => Or.inl rfl, fun _ => rfl⟩
  | noRight path c e l =>
    obtain rfl := Option.some.inj (h.get?_branch.symm.trans hnode)
    exact ⟨rfl, fun _ => Or.inr rfl, fun _ => rfl⟩
  | both path c e l hl p hp cy y ey b =>
    obtain rfl := Option.some.inj (h.get?_branch.symm.trans hnode)
    obtain ⟨w, hw⟩ := exists_root hl
    obtain ⟨z, hz⟩ := exists_root_plug p .left cy y ey absent b
    refine ⟨rfl, fun heq => absurd heq.symm h.ne_of_below, fun hnone => ?_⟩
    rw [hw, hz] at hnone
    rcases hnone with hnone | hnone <;> cases hnone

/-! ### The slot that is taken next -/

/-- An insertion that succeeds, in whatever memory, puts its entry into the given slot. It does
succeed for a key that is not there as soon as the memory grants the two blocks of the entry: no
larger table is asked for. -/
def Reuses (tree : Tree) (slot : Handle) : Prop :=
  ∀ (β : Type) [Allocator β] (memory : β) (key value : Blob),
    (∀ x after memory' calls,
        tree.insert memory key value = .ok ⟨⟨.ok x, after, memory'⟩, calls⟩ → x = slot) ∧
      ∀ calls, key.length = tree.keySize → value.length = tree.valueSize →
        tree.search key = .ok ⟨none, calls⟩ →
        Allocator.grantedBefore [tree.keyLayout, tree.valueLayout] memory = 2 →
        ∃ after memory', tree.insert memory key value = .ok ⟨⟨.ok slot, after, memory'⟩, calls⟩

/-- The vacant slot at the head of the free list is taken next. -/
theorem Sound.reuses (h : tree.Sound s (x :: vacant)) : tree.Reuses x := by
  intro β _ memory key value
  have hhead : ∀ y after memory' calls,
      tree.insert memory key value = .ok ⟨⟨.ok y, after, memory'⟩, calls⟩ → y = x := by
    intro y after memory' calls hok
    obtain ⟨path, capacity, linked, rest, -, -, -, -, -, -, -, -, hinserted⟩ :=
      h.exists_of_insert hok
    rcases hinserted.slot with hslot | ⟨hnil, -, -⟩
    · exact (List.cons.inj hslot).1.symm
    · cases hnil
  refine ⟨hhead, fun calls hkey hvalue habsent hgranted => ?_⟩
  have hfree : tree.nodes.free = some x := h.wellFormed.chain.1
  have hroom : tree.nodes.HasRoom := Or.inl (by rw [hfree]; rfl)
  have hmax : tree.size ≤ Handle.maxIndex := h.wellFormed.live_le_of_hasRoom hroom
  have hrefusal : tree.refusal memory = none := by
    rw [refusal, insertRequests_of_hasRoom hroom, hgranted]
    exact (if_neg (Nat.lt_irrefl 2)).trans (if_neg (Nat.not_lt.mpr hmax))
  rcases h.insert_of_absent memory hkey hvalue habsent with
    ⟨e, memory', hcause, -⟩ | ⟨y, after, memory', -, heq⟩
  · rw [hrefusal] at hcause
    cases hcause
  · obtain rfl := hhead y after memory' calls heq
    exact ⟨after, memory', heq⟩

/-- The operations after which entries may be missing. -/
def Operation.TakesOut : Operation → Prop
  | .remove _ => True
  | .removeAt .. => True
  | .clear => True
  | .becomeClone => True
  | _ => False

/-- An operation that takes nothing out adds one entry or leaves the vacant slots as they are. -/
theorem Sound.run_keeping (h : tree.Sound s vacant) (hp : operation.Permitted tree)
    (hkeeps : ¬ operation.TakesOut) (hrun : operation.run tree memory = .ok (after, memory')) :
    ∃ t rest, after.Sound t rest ∧
      (after.size = tree.size + 1 ∨ after.size = tree.size ∧ rest = vacant) := by
  have hsame : ∃ t rest, tree.Sound t rest ∧
      (tree.size = tree.size + 1 ∨ tree.size = tree.size ∧ rest = vacant) :=
    ⟨s, vacant, h, Or.inr ⟨rfl, rfl⟩⟩
  cases operation with
  | insert key value =>
    rcases h.insert_cases memory key value with
      ⟨e, calls, heq, -⟩ | ⟨e, memory'', calls, -, heq⟩ |
        ⟨path, x, capacity, memory'', after', rest, calls, -, heq, rfl, hinserted⟩
    · rw [Operation.run, heq] at hrun
      cases hrun
      exact hsame
    · rw [Operation.run, heq] at hrun
      cases hrun
      exact hsame
    · rw [Operation.run, heq] at hrun
      cases hrun
      refine ⟨_, rest, hinserted.sound, Or.inl ?_⟩
      rw [hinserted.sound.size_eq, h.size_eq, size_withLeaf]
  | overwriteAt x bytes offset =>
    obtain ⟨after', t, pre, e, post, heq, hafter, hk, -⟩ :=
      h.overwriteAt (h.hasShape.mem_handles_iff.mpr hp) bytes offset
    rw [Operation.run, heq] at hrun
    cases hrun
    exact ⟨t, vacant, hafter, Or.inr ⟨hk.nodes.live, rfl⟩⟩
  | search _ | node _ | neighbor _ _ | extreme _ _ | outermost _ | height | entries =>
    obtain ⟨_, -, hend⟩ := bind_eq_ok_iff.mp hrun
    cases hend
    exact hsame
  | clone =>
    obtain ⟨⟨⟨copy, memory''⟩, calls⟩, -, hend⟩ := bind_eq_ok_iff.mp hrun
    cases copy with
    | error e =>
      cases hend
      exact hsame
    | ok copy =>
      obtain ⟨_, -, hend⟩ := bind_eq_ok_iff.mp hend
      cases hend
      exact hsame
  | remove _ | removeAt _ _ | clear | becomeClone => exact absurd trivial hkeeps

/-- A run that takes nothing out leaves more entries than there were or the vacant slots as they
were. -/
theorem Sound.runAll_keeping {operations : List Operation} (h : tree.Sound s vacant)
    (hp : Operation.AllPermitted operations tree memory)
    (hkeeps : ∀ operation ∈ operations, ¬ operation.TakesOut)
    (hrun : Operation.runAll operations tree memory = .ok (after, memory')) :
    ∃ t rest, after.Sound t rest ∧
      (tree.size < after.size ∨ after.size = tree.size ∧ rest = vacant) := by
  induction operations generalizing tree s vacant memory with
  | nil =>
    cases hrun
    exact ⟨s, vacant, h, Or.inr ⟨rfl, rfl⟩⟩
  | cons operation operations ih =>
    obtain ⟨⟨middle, memory''⟩, hstep, hrest⟩ := bind_eq_ok_iff.mp hrun
    obtain ⟨hpermitted, hallowed⟩ := hp
    rw [hstep] at hallowed
    obtain ⟨hkeep, hkeeps⟩ := List.forall_mem_cons.mp hkeeps
    obtain ⟨u, vacant', hmiddle, hsize⟩ := h.run_keeping hpermitted hkeep hstep
    obtain ⟨t, rest, hafter, hsize'⟩ := ih hmiddle hallowed hkeeps hrest
    refine ⟨t, rest, hafter, ?_⟩
    rcases hsize with hmore | ⟨hsame, rfl⟩
    · exact Or.inl (by omega)
    · rwa [hsame] at hsize'

/-! ### Removals slot by slot -/

/-- A removal from a sound tree, slot by slot. -/
theorem Sound.removeAt_of_node (h : tree.Sound s vacant) (hnode : tree.nodes.get? x = some node)
    (memory : α) :
    ∃ pre post rest freed after t, s.inorder = pre ++ (x, node.entry) :: post ∧
      tree.removeAt memory x =
        .ok (⟨node.entry, rest.head?.map Prod.fst⟩, after, tree.releaseBlocks memory) ∧
      after.Sound t (freed :: vacant) ∧ t.inorder = pre ++ rest ∧
      rest.map Prod.snd = post.map Prod.snd ∧
      (node.left = none ∨ node.right = none → freed = x ∧ rest = post) ∧
      (node.left.isSome ∧ node.right.isSome →
        ∃ e others, post = (freed, e) :: others ∧ rest = (x, e) :: others) := by
  have hx : x ∈ s.handles := h.hasShape.mem_handles_iff.mpr (by rw [hnode]; rfl)
  obtain ⟨site, hsite⟩ := exists_excises hx
  obtain ⟨hentry, hchildren⟩ := h.hasShape.target_eq_iff hsite hnode
  obtain ⟨after, hremove, hafter, -, -⟩ := h.removeAt_of_excises hsite memory
  obtain ⟨pre, post, rest, hbefore, hrest, hnext, hentries, hslots⟩ :=
    hsite.removes.slots h.hasShape.nodup
  rw [← hentry] at hbefore
  rw [← hentry, hnext] at hremove
  refine ⟨pre, post, rest, site.target, after, _, hbefore, hremove, hafter, ?_, hentries,
    fun hmissing => ?_, fun hboth => ?_⟩
  · rw [inorder_without, hrest]
  · rcases hslots with hdirect | ⟨hne, -⟩
    · exact hdirect
    · exact absurd (hchildren.mpr hmissing) hne
  · rcases hslots with ⟨heq, -⟩ | ⟨-, hmoved⟩
    · rcases hchildren.mp heq with hnone | hnone
      · simp [hnone] at hboth
      · simp [hnone] at hboth
    · exact hmoved

/-- A removal from a reachable tree, whatever its comparator answers. In order, the slots before the
removed entry's keep what they hold. If a child is missing at the removed entry's node, its slot is
freed and the slots after it keep what they hold. Otherwise the entry that follows moves into the
slot, its own is freed, and the slots after that one keep what they hold. The answer is where the
following entry is afterwards, and nothing only if there is none. The value goes to a buffer of its
length. The freed slot is the next to be taken, until another entry comes or goes. -/
theorem Reachable.removeAt_slots (hr : Reachable tree) (hnode : tree.nodes.get? x = some node)
    (memory : α) :
    ∃ drawing drawing' pre post rest freed after,
      tree.drawing = .ok drawing ∧ drawing.inorder = pre ++ (x, node.entry) :: post ∧
      tree.removeAt memory x =
        .ok (⟨node.entry, rest.head?.map Prod.fst⟩, after, tree.releaseBlocks memory) ∧
      (∀ buffer : Blob, buffer.length = tree.valueSize →
        tree.removeAtInto memory x buffer =
          .ok ((rest.head?.map Prod.fst, node.entry.value), after, tree.releaseBlocks memory)) ∧
      after.drawing = .ok drawing' ∧ drawing'.inorder = pre ++ rest ∧
      after.entries = .ok (pre.map Prod.snd ++ post.map Prod.snd) ∧
      (node.left = none ∨ node.right = none → freed = x ∧ rest = post) ∧
      (node.left.isSome ∧ node.right.isSome →
        ∃ e others, post = (freed, e) :: others ∧ rest = (x, e) :: others) ∧
      (rest.head?.map Prod.fst = none ↔ post = []) ∧
      (∀ y, rest.head?.map Prod.fst = some y → ∃ follower slot others,
        after.nodes.get? y = some follower ∧ post = (slot, follower.entry) :: others) ∧
      after.nodes.get? freed = none ∧
      ∀ (β : Type) [Allocator β] (other other' : β) (operations : List Operation) (later : Tree),
        Operation.AllPermitted operations after other →
        (∀ operation ∈ operations, ¬ operation.TakesOut) →
        Operation.runAll operations after other = .ok (later, other') →
        later.size = after.size → later.Reuses freed := by
  obtain ⟨s, vacant, h⟩ := hr.sound
  obtain ⟨pre, post, rest, freed, after, t, hbefore, hremove, hafter, hrest, hentries, hmissing,
    hboth⟩ := h.removeAt_of_node hnode memory
  refine ⟨s.drawing none, t.drawing none, pre, post, rest, freed, after, h.hasShape.drawing, ?_,
    hremove, fun buffer hbuffer => ?_, hafter.hasShape.drawing, ?_, ?_, hmissing, hboth, ?_, ?_,
    ?_, ?_⟩
  · rw [inorder_drawing, hbefore]
  · have hadmits : tree.Admits node.entry :=
      h.admits node.entry (by simp [Shape.entries, hbefore])
    rw [removeAtInto, hremove]
    simp only [ok_bind, if_pos (hadmits.2.trans hbuffer.symm), pure_eq_ok]
  · rw [inorder_drawing, hrest]
  · rw [hafter.hasShape.entries hafter.live_eq, Shape.entries, hrest, List.map_append, hentries]
  · rw [Option.map_eq_none_iff, List.head?_eq_none_iff, ← List.map_eq_nil_iff (f := Prod.snd),
      hentries, List.map_eq_nil_iff]
  · intro _ hnext
    obtain ⟨⟨y, e⟩, hhead, rfl⟩ := Option.map_eq_some_iff.mp hnext
    obtain ⟨others, rfl⟩ := List.head?_eq_some_iff.mp hhead
    have hmem : (y, e) ∈ t.inorder := by
      rw [hrest]
      exact List.mem_append_right pre List.mem_cons_self
    obtain ⟨follower, hfollower, rfl⟩ := hafter.hasShape.exists_node_of_mem hmem
    obtain ⟨⟨slot, e⟩, post, rfl, hfirst, -⟩ := List.map_eq_cons_iff.mp hentries.symm
    obtain rfl : e = follower.entry := hfirst
    exact ⟨follower, slot, post, Arena.get_eq_ok_iff.mp hfollower, rfl⟩
  · obtain ⟨-, next, hlink, -⟩ := hafter.wellFormed.chain
    exact Arena.get?_of_link? hlink
  · intro β _ other other' operations later hp hkeeps hrun hsize
    obtain ⟨u, vacant', hlater, hmore | ⟨-, rfl⟩⟩ := hafter.runAll_keeping hp hkeeps hrun
    · omega
    · exact hlater.reuses

/-- The middle one of three entries lies above the other two. Its removal moves the last one into
its slot and frees the slot where the last one was. -/
theorem Reachable.removeAt_slots_sample :
    ∃ full memory' after,
      Operation.runAll (sampleRun.take 3) sampleTree sampleMemory = .ok (full, memory') ∧
      full.removeAt memory' ⟨2, by decide⟩ =
        .ok (⟨⟨[2], [0]⟩, some ⟨2, by decide⟩⟩, after, full.releaseBlocks memory') ∧
      after.entries = .ok [⟨[1], [0]⟩, ⟨[3], [0]⟩] ∧
      after.nodes.get? ⟨0, by decide⟩ = none ∧ after.Reuses ⟨0, by decide⟩ := by
  obtain ⟨full, memory', hrun, hfull⟩ := exists_sampleRun_take 3
  have hroot : (Operation.runAll (sampleRun.take 3) sampleTree sampleMemory).map
      (fun p => p.1.nodes.get? ⟨2, by decide⟩) = .ok (some
        { entry := ⟨[2], [0]⟩, color := .black, parent := none, left := some ⟨1, by decide⟩,
          right := some ⟨0, by decide⟩ }) := rfl
  have horder : (Operation.runAll (sampleRun.take 3) sampleTree sampleMemory >>= fun p =>
      p.1.drawing.map Drawing.inorder) = .ok [(⟨1, by decide⟩, ⟨[1], [0]⟩),
        (⟨2, by decide⟩, ⟨[2], [0]⟩), (⟨0, by decide⟩, ⟨[3], [0]⟩)] := rfl
  rw [hrun] at hroot horder
  obtain ⟨drawing, drawing', pre, post, rest, freed, after, hdrawing, hsplit, hremove, -, -, -,
    hentries, -, hboth, -, -, hfreed, hreuses⟩ :=
    Reachable.removeAt_slots hfull (Except.ok.inj hroot) memory'
  obtain ⟨e, others, rfl, rfl⟩ := hboth ⟨rfl, rfl⟩
  rw [ok_bind, hdrawing] at horder
  have hlist := hsplit.symm.trans (Except.ok.inj horder)
  match pre, hlist with
  | [], hlist => simp at hlist
  | _ :: _ :: pre, hlist =>
    have hlength := congrArg List.length hlist
    simp only [List.length_append, List.length_cons, List.length_nil] at hlength
    omega
  | [first], hlist =>
    cases hlist
    exact ⟨full, memory', after, hrun, hremove, hentries, hfreed,
      hreuses _ memory' memory' [] after trivial (List.forall_mem_nil _) rfl rfl⟩

end Tree

end MeteredMap
