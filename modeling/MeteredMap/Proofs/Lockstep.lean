import Mathlib.Logic.Equiv.Basic
import MeteredMap.Proofs.Tree.Reachability
import MeteredMap.Proofs.Tree.Renaming

/-!
# Independence of slots

Which slot a node lies in, which slots are vacant or were never used, and how many slots there is
memory for depends on the past of a tree. Nothing that a tree does depends on it. Two reachable
trees that agree but for a renaming of their handles give corresponding answers to every command,
and agree after it, until a memory refuses a request. The renaming grows with the handles of new
entries, and nothing else is added to it.

## Main definitions

* `MeteredMap.NodeCommand` : commands that may name an entry by its handle.
* `MeteredMap.Tree.Agree` : trees that agree but for a renaming of their handles.
* `MeteredMap.Tree.Lockstep` : runs of the same commands on both.

## Main results

* `MeteredMap.Tree.Aligned.run` : one command, side by side.
* `MeteredMap.Tree.Reachable.stays_in_lockstep` : whole runs on reachable trees.
-/

namespace MeteredMap

variable {α β γ : Type}

/-! ### Commands -/

/-- A command to a tree, about an entry by its key or by its handle. -/
inductive NodeCommand where
  | insert (key value : Blob)
  | search (key : Blob)
  /-- Remove the entry of a key. -/
  | remove (key : Blob)
  | removeAt (handle : Handle)
  /-- Write over the value of a key. -/
  | overwrite (key bytes : Blob) (offset : Nat)
  | overwriteAt (handle : Handle) (bytes : Blob) (offset : Nat)
  | clear

/-- The answer to such a command. -/
inductive NodeAnswer where
  | inserted (result : Except MapError Handle)
  | found (handle : Option Handle)
  | removed (result : Except MapError Entry)
  | removedAt (removal : Removal)
  /-- The value as it was. -/
  | overwritten (result : Except MapError Blob)
  | done

namespace NodeAnswer

/-- The answer with every handle renamed. -/
def rename (f : Handle → Handle) : NodeAnswer → NodeAnswer
  | inserted result => inserted (result.map f)
  | found handle => found (handle.map f)
  | removedAt ⟨entry, next⟩ => removedAt ⟨entry, next.map f⟩
  | answer => answer

/-- The command failed since its memory refused a request. -/
def LacksMemory (answer : NodeAnswer) : Prop :=
  answer = inserted (.error .noMemory)

/-- The renaming after a command was answered on both sides: the handle of a new entry goes to the
handle of its counterpart. -/
def follow (f : Handle → Handle) : NodeAnswer → NodeAnswer → Handle → Handle
  | inserted (.ok x), inserted (.ok x') => Function.update f x x'
  | _, _ => f

end NodeAnswer

namespace NodeCommand

/-- The command with every handle renamed. -/
def rename (f : Handle → Handle) : NodeCommand → NodeCommand
  | removeAt handle => removeAt (f handle)
  | overwriteAt handle bytes offset => overwriteAt (f handle) bytes offset
  | command => command

/-- What a caller has to see to: a handle is live. -/
def Permitted (tree : Tree) : NodeCommand → Prop
  | removeAt handle => (tree.nodes.get? handle).isSome
  | overwriteAt handle .. => (tree.nodes.get? handle).isSome
  | _ => True

/-- Carries out a command. -/
def run [Allocator α] (command : NodeCommand) (tree : Tree) (memory : α) :
    Except Fault (Traced (Outcome Tree α NodeAnswer)) := do
  match command with
  | insert key value =>
    let ⟨⟨result, tree, memory⟩, calls⟩ ← tree.insert memory key value
    return ⟨⟨.inserted result, tree, memory⟩, calls⟩
  | search key =>
    let ⟨handle, calls⟩ ← tree.search key
    return ⟨⟨.found handle, tree, memory⟩, calls⟩
  | remove key =>
    let ⟨⟨result, tree, memory⟩, calls⟩ ← tree.extract memory key
    return ⟨⟨.removed result, tree, memory⟩, calls⟩
  | removeAt handle =>
    let (removal, tree, memory) ← tree.removeAt memory handle
    return ⟨⟨.removedAt removal, tree, memory⟩, []⟩
  | overwrite key bytes offset =>
    let ⟨(result, tree), calls⟩ ← tree.overwrite key bytes offset
    return ⟨⟨.overwritten result, tree, memory⟩, calls⟩
  | overwriteAt handle bytes offset =>
    let tree ← tree.overwriteAt handle bytes offset
    return ⟨⟨.done, tree, memory⟩, []⟩
  | clear =>
    let (tree, memory) ← tree.clear memory
    return ⟨⟨.done, tree, memory⟩, []⟩

section Run

variable [Allocator α] {tree after : Tree} {memory memory' : α} {key value bytes : Blob}
  {offset : Nat} {x : Handle} {calls : List Call}

theorem run_insert {result : Except MapError Handle}
    (h : tree.insert memory key value = .ok ⟨⟨result, after, memory'⟩, calls⟩) :
    (insert key value).run tree memory = .ok ⟨⟨.inserted result, after, memory'⟩, calls⟩ := by
  rw [run, h]
  rfl

theorem run_search {handle : Option Handle} (h : tree.search key = .ok ⟨handle, calls⟩)
    (memory : α) : (search key).run tree memory = .ok ⟨⟨.found handle, tree, memory⟩, calls⟩ := by
  rw [run, h]
  rfl

theorem run_remove {result : Except MapError Entry}
    (h : tree.extract memory key = .ok ⟨⟨result, after, memory'⟩, calls⟩) :
    (remove key).run tree memory = .ok ⟨⟨.removed result, after, memory'⟩, calls⟩ := by
  rw [run, h]
  rfl

theorem run_removeAt {removal : Removal}
    (h : tree.removeAt memory x = .ok (removal, after, memory')) :
    (removeAt x).run tree memory = .ok ⟨⟨.removedAt removal, after, memory'⟩, []⟩ := by
  rw [run, h]
  rfl

theorem run_overwrite {result : Except MapError Blob}
    (h : tree.overwrite key bytes offset = .ok ⟨(result, after), calls⟩) (memory : α) :
    (overwrite key bytes offset).run tree memory =
      .ok ⟨⟨.overwritten result, after, memory⟩, calls⟩ := by
  rw [run, h]
  rfl

theorem run_overwriteAt (h : tree.overwriteAt x bytes offset = .ok after) (memory : α) :
    (overwriteAt x bytes offset).run tree memory = .ok ⟨⟨.done, after, memory⟩, []⟩ := by
  rw [run, h]
  rfl

theorem run_clear (h : tree.clear memory = .ok (after, memory')) :
    clear.run tree memory = .ok ⟨⟨.done, after, memory'⟩, []⟩ := by
  rw [run, h]
  rfl

end Run

end NodeCommand

namespace Tree

open Shape

variable [Allocator α] [Allocator β] [Allocator γ] {tree tree' after after' : Tree}
  {f : Handle → Handle} {s t : Shape} {x : Handle} {e : Entry}

/-! ### Agreement -/

/-- Two trees that agree in shape, colours, keys and values, in the lengths of both and in their
comparator, where `f` renames the live handles of the first one. Vacant slots, slots that were never
used and capacities may differ. -/
structure Agree (f : Handle → Handle) (tree tree' : Tree) : Prop where
  injective : ∀ x y, (tree.nodes.get? x).isSome → (tree.nodes.get? y).isSome → f x = f y → x = y
  drawing : tree'.drawing = Drawing.rename f <$> tree.drawing
  akin : Akin tree tree'

/-- Two outcomes of which nothing differs but the handles. -/
structure Corresponds (f : Handle → Handle) (left : Traced (Outcome Tree α NodeAnswer))
    (right : Traced (Outcome Tree β NodeAnswer)) : Prop where
  answer : right.value.answer = left.value.answer.rename f
  calls : right.calls = left.calls
  agree : Agree f left.value.state right.value.state
  size : right.value.state.size = left.value.state.size
  height : right.value.state.height = left.value.state.height

/-- The same permitted commands, one after the other, to two trees in two memories. Handles in the
commands are renamed for the second tree. No command ends with a fault, and as long as no memory
refuses a request, all outcomes correspond. -/
def Lockstep : (f : Handle → Handle) → List NodeCommand → Tree → α → Tree → β → Prop
  | _, [], _, _, _, _ => True
  | f, command :: rest, tree, a, tree', b =>
    command.Permitted tree →
      ∃ left right, command.run tree a = .ok left ∧ (command.rename f).run tree' b = .ok right ∧
        (¬ left.value.answer.LacksMemory → ¬ right.value.answer.LacksMemory →
          Corresponds (left.value.answer.follow f right.value.answer) left right ∧
          Lockstep (left.value.answer.follow f right.value.answer) rest
            left.value.state left.value.memory right.value.state right.value.memory)

/-- Two sound trees, one with a shape and one with this shape renamed. -/
structure Aligned (f : Handle → Handle) (s : Shape) (tree tree' : Tree) : Prop where
  sound : ∃ vacant, tree.Sound s vacant
  renamed : ∃ vacant, tree'.Sound (s.rename f) vacant
  akin : Akin tree tree'

/-- Reachable trees that agree have the same shape, renamed for the second one. -/
theorem Agree.aligned (h : Agree f tree tree') (hr : Reachable tree) (hr' : Reachable tree') :
    ∃ s, Aligned f s tree tree' := by
  obtain ⟨s, vacant, hs⟩ := hr.sound
  obtain ⟨t, vacant', ht⟩ := hr'.sound
  have hdrawing := h.drawing
  rw [hs.hasShape.drawing, ht.hasShape.drawing, map_ok, Except.ok.injEq,
    ← drawing_rename] at hdrawing
  obtain rfl := eq_of_drawing_eq hdrawing
  exact ⟨s, ⟨vacant, hs⟩, ⟨vacant', ht⟩, h.akin⟩

namespace Aligned

theorem agree (h : Aligned f s tree tree') : Agree f tree tree' := by
  obtain ⟨⟨vacant, hs⟩, ⟨vacant', hs'⟩, hk⟩ := h
  refine ⟨fun x y hx hy hxy => ?_, ?_, hk⟩
  · have hnodup := hs'.hasShape.nodup
    rw [handles_rename] at hnodup
    exact List.inj_on_of_nodup_map hnodup (hs.hasShape.mem_handles_iff.mpr hx)
      (hs.hasShape.mem_handles_iff.mpr hy) hxy
  · rw [hs.hasShape.drawing, hs'.hasShape.drawing, map_ok, ← drawing_rename]
    rfl

theorem size_eq (h : Aligned f s tree tree') : tree'.size = tree.size := by
  obtain ⟨⟨vacant, hs⟩, ⟨vacant', hs'⟩, -⟩ := h
  rw [hs.size_eq, hs'.size_eq, Shape.size, Shape.size, inorder_rename, List.length_map]

theorem height_eq (h : Aligned f s tree tree') : tree'.height = tree.height := by
  obtain ⟨⟨vacant, hs⟩, ⟨vacant', hs'⟩, -⟩ := h
  rw [hs.hasShape.height, hs'.hasShape.height, height_rename]

/-! ### Single operations side by side -/

/-- A search ends in the same place. -/
theorem locate_eq (h : Aligned f s tree tree') (key : Blob) :
    locate tree'.comparator.compare key [] (s.rename f) =
      ((locate tree.comparator.compare key [] s).1.map (Frame.rename f),
        (locate tree.comparator.compare key [] s).2.rename f) := by
  rw [h.akin.comparator]
  exact locate_rename tree.comparator.compare key [] s

theorem search (h : Aligned f s tree tree') (key : Blob) :
    ∃ handle calls, tree.search key = .ok ⟨handle, calls⟩ ∧
      tree'.search key = .ok ⟨handle.map f, calls⟩ ∧ ∀ x ∈ handle, x ∈ s.handles := by
  obtain ⟨⟨vacant, hs⟩, ⟨vacant', hs'⟩, hk⟩ := id h
  refine ⟨_, _, hs.hasShape.search key, ?_, fun x hx => root_locate_mem hx⟩
  rw [hs'.hasShape.search, h.locate_eq, root_rename, hk.comparator, calls_visits_rename]

theorem find (h : Aligned f s tree tree') (key : Blob) :
    ∃ result calls, tree.find key = .ok ⟨result, calls⟩ ∧
      tree'.find key = .ok ⟨result.map f, calls⟩ ∧ ∀ x, result = .ok x → x ∈ s.handles := by
  obtain ⟨handle, calls, heq, heq', hmem⟩ := h.search key
  unfold Tree.find checkKey
  rw [h.akin.keySize]
  split_ifs with hkey
  · cases handle with
    | none => exact ⟨.error .keyNotFound, calls, by rw [heq]; rfl, by rw [heq']; rfl, nofun⟩
    | some x =>
      refine ⟨.ok x, calls, by rw [heq]; rfl, by rw [heq']; rfl, ?_⟩
      rintro _ ⟨⟩
      exact hmem x rfl
  · exact ⟨.error (.keySize tree.keySize key.length), [], rfl, rfl, nofun⟩

theorem removeAt (h : Aligned f s tree tree') (hx : x ∈ s.handles) (a : α) (b : β) :
    ∃ removal after after' t, tree.removeAt a x = .ok (removal, after, tree.releaseBlocks a) ∧
      tree'.removeAt b (f x) =
        .ok (⟨removal.entry, removal.next.map f⟩, after', tree'.releaseBlocks b) ∧
      Aligned f t after after' := by
  obtain ⟨⟨vacant, hs⟩, ⟨vacant', hs'⟩, hk⟩ := h
  obtain ⟨site, hsite⟩ := exists_excises hx
  obtain ⟨after, heq, hafter, hk₁, -⟩ := hs.removeAt_of_excises hsite a
  obtain ⟨after', heq', hafter', hk₂, -⟩ := hs'.removeAt_of_excises hsite.rename b
  have hrenamed : after'.Sound ((without site.path site.color site.child).rename f)
      (f site.target :: vacant') := without_rename site.path site.color site.child ▸ hafter'
  exact ⟨_, after, after', _, heq, heq', ⟨_, hafter⟩, ⟨_, hrenamed⟩, hk₁.symm.trans (hk.trans hk₂)⟩

theorem extract (h : Aligned f s tree tree') (a : α) (b : β) (key : Blob) :
    ∃ result after a' after' b' calls t,
      tree.extract a key = .ok ⟨⟨result, after, a'⟩, calls⟩ ∧
      tree'.extract b key = .ok ⟨⟨result, after', b'⟩, calls⟩ ∧ Aligned f t after after' := by
  obtain ⟨result, calls, hfind, hfind', hmem⟩ := h.find key
  unfold Tree.extract
  rw [hfind, hfind']
  cases result with
  | error cause => exact ⟨.error cause, tree, a, tree', b, calls, s, rfl, rfl, h⟩
  | ok x =>
    obtain ⟨removal, after, after', t, heq, heq', haligned⟩ := h.removeAt (hmem x rfl) a b
    simp only [Except.map, ok_bind, heq, heq']
    exact ⟨.ok removal.entry, after, _, after', _, calls, t, rfl, rfl, haligned⟩

theorem overwriteAt (h : Aligned f s tree tree') (hx : x ∈ s.handles) (bytes : Blob)
    (offset : Nat) :
    ∃ e after after' t, tree.entry x = .ok e ∧ tree'.entry (f x) = .ok e ∧
      tree.overwriteAt x bytes offset = .ok after ∧
      tree'.overwriteAt (f x) bytes offset = .ok after' ∧ Aligned f t after after' := by
  obtain ⟨⟨vacant, hs⟩, ⟨vacant', hs'⟩, hk⟩ := h
  obtain ⟨path, c, e, a, b, rfl⟩ := exists_plug_of_mem .left hx
  rw [← plug_rename, rename_branch] at hs'
  obtain ⟨after, heq, hafter, hk₁⟩ := hs.overwriteAt_of_place bytes offset
  obtain ⟨after', heq', hafter', hk₂⟩ := hs'.overwriteAt_of_place bytes offset
  rw [← rename_branch, plug_rename] at hafter'
  refine ⟨e, after, after', _, ?_, ?_, heq, heq', ⟨_, hafter⟩, ⟨_, hafter'⟩,
    hk₁.akin.symm.trans (hk.trans hk₂.akin)⟩
  · rw [Tree.entry, hs.hasShape.node_of_place]
    rfl
  · rw [Tree.entry, hs'.hasShape.node_of_place]
    rfl

theorem overwrite (h : Aligned f s tree tree') (key bytes : Blob) (offset : Nat) :
    ∃ result after after' calls t, tree.overwrite key bytes offset = .ok ⟨(result, after), calls⟩ ∧
      tree'.overwrite key bytes offset = .ok ⟨(result, after'), calls⟩ ∧
      Aligned f t after after' := by
  obtain ⟨result, calls, hfind, hfind', hmem⟩ := h.find key
  unfold Tree.overwrite
  rw [hfind, hfind']
  cases result with
  | error cause => exact ⟨.error cause, tree, tree', calls, s, rfl, rfl, h⟩
  | ok x =>
    obtain ⟨e, after, after', t, hentry, hentry', heq, heq', haligned⟩ :=
      h.overwriteAt (hmem x rfl) bytes offset
    simp only [Except.map, ok_bind, hentry, hentry', heq, heq']
    exact ⟨.ok e.value, after, after', calls, t, rfl, rfl, haligned⟩

theorem clear (h : Aligned f s tree tree') (a : α) (b : β) :
    ∃ after a' after' b', tree.clear a = .ok (after, a') ∧ tree'.clear b = .ok (after', b') ∧
      Aligned f absent after after' := by
  obtain ⟨⟨vacant, hs⟩, ⟨vacant', hs'⟩, hk⟩ := h
  exact ⟨_, _, _, _, hs.hasShape.clear a, hs'.hasShape.clear b, ⟨[], hs.cleared⟩, ⟨[], hs'.cleared⟩,
    hk.keyLayout, hk.valueLayout, hk.comparator⟩

/-- The new leaf on one side is the renamed new leaf on the other, as the renaming of the other
handles on the way to it stays. -/
theorem ofInserted {path : List Frame} {x' : Handle} {vacant vacant' rest rest' : List Handle}
    {capacity capacity' : Nat} (hk : Akin tree tree')
    (hi : tree.Inserted vacant path x e capacity after rest)
    (hi' : tree'.Inserted vacant' (path.map (Frame.rename f)) x' e capacity' after' rest') :
    Aligned (Function.update f x x') (withLeaf path x e) after after' := by
  have hpath : path.map (Frame.rename f) = path.map (Frame.rename (Function.update f x x')) := by
    refine map_rename_congr fun y hy => (Function.update_of_ne ?_ x' f).symm
    rintro rfl
    exact hi.notMem (mem_handles_plug.mpr (Or.inr hy))
  have hleaf := withLeaf_rename (f := Function.update f x x') path x e
  rw [Function.update_self, ← hpath] at hleaf
  exact ⟨⟨rest, hi.sound⟩, ⟨rest', hleaf ▸ hi'.sound⟩, hi.akin.symm.trans (hk.trans hi'.akin)⟩

/-- Two insertions side by side, of which none is refused memory: both fail for the same cause, or a
leaf is put on both sides. -/
def Inserting (f : Handle → Handle) (tree tree' : Tree)
    (run : Except Fault (Traced (Outcome Tree α (Except MapError Handle))))
    (run' : Except Fault (Traced (Outcome Tree β (Except MapError Handle)))) : Prop :=
  ∃ result after a' result' after' b' calls, run = .ok ⟨⟨result, after, a'⟩, calls⟩ ∧
    run' = .ok ⟨⟨result', after', b'⟩, calls⟩ ∧
    (result = .error .noMemory ∨ result' = .error .noMemory ∨
      (∃ cause, result = .error cause ∧ result' = .error cause ∧ after = tree ∧ after' = tree') ∨
      ∃ x x' t, result = .ok x ∧ result' = .ok x' ∧
        Aligned (Function.update f x x') t after after')

omit [Allocator α] [Allocator β] in
private theorem Inserting.ofError
    {run : Except Fault (Traced (Outcome Tree α (Except MapError Handle)))}
    {run' : Except Fault (Traced (Outcome Tree β (Except MapError Handle)))} {a : α} {b : β}
    {cause : MapError} {calls : List Call} (h : run = .ok ⟨⟨.error cause, tree, a⟩, calls⟩)
    (h' : run' = .ok ⟨⟨.error cause, tree', b⟩, calls⟩) : Inserting f tree tree' run run' :=
  ⟨_, _, _, _, _, _, _, h, h', Or.inr (Or.inr (Or.inl ⟨cause, rfl, rfl, rfl, rfl⟩))⟩

/-- Insertions whose searches end at an absent child. -/
private theorem insert_of_place {path : List Frame}
    (h : Aligned f (plug path absent) tree tree') (a : α) (b : β) {key value : Blob}
    (hkey : key.length = tree.keySize) (hvalue : value.length = tree.valueSize)
    (hplace : locate tree.comparator.compare key [] (plug path absent) = (path, absent)) :
    Inserting f tree tree' (tree.insert a key value) (tree'.insert b key value) := by
  have hplace' := h.locate_eq key
  have hrefusal := refusal_eq_of_size_eq h.size_eq a b
  obtain ⟨⟨vacant, hs⟩, ⟨vacant', hs'⟩, hk⟩ := h
  have hcalls :
      Visit.calls key (((plug path absent).rename f).visits tree'.comparator.compare key) =
        Visit.calls key ((plug path absent).visits tree.comparator.compare key) := by
    rw [hk.comparator, calls_visits_rename]
  have hrename : (plug path absent).rename f = plug (path.map (Frame.rename f)) absent :=
    (plug_rename path absent).symm
  rw [hplace] at hplace'
  rw [hrename] at hs' hplace' hcalls
  have hleft := hs.insert_at_place a hkey hvalue hplace
  have hright := hs'.insert_at_place b (hkey.trans hk.keySize.symm)
    (hvalue.trans hk.valueSize.symm) hplace'
  rw [hcalls] at hright
  -- Where no memory refuses, one side has a handle left if the other has.
  rcases hleft with ⟨cause, a', heq, hr⟩ | ⟨x, capacity, after, a', rest, heq, hr, hi⟩
  · rcases hright with
      ⟨cause', b', heq', hr'⟩ | ⟨x', capacity', after', b', rest', heq', hr', hi'⟩
    · refine ⟨_, _, _, _, _, _, _, heq, heq', ?_⟩
      rw [hr, hr', Option.some.injEq, Option.some.injEq, Option.some.injEq] at hrefusal
      rcases hrefusal with hlacks | hlacks | hsame
      · exact Or.inl (congrArg Except.error hlacks)
      · exact Or.inr (Or.inl (congrArg Except.error hlacks))
      · exact Or.inr (Or.inr (Or.inl ⟨cause, rfl, congrArg Except.error hsame, rfl, rfl⟩))
    · refine ⟨_, _, _, _, _, _, _, heq, heq', Or.inl (congrArg Except.error ?_)⟩
      simpa [hr, hr'] using hrefusal
  · rcases hright with
      ⟨cause', b', heq', hr'⟩ | ⟨x', capacity', after', b', rest', heq', hr', hi'⟩
    · refine ⟨_, _, _, _, _, _, _, heq, heq', Or.inr (Or.inl (congrArg Except.error ?_))⟩
      simpa [hr, hr'] using hrefusal
    · exact ⟨_, _, _, _, _, _, _, heq, heq', Or.inr (Or.inr (Or.inr
        ⟨x, x', _, rfl, rfl, .ofInserted hk hi hi'⟩))⟩

/-- An insertion on both sides. -/
theorem insert (h : Aligned f s tree tree') (a : α) (b : β) (key value : Blob) :
    Inserting f tree tree' (tree.insert a key value) (tree'.insert b key value) := by
  obtain ⟨⟨vacant, hs⟩, ⟨vacant', hs'⟩, hk⟩ := id h
  by_cases hkey : key.length = tree.keySize
  swap
  · have heq' := insert_of_badKey tree' b value (hk.keySize ▸ hkey)
    rw [hk.keySize] at heq'
    exact .ofError (insert_of_badKey tree a value hkey) heq'
  by_cases hvalue : value.length = tree.valueSize
  swap
  · have heq' := insert_of_badValue tree' b (hkey.trans hk.keySize.symm) (hk.valueSize ▸ hvalue)
    rw [hk.valueSize] at heq'
    exact .ofError (insert_of_badValue tree a hkey hvalue) heq'
  by_cases hfound : (locate tree.comparator.compare key [] s).2 = absent
  · obtain ⟨path, hplace⟩ : ∃ path, locate tree.comparator.compare key [] s = (path, absent) :=
      ⟨_, Prod.ext rfl hfound⟩
    obtain rfl : plug path absent = s := by
      have hplug := plug_locate tree.comparator.compare key [] s
      rwa [hplace] at hplug
    exact h.insert_of_place a b hkey hvalue hplace
  · have hfound' : (locate tree'.comparator.compare key [] (s.rename f)).2 ≠ absent := by
      rw [h.locate_eq]
      exact mt rename_eq_absent_iff.mp hfound
    have heq' := hs'.insert_of_found b (hkey.trans hk.keySize.symm)
      (hvalue.trans hk.valueSize.symm) hfound'
    rw [hk.comparator, calls_visits_rename] at heq'
    exact .ofError (hs.insert_of_found a hkey hvalue hfound) heq'

/-! ### Commands side by side -/

/-- A command on both sides: a memory refuses a request, or the answers correspond and the trees
stay aligned. -/
def Stepping (f : Handle → Handle) (run : Except Fault (Traced (Outcome Tree α NodeAnswer)))
    (run' : Except Fault (Traced (Outcome Tree β NodeAnswer))) : Prop :=
  ∃ answer after a' answer' after' b' calls, run = .ok ⟨⟨answer, after, a'⟩, calls⟩ ∧
    run' = .ok ⟨⟨answer', after', b'⟩, calls⟩ ∧
    (answer.LacksMemory ∨ answer'.LacksMemory ∨
      answer' = answer.rename (answer.follow f answer') ∧
        ∃ t, Aligned (answer.follow f answer') t after after')

omit [Allocator α] [Allocator β] in
/-- A command without a new entry keeps the renaming. -/
private theorem stepping (h : Aligned f s tree tree') (answer : NodeAnswer)
    (hfollow : answer.follow f (answer.rename f) = f) {a : α} {b : β} {calls : List Call}
    {run : Except Fault (Traced (Outcome Tree α NodeAnswer))}
    {run' : Except Fault (Traced (Outcome Tree β NodeAnswer))}
    (heq : run = .ok ⟨⟨answer, tree, a⟩, calls⟩)
    (heq' : run' = .ok ⟨⟨answer.rename f, tree', b⟩, calls⟩) : Stepping f run run' := by
  refine ⟨_, _, _, _, _, _, _, heq, heq', Or.inr (Or.inr ?_)⟩
  rw [hfollow]
  exact ⟨rfl, s, h⟩

/-- A command and its renamed counterpart. -/
theorem run (h : Aligned f s tree tree') {command : NodeCommand} (hp : command.Permitted tree)
    (a : α) (b : β) : Stepping f (command.run tree a) ((command.rename f).run tree' b) := by
  have hlive : ∀ {x}, (tree.nodes.get? x).isSome → x ∈ s.handles := by
    obtain ⟨vacant, hs⟩ := h.sound
    exact fun hx => hs.hasShape.mem_handles_iff.mpr hx
  cases command with
  | insert key value =>
    obtain ⟨result, after, a', result', after', b', calls, heq, heq', hcases⟩ :=
      h.insert a b key value
    refine ⟨.inserted result, after, a', .inserted result', after', b', calls,
      NodeCommand.run_insert heq, NodeCommand.run_insert heq', ?_⟩
    rcases hcases with rfl | rfl | ⟨cause, rfl, rfl, rfl, rfl⟩ | ⟨x, x', t, rfl, rfl, haligned⟩
    · exact Or.inl rfl
    · exact Or.inr (Or.inl rfl)
    · exact Or.inr (Or.inr ⟨rfl, s, h⟩)
    · refine Or.inr (Or.inr ⟨?_, t, haligned⟩)
      have hself : Function.update f x x' x = x' := Function.update_self x x' f
      exact congrArg (fun y => NodeAnswer.inserted (.ok y)) hself.symm
  | search key =>
    obtain ⟨handle, calls, heq, heq', -⟩ := h.search key
    exact h.stepping (.found handle) rfl (NodeCommand.run_search heq a)
      (NodeCommand.run_search heq' b)
  | remove key =>
    obtain ⟨result, after, a', after', b', calls, t, heq, heq', haligned⟩ := h.extract a b key
    exact haligned.stepping (.removed result) rfl (NodeCommand.run_remove heq)
      (NodeCommand.run_remove heq')
  | removeAt x =>
    obtain ⟨removal, after, after', t, heq, heq', haligned⟩ := h.removeAt (hlive hp) a b
    exact haligned.stepping (.removedAt removal) rfl (NodeCommand.run_removeAt heq)
      (NodeCommand.run_removeAt heq')
  | overwrite key bytes offset =>
    obtain ⟨result, after, after', calls, t, heq, heq', haligned⟩ := h.overwrite key bytes offset
    exact haligned.stepping (.overwritten result) rfl (NodeCommand.run_overwrite heq a)
      (NodeCommand.run_overwrite heq' b)
  | overwriteAt x bytes offset =>
    obtain ⟨e, after, after', t, -, -, heq, heq', haligned⟩ :=
      h.overwriteAt (hlive hp) bytes offset
    exact haligned.stepping .done rfl (NodeCommand.run_overwriteAt heq a)
      (NodeCommand.run_overwriteAt heq' b)
  | clear =>
    obtain ⟨after, a', after', b', heq, heq', haligned⟩ := h.clear a b
    exact haligned.stepping .done rfl (NodeCommand.run_clear heq) (NodeCommand.run_clear heq')

/-- Whole runs, by induction on the commands. -/
theorem lockstep (h : Aligned f s tree tree') (commands : List NodeCommand) (a : α) (b : β) :
    Lockstep f commands tree a tree' b := by
  induction commands generalizing f s tree tree' a b with
  | nil => trivial
  | cons command rest ih =>
    intro hp
    obtain ⟨answer, after, a', answer', after', b', calls, heq, heq', hcases⟩ := h.run hp a b
    refine ⟨_, _, heq, heq', fun hl hr => ?_⟩
    obtain ⟨hanswer, t, haligned⟩ := (hcases.resolve_left hl).resolve_left hr
    exact ⟨⟨hanswer, rfl, haligned.agree, haligned.size_eq, haligned.height_eq⟩,
      ih haligned a' b'⟩

end Aligned

/-! ### Reachable trees -/

/-- Two trees from the constructors, one of them with room for some nodes. -/
theorem Aligned.ofWithCapacity {keySize valueSize capacity : Nat} {comparator : Comparator}
    {memory memory' : γ}
    (h : Tree.withCapacity keySize valueSize capacity comparator memory = (.ok tree', memory')) :
    ∃ tree, Tree.create keySize valueSize comparator = .ok tree ∧ Aligned id absent tree tree' := by
  obtain ⟨hs', hlayouts', hcomparator'⟩ := Sound.ofWithCapacity h
  obtain ⟨tree, hcreate⟩ : ∃ tree, Tree.create keySize valueSize comparator = .ok tree := by
    rw [Tree.create, hlayouts']
    exact ⟨_, rfl⟩
  obtain ⟨hs, hlayouts, hcomparator⟩ := Sound.ofCreate hcreate
  rw [hlayouts, Except.ok.injEq, Prod.mk.injEq] at hlayouts'
  exact ⟨tree, hcreate, ⟨[], hs⟩, ⟨[], hs'⟩, hlayouts'.1.symm, hlayouts'.2.symm,
    hcomparator'.trans hcomparator.symm⟩

/-- No run depends on which slots a tree uses. Two reachable trees that agree but for a renaming of
their handles stay in lockstep over all commands and in all memories. In particular a tree made
with room for any number of nodes does what a tree made without room does. -/
theorem Reachable.stays_in_lockstep :
    (∀ {f : Handle → Handle} {tree tree' : Tree}, Reachable tree → Reachable tree' →
        Agree f tree tree' → ∀ (commands : List NodeCommand) (a : α) (b : β),
          Lockstep f commands tree a tree' b) ∧
      ∀ {keySize valueSize capacity : Nat} {comparator : Comparator} {tree' : Tree}
        {memory memory' : γ},
        Tree.withCapacity keySize valueSize capacity comparator memory = (.ok tree', memory') →
        ∃ tree, Tree.create keySize valueSize comparator = .ok tree ∧ Agree id tree tree' ∧
          ∀ (commands : List NodeCommand) (a : α) (b : β),
            Lockstep id commands tree a tree' b := by
  refine ⟨fun hr hr' hagree commands a b => ?_, fun h => ?_⟩
  · obtain ⟨s, haligned⟩ := hagree.aligned hr hr'
    exact haligned.lockstep commands a b
  · obtain ⟨tree, hcreate, haligned⟩ := Aligned.ofWithCapacity h
    exact ⟨tree, hcreate, haligned.agree, fun commands a b => haligned.lockstep commands a b⟩

/-- Two entries put into an empty tree. -/
def sampleDirect : List Operation :=
  [.insert [1] [0], .insert [2] [0]]

/-- The same entries after a detour that leaves them in each other's slots. -/
def sampleDetour : List Operation :=
  [.insert [9] [0], .insert [1] [0], .remove [9], .insert [2] [0]]

/-- The handles of the first two slots exchanged. -/
def sampleExchange : Handle → Handle :=
  Equiv.swap ⟨0, by decide⟩ ⟨1, by decide⟩

/-- Commands by key and by handle. The first slot is freed, used again and written to. -/
def sampleNodeCommands : List NodeCommand :=
  [.insert [3] [7], .removeAt ⟨0, by decide⟩, .search [2], .insert [4] [0],
    .overwriteAt ⟨0, by decide⟩ [8] 0, .overwrite [4] [9] 0, .remove [3], .clear]

theorem sampleDetour_agree {left right : Tree} {a b : Budget Heap}
    (h : Operation.runAll sampleDirect sampleTree sampleMemory = .ok (left, a))
    (h' : Operation.runAll sampleDetour sampleTree sampleMemory = .ok (right, b)) :
    Agree sampleExchange left right := by
  have hdrawings : (Operation.runAll sampleDetour sampleTree sampleMemory >>= (·.1.drawing)) =
      Drawing.rename sampleExchange <$>
        (Operation.runAll sampleDirect sampleTree sampleMemory >>= (·.1.drawing)) := rfl
  have hakin : (Operation.runAll sampleDetour sampleTree sampleMemory).map
      (fun p => (p.1.keyLayout, p.1.valueLayout, p.1.comparator)) =
        (Operation.runAll sampleDirect sampleTree sampleMemory).map
          fun p => (p.1.keyLayout, p.1.valueLayout, p.1.comparator) := rfl
  rw [h, h'] at hdrawings hakin
  simp only [Except.map, Except.ok.injEq, Prod.mk.injEq] at hakin
  exact ⟨fun x y _ _ hxy => (Equiv.swap _ _).injective hxy, hdrawings, hakin.1, hakin.2.1,
    hakin.2.2⟩

theorem Reachable.stays_in_lockstep_sample :
    (∃ (left right : Tree) (a b : Budget Heap),
      Operation.runAll sampleDirect sampleTree sampleMemory = .ok (left, a) ∧
      Operation.runAll sampleDetour sampleTree sampleMemory = .ok (right, b) ∧
      Reachable left ∧ Reachable right ∧ Agree sampleExchange left right ∧
      Lockstep sampleExchange sampleNodeCommands left a right b) ∧
    ∃ (tree roomy : Tree) (made : Budget Heap),
      Tree.create 1 1 .lexicographic = .ok tree ∧
      Tree.withCapacity 1 1 4 .lexicographic sampleMemory = (.ok roomy, made) ∧
      Lockstep id sampleNodeCommands tree sampleMemory roomy made := by
  constructor
  · have hpermitted : Operation.AllPermitted sampleDirect sampleTree sampleMemory :=
      ⟨trivial, trivial, trivial⟩
    have hpermitted' : Operation.AllPermitted sampleDetour sampleTree sampleMemory :=
      ⟨trivial, trivial, trivial, trivial, trivial⟩
    obtain ⟨left, a, hrun, hleft⟩ :=
      Operation.exists_runAll sampleDirect sampleTree_reachable sampleMemory hpermitted
    obtain ⟨right, b, hrun', hright⟩ :=
      Operation.exists_runAll sampleDetour sampleTree_reachable sampleMemory hpermitted'
    have hagree := sampleDetour_agree hrun hrun'
    exact ⟨left, right, a, b, hrun, hrun', hleft, hright, hagree,
      (Reachable.stays_in_lockstep (γ := Heap)).1 hleft hright hagree sampleNodeCommands a b⟩
  · have hmade : Tree.withCapacity 1 1 4 .lexicographic sampleMemory =
        (.ok { sampleTree with nodes := { Arena.empty Node.footprint with capacity := 4 } },
          ⟨⟨none⟩, 400, 192, 1, 1⟩) := rfl
    obtain ⟨tree, hcreate, -, hlockstep⟩ :=
      (Reachable.stays_in_lockstep (α := Budget Heap) (β := Budget Heap)).2 hmade
    exact ⟨tree, _, _, hcreate, hmade, hlockstep sampleNodeCommands _ _⟩

end Tree

end MeteredMap
