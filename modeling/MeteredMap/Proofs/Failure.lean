import MeteredMap.Proofs.Cursor
import MeteredMap.Proofs.Tree.Holdings

/-!
# Failed calls

A call to a map, or through a cursor on it, that fails leaves no trace of itself: the map is the
one before the call with every slot as it was, the cursor is where it was, and the buffers passed
in hold what they held. Whatever the memory granted on the way has gone back to it, so that its
counters differ in the number of requests granted alone.

## Main definitions

* `MeteredMap.Attempt` : the calls that can fail.
* `MeteredMap.Aftermath` : what is there after a call.
* `MeteredMap.Attempt.requests` : what a call asks its memory for.
* `MeteredMap.Attempt.Costs` : how many requests of a failed call were granted.

## Main results

* `MeteredMap.Attempt.unchanged_of_error` : a failed call changes nothing but that number.
-/

namespace MeteredMap

/-- A call to a map, or through a cursor on it, that can fail. -/
inductive Attempt where
  | insert (key value : Blob)
  | remove (key : Blob)
  | removeInto (key buffer : Blob)
  | get (key : Blob)
  | getInto (key buffer : Blob)
  | overwrite (key bytes : Blob) (offset : Nat)
  | getKeyValue (key : Blob)
  | clone
  /-- Copy the entry at the cursor to a buffer for the key and one for the value. -/
  | readInto (key value : Blob)
  /-- Replace the value at the cursor. -/
  | setValue (value : Blob)
  /-- Remove the entry at the cursor. -/
  | removeCurrent

/-- What is there after a call. -/
structure Aftermath (α : Type) where
  result : Except MapError Unit
  tree : Tree
  cursor : Cursor
  buffers : List Blob
  memory : α

namespace Attempt

/-- The buffers passed in with a call. -/
def buffers : Attempt → List Blob
  | .removeInto _ buffer => [buffer]
  | .getInto _ buffer => [buffer]
  | .readInto key value => [key, value]
  | _ => []

/-- What a call on a tree asks its memory for, in order. -/
def requests (tree : Tree) : Attempt → List Layout
  | .insert .. => tree.insertRequests
  | .clone => tree.cloneRequests
  | _ => []

variable {α : Type} [Allocator α]

/-- Makes a call. -/
def run (attempt : Attempt) (tree : Tree) (cursor : Cursor) (memory : α) :
    Except Fault (Aftermath α) := do
  match attempt with
  | .insert key value =>
    let ⟨⟨answer, tree, memory⟩, _⟩ ← tree.insert memory key value
    return ⟨answer.map fun _ => (), tree, cursor, [], memory⟩
  | .remove key =>
    let ⟨⟨answer, tree, memory⟩, _⟩ ← tree.remove memory key
    return ⟨answer, tree, cursor, [], memory⟩
  | .removeInto key buffer =>
    let ⟨⟨(answer, buffer), tree, memory⟩, _⟩ ← tree.removeInto memory key buffer
    return ⟨answer, tree, cursor, [buffer], memory⟩
  | .get key =>
    let ⟨answer, _⟩ ← tree.get key
    return ⟨answer.map fun _ => (), tree, cursor, [], memory⟩
  | .getInto key buffer =>
    let ⟨(answer, buffer), _⟩ ← tree.getInto key buffer
    return ⟨answer, tree, cursor, [buffer], memory⟩
  | .overwrite key bytes offset =>
    let ⟨(answer, tree), _⟩ ← tree.overwrite key bytes offset
    return ⟨answer.map fun _ => (), tree, cursor, [], memory⟩
  | .getKeyValue key =>
    let ⟨answer, _⟩ ← tree.getKeyValue key
    return ⟨answer.map fun _ => (), tree, cursor, [], memory⟩
  | .clone =>
    let ⟨(answer, memory), _⟩ ← tree.clone memory
    return ⟨answer.map fun _ => (), tree, cursor, [], memory⟩
  | .readInto key value =>
    let (answer, entry) ← cursor.readInto tree key value
    return ⟨answer, tree, cursor, [entry.key, entry.value], memory⟩
  | .setValue value =>
    let (answer, tree) ← cursor.setValue tree value
    return ⟨answer, tree, cursor, [], memory⟩
  | .removeCurrent =>
    let (cursor, ⟨answer, tree, memory⟩) ← cursor.remove tree memory
    return ⟨answer, tree, cursor, [], memory⟩

/-- How many requests of a failed call were granted before it failed. -/
structure Costs (attempt : Attempt) (tree : Tree) (memory : α) (cause : MapError) (n : Nat) :
    Prop where
  /-- The requests before the one that was refused. -/
  noMemory : cause = .noMemory → n = Allocator.grantedBefore (attempt.requests tree) memory
  /-- The two blocks of an entry for which no handle was left. -/
  overflow : cause = .overflow →
    n = 2 ∧ Handle.maxIndex < tree.size ∧ ∃ key value, attempt = .insert key value
  /-- The slot table of a copy, and the blocks of the entries before one whose key counts as equal
  to that of an earlier one. -/
  keyExists : cause = .keyExists → attempt = .clone →
    ∃ k, n = 2 * k + 1 ∧ 0 < k ∧ k < tree.size ∧
      ¬ OrdersKeys tree.comparator.compare tree.keySize
  other : cause ≠ .noMemory → cause ≠ .overflow → (cause = .keyExists → attempt ≠ .clone) → n = 0

/-- The traffic of a failed call: everything that was granted goes back. -/
def Undone (attempt : Attempt) (tree : Tree) (memory : α) (cause : MapError) (memory' : α) : Prop :=
  ∃ gs rs, gs.Perm rs ∧ Traffic memory gs rs memory' ∧ attempt.Costs tree memory cause gs.length

/-- A call ends, and leaves no trace of itself if it fails. -/
def Atomic (attempt : Attempt) (tree : Tree) (cursor : Cursor) (memory : α) : Prop :=
  ∃ after, attempt.run tree cursor memory = .ok after ∧
    ∀ cause, after.result = .error cause →
      after.tree = tree ∧ after.cursor = cursor ∧ after.buffers = attempt.buffers ∧
      attempt.Undone tree memory cause after.memory

variable {attempt : Attempt} {tree : Tree} {cursor : Cursor} {memory memory' : α} {s : Shape}
  {vacant : List Handle} {key value buffer : Blob}

private theorem Atomic.ofOk (after : Aftermath α)
    (hrun : attempt.run tree cursor memory = .ok after) (hok : after.result = .ok ()) :
    attempt.Atomic tree cursor memory := by
  refine ⟨after, hrun, fun cause hcause => ?_⟩
  rw [hok] at hcause
  cases hcause

private theorem Atomic.ofError (cause : MapError) (memory' : α)
    (hrun : attempt.run tree cursor memory =
      .ok ⟨.error cause, tree, cursor, attempt.buffers, memory'⟩)
    (hundone : attempt.Undone tree memory cause memory') : attempt.Atomic tree cursor memory := by
  refine ⟨_, hrun, fun cause' hcause => ?_⟩
  cases hcause
  exact ⟨rfl, rfl, rfl, hundone⟩

private theorem Costs.ofNoMemory {n : Nat}
    (h : n = Allocator.grantedBefore (attempt.requests tree) memory) :
    attempt.Costs tree memory .noMemory n where
  noMemory _ := h
  overflow hcause := by cases hcause
  keyExists hcause := by cases hcause
  other hcause := absurd rfl hcause

private theorem Costs.ofOverflow (hmax : Handle.maxIndex < tree.size) :
    (Attempt.insert key value).Costs tree memory .overflow 2 where
  noMemory hcause := by cases hcause
  overflow _ := ⟨rfl, hmax, key, value, rfl⟩
  keyExists hcause := by cases hcause
  other _ hcause := absurd rfl hcause

private theorem Costs.ofKeyExists {k : Nat} (hpos : 0 < k) (hlt : k < tree.size)
    (hdisorder : ¬ OrdersKeys tree.comparator.compare tree.keySize) :
    Attempt.clone.Costs tree memory .keyExists (2 * k + 1) where
  noMemory hcause := by cases hcause
  overflow hcause := by cases hcause
  keyExists _ _ := ⟨k, rfl, hpos, hlt, hdisorder⟩
  other _ _ hclone := absurd rfl (hclone rfl)

/-- A call that is no clone fails for a reason that is not the want of memory or of handles. It has
asked its memory for nothing. -/
private theorem Undone.refl {cause : MapError} (hcause : ¬ cause.OfShortage)
    (hclone : attempt ≠ .clone) : attempt.Undone tree memory cause memory := by
  refine ⟨[], [], .refl [], .refl memory, ?_, ?_, fun _ h => absurd h hclone, fun _ _ _ => rfl⟩
  · rintro rfl
    exact absurd trivial hcause
  · rintro rfl
    exact absurd trivial hcause

private theorem Atomic.ofIdle {cause : MapError} (hcause : ¬ cause.OfShortage)
    (hclone : attempt ≠ .clone)
    (hrun : attempt.run tree cursor memory =
      .ok ⟨.error cause, tree, cursor, attempt.buffers, memory⟩) :
    attempt.Atomic tree cursor memory :=
  .ofError cause memory hrun (.refl hcause hclone)

end Attempt

namespace Tree

open Shape Attempt

variable {α : Type} [Allocator α] {tree : Tree} {cursor : Cursor} {s : Shape}
  {vacant : List Handle}

/-! ### Causes -/

theorem not_ofShortage_of_find {key : Blob} {cause : MapError} {calls : List Call}
    (h : tree.find key = .ok ⟨.error cause, calls⟩) : ¬ cause.OfShortage := by
  rw [find] at h
  cases hcheck : tree.checkKey key with
  | error e =>
    rw [hcheck] at h
    cases h
    exact not_ofShortage_of_checkKey hcheck
  | ok =>
    rw [hcheck] at h
    obtain ⟨searched, -, h⟩ := bind_eq_ok_iff.mp h
    split at h
    · cases h
      exact id
    · cases h

theorem not_ofShortage_of_getKeyValue {key : Blob} {cause : MapError} {calls : List Call}
    (h : tree.getKeyValue key = .ok ⟨.error cause, calls⟩) : ¬ cause.OfShortage := by
  obtain ⟨⟨found, calls'⟩, hfind, h⟩ := bind_eq_ok_iff.mp h
  cases found with
  | error e =>
    cases h
    exact not_ofShortage_of_find hfind
  | ok x =>
    obtain ⟨e, -, h⟩ := bind_eq_ok_iff.mp h
    cases h

/-! ### Calls by key -/

namespace Sound

private theorem atomic_insert (h : tree.Sound s vacant) (cursor : Cursor) (memory : α)
    (key value : Blob) : (Attempt.insert key value).Atomic tree cursor memory := by
  rcases h.insert_cases memory key value with
    ⟨cause, calls, heq, hcause, -⟩ | ⟨cause, memory', calls, hprov, heq⟩ |
      ⟨path, x, capacity, memory', after, rest, calls, -, heq, -⟩
  · exact .ofIdle hcause nofun (by rw [Attempt.run, heq]; rfl)
  · refine .ofError _ memory' (by rw [Attempt.run, heq]; rfl) ?_
    obtain ⟨gs, rs, hperm, htraffic, ⟨rfl, hcount⟩ | ⟨rfl, -, htwo⟩⟩ :=
      traffic_of_provision_error hprov
    · exact ⟨gs, rs, hperm, htraffic, .ofNoMemory hcount⟩
    · have hmax := lt_size_of_refusal (h.refusal_of_provision_error hprov)
      exact ⟨gs, rs, hperm, htraffic, htwo ▸ .ofOverflow hmax⟩
  · exact .ofOk _ (by rw [Attempt.run, heq]; rfl) rfl

private theorem atomic_clone (h : tree.Sound s vacant) (cursor : Cursor) (memory : α) :
    Attempt.clone.Atomic tree cursor memory := by
  rcases h.clone_cases memory with
    ⟨copy, memory', calls, heq, -⟩ | ⟨cause, gs, rs, memory', calls, heq, hperm, htraffic, hcause⟩
  · exact .ofOk _ (by rw [Attempt.run, heq]; rfl) rfl
  · refine .ofError _ memory' (by rw [Attempt.run, heq]; rfl) ⟨gs, rs, hperm, htraffic, ?_⟩
    obtain ⟨rfl, hcount, -⟩ | ⟨rfl, k, hrepeats, hcount⟩ := hcause
    · exact .ofNoMemory hcount
    · obtain ⟨hpos, hlt⟩ := hrepeats.bounds
      rw [Shape.entries, List.length_map, show s.inorder.length = tree.size from h.size_eq.symm]
        at hlt
      rw [Arena.tableBlocks_of_pos (by decide) (Nat.zero_lt_of_lt hlt), List.length_singleton,
        Nat.add_comm] at hcount
      rw [hcount]
      exact .ofKeyExists hpos hlt fun ho => h.not_repeats ho hrepeats

private theorem atomic_remove (h : tree.Sound s vacant) (cursor : Cursor) (memory : α)
    (key : Blob) : (Attempt.remove key).Atomic tree cursor memory := by
  rcases h.hasShape.exists_find key with ⟨cause, calls, hfind⟩ | ⟨x, e, calls, hfind, hmem⟩
  · exact .ofIdle (not_ofShortage_of_find hfind) nofun
      (by rw [Attempt.run, Tree.remove, extract, hfind]; rfl)
  · obtain ⟨e', next, freed, after, t, heq, -⟩ := h.removeAt (List.mem_map_of_mem hmem) memory
    refine .ofOk ⟨.ok (), after, cursor, [], tree.releaseBlocks memory⟩ ?_ rfl
    rw [Attempt.run, Tree.remove, extract, hfind]
    simp only [ok_bind, heq]
    rfl

private theorem atomic_removeInto (h : tree.Sound s vacant) (cursor : Cursor) (memory : α)
    (key buffer : Blob) : (Attempt.removeInto key buffer).Atomic tree cursor memory := by
  cases hkey : tree.checkKey key with
  | error cause =>
    exact .ofIdle (not_ofShortage_of_checkKey hkey) nofun
      (by rw [Attempt.run, Tree.removeInto, hkey]; rfl)
  | ok =>
    cases hvalue : tree.checkValue buffer with
    | error cause =>
      exact .ofIdle (not_ofShortage_of_checkValue hvalue) nofun
        (by rw [Attempt.run, Tree.removeInto, hkey, hvalue]; rfl)
    | ok =>
      rcases h.hasShape.exists_find key with ⟨cause, calls, hfind⟩ | ⟨x, e, calls, hfind, hmem⟩
      · refine .ofIdle (not_ofShortage_of_find hfind) nofun ?_
        rw [Attempt.run, Tree.removeInto, hkey, hvalue]
        simp only [hfind, ok_bind]
        rfl
      · obtain ⟨e', next, freed, after, t, heq, -⟩ :=
          h.removeAtInto (List.mem_map_of_mem hmem) memory (length_of_checkValue hvalue)
        refine .ofOk ⟨.ok (), after, cursor, [e'.value], tree.releaseBlocks memory⟩ ?_ rfl
        rw [Attempt.run, Tree.removeInto, hkey, hvalue]
        simp only [hfind, ok_bind, heq]
        rfl

/-- A look for an entry fails, or shows one. -/
theorem exists_getKeyValue (h : tree.Sound s vacant) (key : Blob) :
    ∃ found calls, tree.getKeyValue key = .ok ⟨found, calls⟩ := by
  rw [Tree.getKeyValue]
  rcases h.hasShape.exists_find key with ⟨cause, calls, hfind⟩ | ⟨x, e, calls, hfind, hmem⟩
  · exact ⟨.error cause, calls, by rw [hfind]; rfl⟩
  · refine ⟨.ok e, calls, ?_⟩
    rw [hfind, ok_bind]
    simp only [h.hasShape.entry_of_mem hmem, ok_bind, pure_eq_ok]

private theorem atomic_getKeyValue (h : tree.Sound s vacant) (cursor : Cursor) (memory : α)
    (key : Blob) : (Attempt.getKeyValue key).Atomic tree cursor memory := by
  obtain ⟨_ | e, calls, heq⟩ := h.exists_getKeyValue key
  · exact .ofIdle (not_ofShortage_of_getKeyValue heq) nofun (by rw [Attempt.run, heq]; rfl)
  · exact .ofOk _ (by rw [Attempt.run, heq]; rfl) rfl

private theorem atomic_get (h : tree.Sound s vacant) (cursor : Cursor) (memory : α)
    (key : Blob) : (Attempt.get key).Atomic tree cursor memory := by
  obtain ⟨_ | e, calls, heq⟩ := h.exists_getKeyValue key
  · exact .ofIdle (not_ofShortage_of_getKeyValue heq) nofun
      (by rw [Attempt.run, Tree.get, heq]; rfl)
  · exact .ofOk _ (by rw [Attempt.run, Tree.get, heq]; rfl) rfl

private theorem atomic_getInto (h : tree.Sound s vacant) (cursor : Cursor) (memory : α)
    (key buffer : Blob) : (Attempt.getInto key buffer).Atomic tree cursor memory := by
  cases hkey : tree.checkKey key with
  | error cause =>
    exact .ofIdle (not_ofShortage_of_checkKey hkey) nofun
      (by rw [Attempt.run, Tree.getInto, hkey]; rfl)
  | ok =>
    cases hvalue : tree.checkValue buffer with
    | error cause =>
      exact .ofIdle (not_ofShortage_of_checkValue hvalue) nofun
        (by rw [Attempt.run, Tree.getInto, hkey, hvalue]; rfl)
    | ok =>
      obtain ⟨_ | e, calls, heq⟩ := h.exists_getKeyValue key
      · exact .ofIdle (not_ofShortage_of_getKeyValue heq) nofun
          (by rw [Attempt.run, Tree.getInto, hkey, hvalue, Tree.get, heq]; rfl)
      · exact .ofOk _ (by rw [Attempt.run, Tree.getInto, hkey, hvalue, Tree.get, heq]; rfl) rfl

private theorem atomic_overwrite (h : tree.Sound s vacant) (cursor : Cursor) (memory : α)
    (key bytes : Blob) (offset : Nat) :
    (Attempt.overwrite key bytes offset).Atomic tree cursor memory := by
  rcases h.hasShape.exists_find key with ⟨cause, calls, hfind⟩ | ⟨x, e, calls, hfind, hmem⟩
  · exact .ofIdle (not_ofShortage_of_find hfind) nofun
      (by rw [Attempt.run, Tree.overwrite, hfind]; rfl)
  · obtain ⟨after, t, pre, e', post, heq, -⟩ :=
      h.overwriteAt (List.mem_map_of_mem hmem) bytes offset
    refine .ofOk ⟨.ok (), after, cursor, [], memory⟩ ?_ rfl
    rw [Attempt.run, Tree.overwrite, hfind]
    simp only [ok_bind, h.hasShape.entry_of_mem hmem, heq]
    rfl

/-! ### Calls through a cursor -/

private theorem atomic_readInto (h : tree.Sound s vacant) (hc : cursor.LiveIn tree) (memory : α)
    (key value : Blob) : (Attempt.readInto key value).Atomic tree cursor memory := by
  cases hcurrent : cursor.current with
  | none =>
    refine .ofIdle (show ¬ MapError.invalidCursor.OfShortage from id) nofun ?_
    rw [Attempt.run, Cursor.readInto, hcurrent]
    rfl
  | some x =>
    cases hkey : tree.checkKey key with
    | error cause =>
      refine .ofIdle (not_ofShortage_of_checkKey hkey) nofun ?_
      rw [Attempt.run, Cursor.readInto, hcurrent, hkey]
      rfl
    | ok =>
      cases hvalue : tree.checkValue value with
      | error cause =>
        refine .ofIdle (not_ofShortage_of_checkValue hvalue) nofun ?_
        rw [Attempt.run, Cursor.readInto, hcurrent, hkey, hvalue]
        rfl
      | ok =>
        obtain ⟨⟨x', e⟩, hmem, rfl⟩ :=
          List.mem_map.mp (h.hasShape.mem_handles_iff.mpr (hc x hcurrent))
        refine .ofOk ⟨.ok (), tree, cursor, [e.key, e.value], memory⟩ ?_ rfl
        rw [Attempt.run, Cursor.readInto, hcurrent, hkey, hvalue]
        simp only [h.hasShape.entry_of_mem hmem, ok_bind, pure_eq_ok]

private theorem atomic_setValue (h : tree.Sound s vacant) (hc : cursor.LiveIn tree) (memory : α)
    (value : Blob) : (Attempt.setValue value).Atomic tree cursor memory := by
  cases hcurrent : cursor.current with
  | none =>
    refine .ofIdle (show ¬ MapError.invalidCursor.OfShortage from id) nofun ?_
    rw [Attempt.run, Cursor.setValue, hcurrent]
    rfl
  | some x =>
    cases hvalue : tree.checkValue value with
    | error cause =>
      refine .ofIdle (not_ofShortage_of_checkValue hvalue) nofun ?_
      rw [Attempt.run, Cursor.setValue, hcurrent, hvalue]
      rfl
    | ok =>
      obtain ⟨after, t, pre, e, post, heq, -⟩ :=
        h.overwriteAt (h.hasShape.mem_handles_iff.mpr (hc x hcurrent)) value 0
      refine .ofOk ⟨.ok (), after, cursor, [], memory⟩ ?_ rfl
      rw [Attempt.run, Cursor.setValue, hcurrent, hvalue]
      simp only [heq, ok_bind, pure_eq_ok]

private theorem atomic_removeCurrent (h : tree.Sound s vacant) (hc : cursor.LiveIn tree)
    (memory : α) : Attempt.removeCurrent.Atomic tree cursor memory := by
  cases hcurrent : cursor.current with
  | none =>
    refine .ofIdle (show ¬ MapError.invalidCursor.OfShortage from id) nofun ?_
    rw [Attempt.run, Cursor.remove, hcurrent]
    rfl
  | some x =>
    obtain ⟨e, next, freed, after, t, heq, -⟩ :=
      h.removeAt (h.hasShape.mem_handles_iff.mpr (hc x hcurrent)) memory
    refine .ofOk ⟨.ok (), after, ⟨next⟩, [], tree.releaseBlocks memory⟩ ?_ rfl
    rw [Attempt.run, Cursor.remove, hcurrent]
    simp only [heq, ok_bind, pure_eq_ok]

/-- Every call ends, and leaves no trace of itself if it fails. -/
theorem atomic (h : tree.Sound s vacant) (hc : cursor.LiveIn tree) (memory : α)
    (attempt : Attempt) : attempt.Atomic tree cursor memory := by
  cases attempt with
  | insert key value => exact h.atomic_insert cursor memory key value
  | remove key => exact h.atomic_remove cursor memory key
  | removeInto key buffer => exact h.atomic_removeInto cursor memory key buffer
  | get key => exact h.atomic_get cursor memory key
  | getInto key buffer => exact h.atomic_getInto cursor memory key buffer
  | overwrite key bytes offset => exact h.atomic_overwrite cursor memory key bytes offset
  | getKeyValue key => exact h.atomic_getKeyValue cursor memory key
  | clone => exact h.atomic_clone cursor memory
  | readInto key value => exact h.atomic_readInto hc memory key value
  | setValue value => exact h.atomic_setValue hc memory value
  | removeCurrent => exact h.atomic_removeCurrent hc memory

end Sound

end Tree

/-! ### Counters -/

namespace Attempt

open MeteredMap.Tree

/-- A call on a reachable map, or through a cursor on it, that fails leaves the map, the cursor and
the buffers as they were. The counters of the memory, on every level of nested budgets, show as
many bytes in use and as many blocks held as before, and the number `n` of requests granted on top.
If a request was refused, these are the requests before it. If no handle was left for a new entry,
they are its two blocks. If a clone met two stored keys that count as equal, as no comparator lets
it that orders the keys, they are the slot table of the copy and the blocks of the entries before
the second one. In every other case there are none. -/
theorem unchanged_of_error {α : Type} [Counted α] {tree : Tree} {cursor : Cursor}
    (hr : Tree.Reachable tree) (hc : cursor.LiveIn tree) (memory : α) (attempt : Attempt) :
    ∃ after, attempt.run tree cursor memory = .ok after ∧
      ∀ cause, after.result = .error cause →
        after.tree = tree ∧ after.cursor = cursor ∧ after.buffers = attempt.buffers ∧
        ∃ n : Nat,
          Counted.usages after.memory = (Counted.usages memory).map
            (fun usage => { usage with total := usage.total + UInt64.ofNat n }) ∧
          attempt.Costs tree memory cause n := by
  obtain ⟨s, vacant, h⟩ := hr.sound
  obtain ⟨after, hrun, hafter⟩ := h.atomic hc memory attempt
  refine ⟨after, hrun, fun cause hcause => ?_⟩
  obtain ⟨htree, hcursor, hbuffers, gs, rs, hperm, htraffic, hcosts⟩ := hafter cause hcause
  refine ⟨htree, hcursor, hbuffers, gs.length, ?_, hcosts⟩
  rw [htraffic.usages_eq]
  exact List.map_congr_left fun usage _ => usage.settle_perm hperm

/-- A budget inside a budget. A key block and a value block fit, a slot table does not. -/
def nestedMemory : Budget (Budget Heap) :=
  .ofInner (.ofInner ⟨none⟩ 100) 1000

example :
    ((Attempt.insert [1] [2]).run sampleTree ⟨none⟩ nestedMemory).map
      (fun after => (after.result, Counted.usages after.memory)) =
        .ok (.error .noMemory, [⟨0, 0, 2⟩, ⟨0, 0, 2⟩]) := by
  rfl

theorem unchanged_of_error_nested :
    Tree.Reachable sampleTree ∧ Cursor.LiveIn ⟨none⟩ sampleTree ∧
      ∃ after, (Attempt.insert [1] [2]).run sampleTree ⟨none⟩ nestedMemory = .ok after ∧
        ∀ cause, after.result = .error cause →
          after.tree = sampleTree ∧ after.cursor = ⟨none⟩ ∧ after.buffers = [] ∧
          ∃ n : Nat,
            Counted.usages after.memory = (Counted.usages nestedMemory).map
              (fun usage => { usage with total := usage.total + UInt64.ofNat n }) ∧
            (Attempt.insert [1] [2]).Costs sampleTree nestedMemory cause n :=
  ⟨sampleTree_reachable, Cursor.liveIn_of_ghost rfl,
    unchanged_of_error sampleTree_reachable (Cursor.liveIn_of_ghost rfl) nestedMemory
      (.insert [1] [2])⟩

/-- A comparator that is no order: it never answers that the first key comes after the second, but
that both count as equal. -/
def neverGreater : Comparator :=
  .supplied fun a b => if Blob.lexCompare a b = .lt then .lt else .eq

/-- An empty tree of one-byte keys and values with that comparator. -/
def disorderedTree : Tree :=
  { sampleTree with comparator := neverGreater }

/-- Two entries were inserted by a comparator that is no order, the larger key first. To a clone,
which inserts the smaller one first, their keys count as equal; by then it was granted a slot table
and the blocks of one entry, and they are counted though memory is not what it lacks. -/
theorem unchanged_of_error_disordered :
    ∃ (tree : Tree) (memory : Budget Heap) (after : Aftermath (Budget Heap)),
      Tree.Reachable tree ∧ Attempt.clone.run tree ⟨none⟩ memory = .ok after ∧
      after.result = .error .keyExists ∧ Counted.usages memory = [⟨196, 5, 5⟩] ∧
      Counted.usages after.memory = [⟨196, 5, 8⟩] := by
  have hempty : Tree.create 1 1 neverGreater = .ok disorderedTree := rfl
  have hpermitted : Operation.AllPermitted [.insert [2] [0], .insert [1] [0]] disorderedTree
      (Budget.ofInner (Heap.mk none) 400) := by
    refine ⟨trivial, ?_⟩
    exact ⟨trivial, trivial⟩
  obtain ⟨tree, memory, hrun, hr⟩ := Operation.exists_runAll _ (.create hempty) _ hpermitted
  have hseen : (Operation.runAll [.insert [2] [0], .insert [1] [0]] disorderedTree
        (Budget.ofInner (Heap.mk none) 400) >>=
      fun p => (Attempt.clone.run p.1 ⟨none⟩ p.2).map fun after =>
        (after.result, Counted.usages p.2, Counted.usages after.memory)) =
      .ok (.error .keyExists, [⟨196, 5, 5⟩], [⟨196, 5, 8⟩]) := rfl
  rw [hrun, ok_bind] at hseen
  cases hclone : Attempt.clone.run tree ⟨none⟩ memory with
  | error fault =>
    rw [hclone] at hseen
    cases hseen
  | ok after =>
    rw [hclone] at hseen
    obtain ⟨hresult, hbefore, hafter⟩ : after.result = .error .keyExists ∧
        Counted.usages memory = [⟨196, 5, 5⟩] ∧ Counted.usages after.memory = [⟨196, 5, 8⟩] := by
      simpa using Except.ok.inj hseen
    exact ⟨tree, memory, after, hr, hclone, hresult, hbefore, hafter⟩

end Attempt

end MeteredMap
