import MeteredMap.Proofs.Calls.Silent
import MeteredMap.Session.OneMap

/-!
# What a map learns from its comparator

All that an operation learns from the comparator of a map is the answers to the calls that it
reports. Under any other comparison that answers those calls alike it ends alike, reports the same
calls and leaves the same links. An operation that reports no call thus never asks.

## Main definitions

* `MeteredMap.Call.Agree` : two comparisons answer some calls alike.
* `MeteredMap.Traced.under` : what a traced operation leaves behind, with another comparison.

## Main results

* `MeteredMap.Tree.descend_under`, `MeteredMap.Tree.insert_under`, `MeteredMap.Tree.clone_under` :
  the operations that ask.
* `MeteredMap.MapCommand.run_under` : all commands to a map.
-/

namespace MeteredMap

/-- Two comparisons answer some calls alike. -/
def Call.Agree (compare g : Blob → Blob → Ordering) (calls : List Call) : Prop :=
  ∀ call ∈ calls, g call.sought call.stored = compare call.sought call.stored

/-- What a traced operation leaves behind, with another comparison of keys in its tree. -/
def Traced.under {α ρ : Type} (traced : Traced (Outcome Tree α ρ))
    (compare : Blob → Blob → Ordering) : Traced (Outcome Tree α ρ) :=
  { traced with value := traced.value.under compare }

namespace Call.Agree

variable {compare g : Blob → Blob → Ordering} {calls rest : List Call}

theorem left (h : Agree compare g (calls ++ rest)) : Agree compare g calls :=
  fun call hcall => h call (List.mem_append_left rest hcall)

theorem right (h : Agree compare g (calls ++ rest)) : Agree compare g rest :=
  fun call hcall => h call (List.mem_append_right calls hcall)

theorem head {call : Call} (h : Agree compare g (call :: calls)) :
    g call.sought call.stored = compare call.sought call.stored :=
  h call List.mem_cons_self

theorem tail {call : Call} (h : Agree compare g (call :: calls)) : Agree compare g calls :=
  fun c hc => h c (List.mem_cons_of_mem call hc)

end Call.Agree

namespace Tree

variable {α : Type} {tree : Tree} {g : Blob → Blob → Ordering} {key : Blob}

/-! ### Searches -/

theorem descendWithin_under {fuel : Nat} {current : Option Handle} {visits : List Visit}
    (h : tree.descendWithin key fuel current = .ok visits)
    (hg : Call.Agree tree.comparator.compare g (Visit.calls key visits)) :
    (tree.under g).descendWithin key fuel current = .ok visits := by
  induction fuel generalizing current visits with
  | zero => cases current <;> exact h
  | succ fuel ih =>
    cases current with
    | none => exact h
    | some x =>
      obtain ⟨node, hnode, h⟩ := bind_eq_ok_iff.mp h
      have hnode' : (tree.under g).node x = .ok node := hnode
      rw [descendWithin, hnode', ok_bind]
      have hcompare : ∀ {visit : Visit} {rest : List Visit},
          Call.Agree tree.comparator.compare g (Visit.calls key (visit :: rest)) →
          (tree.under g).comparator.compare key visit.key =
            tree.comparator.compare key visit.key := fun hg => hg.head
      cases hanswer : tree.comparator.compare key node.entry.key with
      | lt =>
        simp only [hanswer] at h
        obtain ⟨rest, hrest, heq⟩ := bind_eq_ok_iff.mp h
        cases heq
        rw [hcompare hg]
        simp only [hanswer, ih hrest hg.tail, ok_bind]
        rfl
      | eq =>
        simp only [hanswer] at h
        cases h
        rw [hcompare hg]
        simp only [hanswer]
        rfl
      | gt =>
        simp only [hanswer] at h
        obtain ⟨rest, hrest, heq⟩ := bind_eq_ok_iff.mp h
        cases heq
        rw [hcompare hg]
        simp only [hanswer, ih hrest hg.tail, ok_bind]
        rfl

theorem descend_under {visits : List Visit} (h : tree.descend key = .ok visits)
    (hg : Call.Agree tree.comparator.compare g (Visit.calls key visits)) :
    (tree.under g).descend key = .ok visits :=
  descendWithin_under h hg

theorem search_under {searched : Traced (Option Handle)} (h : tree.search key = .ok searched)
    (hg : Call.Agree tree.comparator.compare g searched.calls) :
    (tree.under g).search key = .ok searched := by
  obtain ⟨visits, hvisits, heq⟩ := bind_eq_ok_iff.mp h
  cases heq
  rw [search, descend_under hvisits hg]
  rfl

theorem find_under {found : Traced (Except MapError Handle)} (h : tree.find key = .ok found)
    (hg : Call.Agree tree.comparator.compare g found.calls) :
    (tree.under g).find key = .ok found := by
  have hkey : (tree.under g).checkKey key = tree.checkKey key := rfl
  rw [find] at h ⊢
  rw [hkey]
  cases hcheck : tree.checkKey key with
  | error e =>
    rw [hcheck] at h
    exact h
  | ok =>
    rw [hcheck] at h
    obtain ⟨⟨value, calls⟩, hsearch, heq⟩ := bind_eq_ok_iff.mp h
    cases value with
    | none =>
      cases heq
      dsimp only
      rw [search_under hsearch hg]
      rfl
    | some x =>
      cases heq
      dsimp only
      rw [search_under hsearch hg]
      rfl

/-! ### Reading -/

theorem getKeyValue_under {got : Traced (Except MapError Entry)}
    (h : tree.getKeyValue key = .ok got)
    (hg : Call.Agree tree.comparator.compare g got.calls) :
    (tree.under g).getKeyValue key = .ok got := by
  obtain ⟨⟨value, calls⟩, hfind, h⟩ := bind_eq_ok_iff.mp h
  cases value with
  | error e =>
    cases h
    rw [getKeyValue, find_under hfind hg]
    rfl
  | ok x =>
    obtain ⟨entry, hentry, heq⟩ := bind_eq_ok_iff.mp h
    cases heq
    have hentry' : (tree.under g).entry x = .ok entry := hentry
    rw [getKeyValue, find_under hfind hg, ok_bind]
    simp only [hentry', ok_bind, pure_eq_ok]

theorem get_under {got : Traced (Except MapError Blob)} (h : tree.get key = .ok got)
    (hg : Call.Agree tree.comparator.compare g got.calls) : (tree.under g).get key = .ok got := by
  obtain ⟨found, hfound, heq⟩ := bind_eq_ok_iff.mp h
  cases heq
  rw [get, getKeyValue_under hfound hg]
  rfl

theorem getInto_under {buffer : Blob} {got : Traced (Except MapError Unit × Blob)}
    (h : tree.getInto key buffer = .ok got)
    (hg : Call.Agree tree.comparator.compare g got.calls) :
    (tree.under g).getInto key buffer = .ok got := by
  have hkey : (tree.under g).checkKey key = tree.checkKey key := rfl
  have hvalue : (tree.under g).checkValue buffer = tree.checkValue buffer := rfl
  rw [getInto] at h ⊢
  rw [hkey, hvalue]
  cases hcheck : tree.checkKey key with
  | error e =>
    rw [hcheck] at h
    exact h
  | ok =>
    rw [hcheck] at h
    cases hcheck' : tree.checkValue buffer with
    | error e =>
      rw [hcheck'] at h
      exact h
    | ok =>
      rw [hcheck'] at h
      obtain ⟨⟨value, calls⟩, hget, heq⟩ := bind_eq_ok_iff.mp h
      cases value with
      | error e =>
        cases heq
        dsimp only
        rw [get_under hget hg]
        rfl
      | ok bytes =>
        cases heq
        dsimp only
        rw [get_under hget hg]
        rfl

theorem contains_under {got : Traced Bool} (h : tree.contains key = .ok got)
    (hg : Call.Agree tree.comparator.compare g got.calls) :
    (tree.under g).contains key = .ok got := by
  obtain ⟨found, hfound, heq⟩ := bind_eq_ok_iff.mp h
  cases heq
  rw [contains, find_under hfound hg]
  rfl

/-! ### Changing -/

theorem overwrite_under {bytes : Blob} {offset : Nat} {old : Except MapError Blob} {after : Tree}
    {calls : List Call} (h : tree.overwrite key bytes offset = .ok ⟨(old, after), calls⟩)
    (hg : Call.Agree tree.comparator.compare g calls) :
    (tree.under g).overwrite key bytes offset = .ok ⟨(old, after.under g), calls⟩ := by
  obtain ⟨⟨value, calls'⟩, hfind, h⟩ := bind_eq_ok_iff.mp h
  cases value with
  | error e =>
    cases h
    rw [overwrite, find_under hfind hg]
    rfl
  | ok x =>
    obtain ⟨entry, hentry, h⟩ := bind_eq_ok_iff.mp h
    obtain ⟨written, hwritten, heq⟩ := bind_eq_ok_iff.mp h
    cases heq
    have hentry' : (tree.under g).entry x = .ok entry := hentry
    rw [overwrite, find_under hfind hg, ok_bind]
    simp only [hentry', ok_bind, overwriteAt_under, hwritten, map_ok, pure_eq_ok]

section

variable [Allocator α] {memory : α}

theorem extract_under {removed : Traced (Outcome Tree α (Except MapError Entry))}
    (h : tree.extract memory key = .ok removed)
    (hg : Call.Agree tree.comparator.compare g removed.calls) :
    (tree.under g).extract memory key = .ok (removed.under g) := by
  obtain ⟨⟨value, calls⟩, hfind, h⟩ := bind_eq_ok_iff.mp h
  cases value with
  | error e =>
    cases h
    rw [extract, find_under hfind hg]
    rfl
  | ok x =>
    obtain ⟨⟨removal, after, memory'⟩, hremove, heq⟩ := bind_eq_ok_iff.mp h
    cases heq
    rw [extract, find_under hfind hg, ok_bind]
    simp only [removeAt_under, hremove, map_ok, ok_bind, pure_eq_ok]
    rfl

theorem remove_under {removed : Traced (Outcome Tree α (Except MapError Unit))}
    (h : tree.remove memory key = .ok removed)
    (hg : Call.Agree tree.comparator.compare g removed.calls) :
    (tree.under g).remove memory key = .ok (removed.under g) := by
  obtain ⟨extracted, hextract, heq⟩ := bind_eq_ok_iff.mp h
  cases heq
  rw [remove, extract_under hextract hg]
  rfl

theorem removeInto_under {buffer : Blob}
    {removed : Traced (Outcome Tree α (Except MapError Unit × Blob))}
    (h : tree.removeInto memory key buffer = .ok removed)
    (hg : Call.Agree tree.comparator.compare g removed.calls) :
    (tree.under g).removeInto memory key buffer = .ok (removed.under g) := by
  have hkey : (tree.under g).checkKey key = tree.checkKey key := rfl
  have hvalue : (tree.under g).checkValue buffer = tree.checkValue buffer := rfl
  rw [removeInto] at h ⊢
  rw [hkey, hvalue]
  cases hcheck : tree.checkKey key with
  | error e =>
    rw [hcheck] at h
    cases h
    rfl
  | ok =>
    rw [hcheck] at h
    cases hcheck' : tree.checkValue buffer with
    | error e =>
      rw [hcheck'] at h
      cases h
      rfl
    | ok =>
      rw [hcheck'] at h
      obtain ⟨⟨value, calls⟩, hfind, h⟩ := bind_eq_ok_iff.mp h
      cases value with
      | error e =>
        cases h
        dsimp only
        rw [find_under hfind hg]
        rfl
      | ok x =>
        obtain ⟨⟨⟨next, written⟩, after, memory'⟩, hremove, heq⟩ := bind_eq_ok_iff.mp h
        cases heq
        dsimp only
        rw [find_under hfind hg, ok_bind]
        simp only [removeAtInto_under, hremove, map_ok, ok_bind, pure_eq_ok]
        rfl

/-- What follows the search of an insertion asks nothing. -/
private theorem link_repair_under (entry : Entry) (arrival : Arrival) (calls : List Call) :
    (do
      let linked ← (tree.under g).link memory entry arrival
      match linked.answer with
      | .error _ => return (⟨linked, calls⟩ : Traced _)
      | .ok handle =>
        let tree ← linked.state.repairInsert handle
        return ⟨⟨.ok handle, tree, linked.memory⟩, calls⟩) =
      (·.under g) <$> (do
        let linked ← tree.link memory entry arrival
        match linked.answer with
        | .error _ => return (⟨linked, calls⟩ : Traced _)
        | .ok handle =>
          let tree ← linked.state.repairInsert handle
          return ⟨⟨.ok handle, tree, linked.memory⟩, calls⟩) := by
  refine bind_eq_map_bind_of_map (link_under memory entry arrival) fun linked => ?_
  obtain ⟨e | x, after, memory'⟩ := linked
  · rfl
  · exact bind_eq_map_bind_of_map repairInsert_under fun _ => rfl

/-- What follows the search of an insertion reports the calls of the search. -/
theorem calls_of_link_repair {entry : Entry} {arrival : Arrival} {calls : List Call}
    {inserted : Traced (Outcome Tree α (Except MapError Handle))}
    (h : (do
      let linked ← tree.link memory entry arrival
      match linked.answer with
      | .error _ => return (⟨linked, calls⟩ : Traced _)
      | .ok handle =>
        let tree ← linked.state.repairInsert handle
        return ⟨⟨.ok handle, tree, linked.memory⟩, calls⟩) = .ok inserted) :
    inserted.calls = calls := by
  obtain ⟨⟨_ | x, after, memory'⟩, -, h⟩ := bind_eq_ok_iff.mp h
  · cases h
    rfl
  · obtain ⟨_, -, heq⟩ := bind_eq_ok_iff.mp h
    cases heq
    rfl

theorem insert_under {value : Blob} {inserted : Traced (Outcome Tree α (Except MapError Handle))}
    (h : tree.insert memory key value = .ok inserted)
    (hg : Call.Agree tree.comparator.compare g inserted.calls) :
    (tree.under g).insert memory key value = .ok (inserted.under g) := by
  have hkey : (tree.under g).checkKey key = tree.checkKey key := rfl
  have hvalue : (tree.under g).checkValue value = tree.checkValue value := rfl
  rw [insert] at h ⊢
  rw [hkey, hvalue]
  cases hcheck : tree.checkKey key with
  | error e =>
    rw [hcheck] at h
    cases h
    rfl
  | ok =>
    rw [hcheck] at h
    cases hcheck' : tree.checkValue value with
    | error e =>
      rw [hcheck'] at h
      cases h
      rfl
    | ok =>
      rw [hcheck'] at h
      obtain ⟨visits, hvisits, h⟩ := bind_eq_ok_iff.mp h
      cases harrival : Arrival.ofVisits visits with
      | found x =>
        rw [harrival] at h
        cases h
        dsimp only
        rw [descend_under hvisits hg, ok_bind, harrival]
        rfl
      | below parent side =>
        rw [harrival] at h
        rw [calls_of_link_repair h] at hg
        dsimp only
        rw [descend_under hvisits hg, ok_bind, harrival]
        exact (link_repair_under _ _ _).trans (congrArg ((·.under g) <$> ·) h)
      | nowhere =>
        rw [harrival] at h
        rw [calls_of_link_repair h] at hg
        dsimp only
        rw [descend_under hvisits hg, ok_bind, harrival]
        exact (link_repair_under _ _ _).trans (congrArg ((·.under g) <$> ·) h)

/-- An insertion leaves the comparison as it is, as it would be left under itself. -/
theorem compare_of_insert {value : Blob}
    {inserted : Traced (Outcome Tree α (Except MapError Handle))}
    (h : tree.insert memory key value = .ok inserted) :
    inserted.value.state.comparator.compare = tree.comparator.compare := by
  have hself : tree.insert memory key value = .ok (inserted.under tree.comparator.compare) :=
    insert_under h fun _ _ => rfl
  rw [h] at hself
  exact congrArg (·.value.state.comparator.compare) (Except.ok.inj hself)

theorem insertEntry_under {value : Blob}
    {inserted : Traced (Outcome Tree α (Except MapError Unit))}
    (h : tree.insertEntry memory key value = .ok inserted)
    (hg : Call.Agree tree.comparator.compare g inserted.calls) :
    (tree.under g).insertEntry memory key value = .ok (inserted.under g) := by
  obtain ⟨entered, henter, heq⟩ := bind_eq_ok_iff.mp h
  cases heq
  rw [insertEntry, insert_under henter hg]
  rfl

/-! ### Cloning -/

theorem copyWithin_under {source target : Tree} {fuel : Nat} {current : Option Handle}
    {copied : Traced (Outcome Tree α (Except MapError Unit))}
    (h : copyWithin source fuel current target memory = .ok copied)
    (hg : Call.Agree target.comparator.compare g copied.calls) :
    copyWithin (source.under g) fuel current (target.under g) memory = .ok (copied.under g) := by
  induction fuel generalizing current target memory copied with
  | zero =>
    cases current with
    | none =>
      cases h
      rfl
    | some x => cases h
  | succ fuel ih =>
    cases current with
    | none =>
      cases h
      rfl
    | some x =>
      obtain ⟨node, hnode, h⟩ := bind_eq_ok_iff.mp h
      obtain ⟨⟨⟨answer, after, memory'⟩, calls⟩, hinsert, h⟩ := bind_eq_ok_iff.mp h
      have hnode' : (source.under g).node x = .ok node := hnode
      rw [copyWithin, hnode', ok_bind]
      cases answer with
      | error e =>
        cases h
        rw [insert_under hinsert hg]
        rfl
      | ok y =>
        obtain ⟨next, hnext, h⟩ := bind_eq_ok_iff.mp h
        obtain ⟨rest, hrest, heq⟩ := bind_eq_ok_iff.mp h
        cases heq
        have hnext' : (source.under g).successor x = .ok next := by
          rw [successor, neighbor_under]
          exact hnext
        have hrest' := ih hrest (compare_of_insert hinsert ▸ hg.right)
        rw [insert_under hinsert hg.left, ok_bind]
        dsimp only [Traced.under, Outcome.under]
        rw [hnext', ok_bind, hrest']
        rfl

/-- A new tree has the comparator that it is made with, and all else is made without it. -/
theorem withCapacity_under (keySize valueSize capacity : Nat) (comparator : Comparator)
    (memory : α) :
    withCapacity keySize valueSize capacity { comparator with compare := g } memory =
        Prod.map (Except.map (·.under g)) id
          (withCapacity keySize valueSize capacity comparator memory) ∧
      ∀ {tree memory'},
        withCapacity keySize valueSize capacity comparator memory = (.ok tree, memory') →
          tree.comparator = comparator := by
  unfold withCapacity
  cases layouts keySize valueSize with
  | error e => exact ⟨rfl, fun h => by cases h⟩
  | ok made =>
    dsimp only
    split_ifs
    · exact ⟨rfl, fun h => by cases h⟩
    · rcases Arena.withCapacity Node.footprint capacity memory with ⟨e | nodes, memory'⟩
      · exact ⟨rfl, fun h => by cases h⟩
      · exact ⟨rfl, fun h => by cases h; rfl⟩

theorem clone_under {cloned : Traced (Except MapError Tree × α)}
    (h : tree.clone memory = .ok cloned)
    (hg : Call.Agree tree.comparator.compare g cloned.calls) :
    (tree.under g).clone memory =
      .ok ⟨(cloned.value.1.map (·.under g), cloned.value.2), cloned.calls⟩ := by
  obtain ⟨hmake, hcomparator⟩ := withCapacity_under (g := g) tree.keySize tree.valueSize tree.size
    tree.comparator memory
  have hmake' : withCapacity (tree.under g).keySize (tree.under g).valueSize (tree.under g).size
      (tree.under g).comparator memory = _ := hmake
  rw [clone] at h ⊢
  rw [hmake']
  rcases hmade : withCapacity tree.keySize tree.valueSize tree.size tree.comparator memory with
    ⟨e | target, memory'⟩
  · rw [hmade] at h
    cases h
    rfl
  · rw [hmade] at h
    obtain ⟨start, hstart, h⟩ := bind_eq_ok_iff.mp h
    obtain ⟨⟨⟨answer, copy, memory''⟩, calls⟩, hcopy, h⟩ := bind_eq_ok_iff.mp h
    have hstart' : (tree.under g).first = .ok start := by
      rw [first, outermost_under]
      exact hstart
    have hcopied : Call.Agree target.comparator.compare g calls →
        copyWithin (tree.under g) (tree.under g).walkBound start (target.under g) memory' = _ :=
      copyWithin_under hcopy
    rw [hcomparator hmade] at hcopied
    dsimp only [Prod.map, Except.map, id]
    rw [hstart', ok_bind]
    cases answer with
    | ok =>
      cases h
      rw [hcopied hg]
      rfl
    | error e =>
      obtain ⟨last, hdispose, heq⟩ := bind_eq_ok_iff.mp h
      cases heq
      rw [hcopied hg, ok_bind]
      dsimp only [Traced.under, Outcome.under]
      rw [dispose_under, hdispose]
      rfl

end

end Tree

/-! ### Commands -/

namespace Tree

variable {α : Type} {tree : Tree} {g : Blob → Blob → Ordering} {memory : α}

/-- One operation for each of several keys, where each learns from the comparator what it reports
and leaves it as it is. -/
theorem forEachKey_under
    {operation : Tree → α → Blob → Except Fault (Traced (Outcome Tree α (Except MapError Unit)))}
    {keys : List Blob} {done : Traced (Outcome Tree α (List (Except MapError Unit)))}
    (h : forEachKey operation keys tree memory = .ok done)
    (hg : Call.Agree tree.comparator.compare g done.calls)
    (hunder : ∀ {tree memory key done g}, operation tree memory key = .ok done →
      Call.Agree tree.comparator.compare g done.calls →
        operation (tree.under g) memory key = .ok (done.under g)) :
    forEachKey operation keys (tree.under g) memory = .ok (done.under g) := by
  induction keys generalizing tree memory done with
  | nil =>
    cases h
    rfl
  | cons key keys ih =>
    obtain ⟨first, hfirst, h⟩ := bind_eq_ok_iff.mp h
    obtain ⟨rest, hrest, heq⟩ := bind_eq_ok_iff.mp h
    cases heq
    have hself : operation tree memory key = .ok (first.under tree.comparator.compare) :=
      hunder hfirst fun _ _ => rfl
    rw [hfirst] at hself
    have hcompare : first.value.state.comparator.compare = tree.comparator.compare :=
      congrArg (·.value.state.comparator.compare) (Except.ok.inj hself)
    rw [forEachKey, hunder hfirst hg.left, ok_bind]
    dsimp only [Traced.under, Outcome.under]
    rw [ih hrest (hcompare ▸ hg.right)]
    rfl

end Tree

namespace MapCommand

variable {α : Type} [Metered α] {tree : Tree} {g : Blob → Blob → Ordering} {memory : α}
  {done : Traced (Outcome Tree α MapAnswer)}

/-- Whatever a command to a map learns from the comparator is in the answers to the calls that it
reports. -/
theorem run_under {command : MapCommand} (h : command.run tree memory = .ok done)
    (hg : Call.Agree tree.comparator.compare g done.calls) :
    command.run (tree.under g) memory = .ok (done.under g) := by
  cases command with
  | insert key value =>
    obtain ⟨inserted, hinsert, heq⟩ := bind_eq_ok_iff.mp h
    cases heq
    rw [run, Tree.insertEntry_under hinsert hg]
    rfl
  | insertMany keys value =>
    obtain ⟨inserted, hinsert, heq⟩ := bind_eq_ok_iff.mp h
    cases heq
    rw [run, Tree.forEachKey_under hinsert hg Tree.insertEntry_under]
    rfl
  | remove key =>
    obtain ⟨removed, hremove, heq⟩ := bind_eq_ok_iff.mp h
    cases heq
    rw [run, Tree.remove_under hremove hg]
    rfl
  | removeMany keys =>
    obtain ⟨removed, hremove, heq⟩ := bind_eq_ok_iff.mp h
    cases heq
    rw [run, Tree.forEachKey_under hremove hg Tree.remove_under]
    rfl
  | removeInto key buffer =>
    obtain ⟨removed, hremove, heq⟩ := bind_eq_ok_iff.mp h
    cases heq
    have hfresh : (tree.under g).freshBuffer = tree.freshBuffer := rfl
    rw [run, hfresh, Tree.removeInto_under hremove hg]
    rfl
  | getInto key buffer =>
    obtain ⟨got, hget, heq⟩ := bind_eq_ok_iff.mp h
    cases heq
    have hfresh : (tree.under g).freshBuffer = tree.freshBuffer := rfl
    rw [run, hfresh, Tree.getInto_under hget hg]
    rfl
  | get key =>
    obtain ⟨got, hget, heq⟩ := bind_eq_ok_iff.mp h
    cases heq
    rw [run, Tree.get_under hget hg]
    rfl
  | getKeyValue key =>
    obtain ⟨got, hget, heq⟩ := bind_eq_ok_iff.mp h
    cases heq
    rw [run, Tree.getKeyValue_under hget hg]
    rfl
  | overwrite key bytes offset =>
    obtain ⟨⟨⟨old, after⟩, calls⟩, hoverwrite, heq⟩ := bind_eq_ok_iff.mp h
    cases heq
    rw [run, Tree.overwrite_under hoverwrite hg]
    rfl
  | contains key =>
    obtain ⟨got, hget, heq⟩ := bind_eq_ok_iff.mp h
    cases heq
    rw [run, Tree.contains_under hget hg]
    rfl
  | clear =>
    obtain ⟨cleared, hclear, heq⟩ := bind_eq_ok_iff.mp h
    cases heq
    rw [run, Tree.clear_under, hclear]
    rfl
  | outermost side =>
    obtain ⟨entry, hentry, heq⟩ := bind_eq_ok_iff.mp h
    cases heq
    rw [run, Tree.outermostEntry_under, hentry]
    rfl
  | compare first second =>
    cases h
    have hanswer : (tree.under g).comparator.compare first second =
        tree.comparator.compare first second := hg.head
    simp only [run, hanswer]
    rfl
  | describe form =>
    obtain ⟨entries, hentries, heq⟩ := bind_eq_ok_iff.mp h
    cases heq
    rw [run, Tree.entries_under, hentries]
    rfl
  | entries =>
    obtain ⟨entries, hentries, heq⟩ := bind_eq_ok_iff.mp h
    cases heq
    rw [run, Tree.entries_under, hentries]
    rfl
  | iterate view commands =>
    obtain ⟨answers, hanswers, heq⟩ := bind_eq_ok_iff.mp h
    cases heq
    rw [run, Iteration.session_under, hanswers]
    rfl
  | walk start commands =>
    obtain ⟨cursor, hcursor, h⟩ := bind_eq_ok_iff.mp h
    obtain ⟨answers, hanswers, heq⟩ := bind_eq_ok_iff.mp h
    cases heq
    rw [run, Cursor.cursor_under, hcursor, ok_bind, Cursor.walk_under, hanswers]
    rfl
  | edit start commands =>
    obtain ⟨cursor, hcursor, h⟩ := bind_eq_ok_iff.mp h
    obtain ⟨edited, hedited, heq⟩ := bind_eq_ok_iff.mp h
    cases heq
    rw [run, Cursor.cursor_under, hcursor, ok_bind, Cursor.edit_under, hedited]
    rfl
  | figures =>
    cases h
    rfl
  | sizes =>
    cases h
    rfl
  | canPerform required =>
    cases h
    rfl
  | usage =>
    cases h
    rfl

end MapCommand

end MeteredMap
