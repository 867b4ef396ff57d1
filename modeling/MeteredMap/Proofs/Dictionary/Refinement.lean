import MeteredMap.Proofs.Dictionary.Basic
import MeteredMap.Proofs.Tree.Reachability

/-!
# Maps as dictionaries

A map whose comparator orders its keys answers every command as the dictionary of its entries
does, and shows the entries of that dictionary afterwards. An insertion finds no room exactly if
the memory refuses one of its requests or the handles are used up, and then changes nothing.

## Main definitions

* `MeteredMap.Dictionary.Command.run` : a command carried out on a map.
* `MeteredMap.Tree.dictionary` : the dictionary of a tree with a shape.
* `MeteredMap.Tree.Made` : trees that come from a constructor.

## Main results

* `MeteredMap.Tree.Sound.find_cases` : a search by key finds what the dictionary does.
* `MeteredMap.Tree.Sound.run_command` : one command.
* `MeteredMap.Dictionary.runAll_eq_replay` : every run of commands on a new map.
-/

namespace MeteredMap

/-! ### Commands to a map -/

namespace Dictionary

variable {α : Type} [Allocator α]

/-- Carries out a command on a map. -/
def Command.run (command : Command) (tree : Tree) (memory : α) :
    Except Fault (Outcome Tree α Answer) := do
  match command with
  | .insert key value =>
    let ⟨⟨answer, tree, memory⟩, _⟩ ← tree.insert memory key value
    return ⟨.result (answer.map fun _ => ()), tree, memory⟩
  | .remove key =>
    let ⟨⟨answer, tree, memory⟩, _⟩ ← tree.remove memory key
    return ⟨.result answer, tree, memory⟩
  | .removeInto key buffer =>
    let ⟨⟨(answer, buffer), tree, memory⟩, _⟩ ← tree.removeInto memory key buffer
    return ⟨.buffer answer buffer, tree, memory⟩
  | .get key => return ⟨.value (← tree.get key).value, tree, memory⟩
  | .getInto key buffer =>
    let ⟨(answer, buffer), _⟩ ← tree.getInto key buffer
    return ⟨.buffer answer buffer, tree, memory⟩
  | .overwrite key bytes offset =>
    let ⟨(answer, tree), _⟩ ← tree.overwrite key bytes offset
    return ⟨.value answer, tree, memory⟩
  | .getKeyValue key => return ⟨.found (← tree.getKeyValue key).value, tree, memory⟩
  | .contains key => return ⟨.flag (← tree.contains key).value, tree, memory⟩
  | .outermost side => return ⟨.entry (← tree.outermostEntry side), tree, memory⟩
  | .size => return ⟨.count tree.size, tree, memory⟩
  | .isEmpty => return ⟨.flag tree.isEmpty, tree, memory⟩
  | .clear =>
    let (tree, memory) ← tree.clear memory
    return ⟨.done, tree, memory⟩
  | .entries => return ⟨.entries (← tree.entries), tree, memory⟩

/-- Carries out commands one after the other, with a look at all entries after each. -/
def runAll : List Command → Tree → α → Except Fault (List Record)
  | [], _, _ => return []
  | command :: commands, tree, memory => do
    let refusal := tree.refusal memory
    let ⟨answer, tree, memory⟩ ← command.run tree memory
    let record : Record := ⟨refusal, answer, ← tree.entries⟩
    return record :: (← runAll commands tree memory)

end Dictionary

namespace Tree

open Shape

/-- Trees that come from a constructor. -/
inductive Made (keySize valueSize : Nat) (comparator : Comparator) (tree : Tree) : Prop
  | create (h : Tree.create keySize valueSize comparator = .ok tree)
  | withCapacity {α : Type} [Allocator α] {memory memory' : α} {capacity : Nat}
      (h : Tree.withCapacity keySize valueSize capacity comparator memory = (.ok tree, memory'))

/-- The dictionary of a tree with a shape. -/
def dictionary (tree : Tree) (s : Shape) : Dictionary where
  keySize := tree.keySize
  valueSize := tree.valueSize
  compare := tree.comparator.compare
  entries := s.entries

variable {α : Type} [Allocator α] {tree after : Tree} {s t : Shape} {vacant : List Handle}
  {memory : α} {key value : Blob} {x : Handle} {e e' : Entry} {pre post : List (Handle × Entry)}

theorem Akin.dictionary_eq (h : Akin tree after) (s t : Shape) :
    after.dictionary t = { tree.dictionary s with entries := t.entries } := by
  simp only [dictionary, h.keySize, h.valueSize, h.comparator]

/-! ### Searches -/

/-- A key that is found: where it is, and what stands around it. -/
structure Locates (tree : Tree) (s : Shape) (key : Blob) (x : Handle) (e : Entry)
    (pre post : List (Handle × Entry)) : Prop where
  inorder_eq : s.inorder = pre ++ (x, e) :: post
  equal : tree.comparator.compare key e.key = .eq
  cut : Cut tree.comparator.compare key (pre.map Prod.snd) (post.map Prod.snd)
  length_key : key.length = tree.keySize

namespace Locates

theorem entries_eq (h : tree.Locates s key x e pre post) :
    s.entries = pre.map Prod.snd ++ e :: post.map Prod.snd := by
  simp [Shape.entries, h.inorder_eq]

theorem mem (h : tree.Locates s key x e pre post) : (x, e) ∈ s.inorder := by
  simp [h.inorder_eq]

theorem lookup_eq (h : tree.Locates s key x e pre post) :
    (tree.dictionary s).lookup key = .ok e := by
  have hcheck : (tree.dictionary s).checkKey key = .ok () := if_pos h.length_key
  have hfind := h.cut.find?_cons h.equal
  rw [← h.entries_eq] at hfind
  exact Dictionary.lookup_of_find? hcheck hfind

theorem erase_eq (h : tree.Locates s key x e pre post) :
    (tree.dictionary s).erase key =
      { tree.dictionary s with entries := pre.map Prod.snd ++ post.map Prod.snd } := by
  simp only [Dictionary.erase, dictionary, h.entries_eq, h.cut.eraseP_cons h.equal]

theorem overwrite_eq (h : tree.Locates s key x e pre post) (bytes : Blob) (offset : Nat) :
    (tree.dictionary s).overwrite key bytes offset =
      { tree.dictionary s with
        entries := pre.map Prod.snd ++
          { e with value := e.value.overwrite bytes offset } :: post.map Prod.snd } := by
  simp only [Dictionary.overwrite, dictionary, h.entries_eq, h.cut.map_cons h.equal]

end Locates

namespace Sound

/-- A search that fails ends between the entries before the key and those after it. -/
private theorem cut_of_place (h : tree.Sound s vacant)
    (ho : OrdersKeys tree.comparator.compare tree.keySize) (hkey : key.length = tree.keySize)
    {path : List Frame} (hplace : locate tree.comparator.compare key [] s = (path, absent)) :
    s.entries = (pathBefore path).map Prod.snd ++ (pathAfter path).map Prod.snd ∧
      Cut tree.comparator.compare key ((pathBefore path).map Prod.snd)
        ((pathAfter path).map Prod.snd) := by
  have hplug := plug_locate tree.comparator.compare key [] s
  rw [hplace] at hplug
  refine ⟨?_, cut_of_locate ho hkey h.length_key (h.ordered ho) hplace⟩
  rw [← entries_plug_absent]
  exact congrArg Shape.entries hplug.symm

/-- A search that succeeds ends at the one entry that counts as equal. -/
private theorem locates_of_place (h : tree.Sound s vacant)
    (ho : OrdersKeys tree.comparator.compare tree.keySize) (hkey : key.length = tree.keySize)
    {c : Color} {l r : Shape} {path : List Frame}
    (hplace : locate tree.comparator.compare key [] s = (path, .node c x e l r)) :
    tree.Locates s key x e (pathBefore path ++ l.inorder) (r.inorder ++ pathAfter path) := by
  have hplug := plug_locate tree.comparator.compare key [] s
  rw [hplace] at hplug
  have hinorder : s.inorder =
      (pathBefore path ++ l.inorder) ++ (x, e) :: (r.inorder ++ pathAfter path) := by
    have hsplit := inorder_plug path (.node c x e l r)
    rw [show plug path (.node c x e l r) = s from hplug] at hsplit
    simpa [inorder] using hsplit
  have hequal : tree.comparator.compare key e.key = .eq :=
    compare_of_locate (congrArg Prod.snd hplace)
  have hentries : s.entries = (pathBefore path ++ l.inorder).map Prod.snd ++
      e :: (r.inorder ++ pathAfter path).map Prod.snd := by
    rw [Shape.entries, hinorder, List.map_append, List.map_cons]
  have hascending := h.ordered ho
  have hlength := h.length_key
  rw [hentries] at hascending hlength
  exact ⟨hinorder, hequal, hascending.cut ho hlength hkey hequal, hkey⟩

/-- A search by key finds what the dictionary finds. -/
theorem find_cases (h : tree.Sound s vacant)
    (ho : OrdersKeys tree.comparator.compare tree.keySize) (key : Blob) :
    (∃ cause calls, tree.find key = .ok ⟨.error cause, calls⟩ ∧
        (tree.dictionary s).lookup key = .error cause) ∨
      ∃ x e pre post calls, tree.find key = .ok ⟨.ok x, calls⟩ ∧
        tree.Locates s key x e pre post := by
  by_cases hkey : key.length = tree.keySize
  · have hcheck : (tree.dictionary s).checkKey key = .ok () := if_pos hkey
    have hcheck' : tree.checkKey key = .ok () := if_pos hkey
    rw [Tree.find, hcheck']
    dsimp only
    rw [h.hasShape.search, ok_bind]
    rcases hplace : locate tree.comparator.compare key [] s with ⟨path, _ | ⟨c, x, e, l, r⟩⟩
    · obtain ⟨hentries, hcut⟩ := h.cut_of_place ho hkey hplace
      have hfind := hcut.find?_append
      rw [← hentries] at hfind
      exact Or.inl ⟨.keyNotFound, _, rfl, Dictionary.lookup_of_find?_eq_none hcheck hfind⟩
    · exact Or.inr ⟨x, e, _, _, _, rfl, h.locates_of_place ho hkey hplace⟩
  · have hcheck : (tree.dictionary s).checkKey key =
        .error (.keySize tree.keySize key.length) := if_neg hkey
    refine Or.inl ⟨.keySize tree.keySize key.length, [], ?_, ?_⟩
    · rw [Tree.find, checkKey, if_neg hkey]
      rfl
    · rw [Dictionary.lookup, hcheck, error_bind]

end Sound

/-! ### Single commands -/

/-- A command on a tree answers as the dictionary does, and leaves the dictionary that it does. -/
def Obeys (tree : Tree) (s : Shape) (memory : α) (command : Dictionary.Command) : Prop :=
  ∃ after memory' t rest,
    command.run tree memory =
      .ok ⟨((tree.dictionary s).step (tree.refusal memory) command).1, after, memory'⟩ ∧
    after.Sound t rest ∧ Akin tree after ∧
    after.dictionary t = ((tree.dictionary s).step (tree.refusal memory) command).2

namespace Sound

/-- A command that leaves the tree as it is. -/
private theorem obeys_of_same (h : tree.Sound s vacant) {command : Dictionary.Command}
    (answer : Dictionary.Answer) (memory' : α)
    (hstep : (tree.dictionary s).step (tree.refusal memory) command = (answer, tree.dictionary s))
    (hrun : command.run tree memory = .ok ⟨answer, tree, memory'⟩) :
    tree.Obeys s memory command := by
  refine ⟨tree, memory', s, vacant, ?_, h, .refl tree, ?_⟩
  · rw [hstep, hrun]
  · rw [hstep]

/-- An insertion of a key that is not there, which goes as the memory and the slot table allow. -/
private theorem obeys_insert_of_place (h : tree.Sound s vacant)
    (ho : OrdersKeys tree.comparator.compare tree.keySize) (memory : α) {key value : Blob}
    (hkey : key.length = tree.keySize) (hvalue : value.length = tree.valueSize)
    {path : List Frame} (hplace : locate tree.comparator.compare key [] s = (path, absent)) :
    tree.Obeys s memory (.insert key value) := by
  have hcheckKey : (tree.dictionary s).checkKey key = .ok () := if_pos hkey
  have hcheckValue : (tree.dictionary s).checkValue value = .ok () := if_pos hvalue
  obtain ⟨hentries, hcut⟩ := h.cut_of_place ho hkey hplace
  have hplug := plug_locate tree.comparator.compare key [] s
  rw [hplace] at hplug
  obtain rfl : plug path absent = s := hplug
  rcases h.provision memory with
    ⟨cause, memory', hprov⟩ | ⟨capacity, memory', hprov, hle, hroom⟩
  · have hrefusal := h.refusal_of_provision_error hprov
    have hfind := hcut.find?_append
    rw [← hentries] at hfind
    have hinsert : (tree.dictionary (plug path absent)).insert (some cause) ⟨key, value⟩ =
        .error cause := Dictionary.insert_of_refusal hcheckKey hcheckValue hfind
    refine h.obeys_of_same (.result (.error cause)) memory' ?_ ?_
    · rw [Dictionary.step, hrefusal, hinsert]
    · rw [Dictionary.Command.run, h.insert_of_refused hkey hvalue hplace hprov]
      rfl
  · have hrefusal := h.refusal_of_provision_ok hprov
    have hinsert := Dictionary.insert_of_cut (e := ⟨key, value⟩) hcheckKey hcheckValue hcut hentries
    obtain ⟨x, after, rest, heq, hinserted⟩ :=
      h.insert_of_granted hkey hvalue hplace hle hroom hprov
    refine ⟨after, memory', _, rest, ?_, hinserted.sound, hinserted.akin, ?_⟩
    · rw [Dictionary.step, hrefusal, hinsert, Dictionary.Command.run, heq]
      rfl
    · rw [Dictionary.step, hrefusal, hinsert, hinserted.akin.dictionary_eq, entries_withLeaf]

private theorem obeys_insert (h : tree.Sound s vacant)
    (ho : OrdersKeys tree.comparator.compare tree.keySize) (memory : α) (key value : Blob) :
    tree.Obeys s memory (.insert key value) := by
  by_cases hkey : key.length = tree.keySize
  · have hcheckKey : (tree.dictionary s).checkKey key = .ok () := if_pos hkey
    by_cases hvalue : value.length = tree.valueSize
    · have hcheckValue : (tree.dictionary s).checkValue value = .ok () := if_pos hvalue
      rcases hplace : locate tree.comparator.compare key [] s with ⟨path, _ | ⟨c, x, e, l, r⟩⟩
      · exact h.obeys_insert_of_place ho memory hkey hvalue hplace
      · have hlocates := h.locates_of_place ho hkey hplace
        have hfound : (locate tree.comparator.compare key [] s).2 ≠ absent := by simp [hplace]
        have hfind := hlocates.cut.find?_cons hlocates.equal
        rw [← hlocates.entries_eq] at hfind
        have hinsert : (tree.dictionary s).insert (tree.refusal memory) ⟨key, value⟩ =
            .error .keyExists := Dictionary.insert_of_find? _ hcheckKey hcheckValue hfind
        refine h.obeys_of_same (.result (.error .keyExists)) memory ?_ ?_
        · rw [Dictionary.step, hinsert]
        · rw [Dictionary.Command.run, h.insert_of_found memory hkey hvalue hfound]
          rfl
    · have hcheckValue : (tree.dictionary s).checkValue value =
          .error (.valueSize tree.valueSize value.length) := if_neg hvalue
      refine h.obeys_of_same (.result (.error (.valueSize tree.valueSize value.length)))
        memory ?_ ?_
      · rw [Dictionary.step, Dictionary.insert.eq_def, hcheckKey, ok_bind, hcheckValue, error_bind]
      · rw [Dictionary.Command.run, insert_of_badValue tree memory hkey hvalue]
        rfl
  · have hcheckKey : (tree.dictionary s).checkKey key =
        .error (.keySize tree.keySize key.length) := if_neg hkey
    refine h.obeys_of_same (.result (.error (.keySize tree.keySize key.length)))
      memory ?_ ?_
    · rw [Dictionary.step, Dictionary.insert.eq_def, hcheckKey, error_bind]
    · rw [Dictionary.Command.run, insert_of_badKey tree memory value hkey]
      rfl

/-- An entry that was found is the one removed. -/
private theorem removeAt_of_locates (h : tree.Sound s vacant)
    (hlocates : tree.Locates s key x e pre post) (memory : α) :
    ∃ next after t rest,
      tree.removeAt memory x = .ok (⟨e, next⟩, after, tree.releaseBlocks memory) ∧
      after.Sound t rest ∧ Akin tree after ∧
      after.dictionary t = (tree.dictionary s).erase key := by
  have hx : x ∈ s.handles := List.mem_map.mpr ⟨(x, e), hlocates.mem, rfl⟩
  obtain ⟨e', next, freed, after, t, heq, hafter, hk, hremoves, -⟩ := h.removeAt hx memory
  obtain ⟨pre', post', hsplit, hentries⟩ := hremoves.split
  obtain ⟨rfl, rfl, rfl⟩ :=
    toward_split_unique .right h.hasShape.nodup hlocates.inorder_eq hsplit
  refine ⟨next, after, t, _, heq, hafter, hk, ?_⟩
  rw [hk.dictionary_eq, hlocates.erase_eq, Shape.entries, hentries]

private theorem obeys_remove (h : tree.Sound s vacant)
    (ho : OrdersKeys tree.comparator.compare tree.keySize) (memory : α) (key : Blob) :
    tree.Obeys s memory (.remove key) := by
  rcases h.find_cases ho key with
    ⟨cause, calls, hfind, hlookup⟩ | ⟨x, e, pre, post, calls, hfind, hlocates⟩
  · refine h.obeys_of_same (.result (.error cause)) memory ?_ ?_
    · rw [Dictionary.step, hlookup]
    · rw [Dictionary.Command.run, Tree.remove, extract, hfind]
      rfl
  · obtain ⟨next, after, t, rest, heq, hafter, hk, hdictionary⟩ :=
      h.removeAt_of_locates hlocates memory
    refine ⟨after, tree.releaseBlocks memory, t, rest, ?_, hafter, hk, ?_⟩
    · rw [Dictionary.step, hlocates.lookup_eq, Dictionary.Command.run, Tree.remove, extract, hfind]
      simp only [ok_bind, heq]
      rfl
    · rw [Dictionary.step, hlocates.lookup_eq]
      exact hdictionary

/-- The lengths of a key and of a buffer are checked before anything else. -/
private theorem lookupInto_cases (tree : Tree) (s : Shape) (key buffer : Blob) :
    (∃ cause, tree.checkKey key = .error cause ∧
        (tree.dictionary s).lookupInto key buffer = .error cause) ∨
      (∃ cause, tree.checkKey key = .ok () ∧ tree.checkValue buffer = .error cause ∧
        (tree.dictionary s).lookupInto key buffer = .error cause) ∨
      tree.checkKey key = .ok () ∧ tree.checkValue buffer = .ok () ∧
        (tree.dictionary s).lookupInto key buffer = (tree.dictionary s).lookup key := by
  have hcheckKey : (tree.dictionary s).checkKey key = tree.checkKey key := rfl
  have hcheckValue : (tree.dictionary s).checkValue buffer = tree.checkValue buffer := rfl
  rw [Dictionary.lookupInto, hcheckKey, hcheckValue]
  cases tree.checkKey key with
  | error cause => exact Or.inl ⟨cause, rfl, rfl⟩
  | ok =>
    cases tree.checkValue buffer with
    | error cause => exact Or.inr (Or.inl ⟨cause, rfl, rfl, rfl⟩)
    | ok => exact Or.inr (Or.inr ⟨rfl, rfl, rfl⟩)

private theorem obeys_removeInto (h : tree.Sound s vacant)
    (ho : OrdersKeys tree.comparator.compare tree.keySize) (memory : α) (key buffer : Blob) :
    tree.Obeys s memory (.removeInto key buffer) := by
  rcases lookupInto_cases tree s key buffer with
    ⟨cause, hkey, hinto⟩ | ⟨cause, hkey, hvalue, hinto⟩ | ⟨hkey, hvalue, hinto⟩
  · refine h.obeys_of_same (.buffer (.error cause) buffer) memory ?_ ?_
    · rw [Dictionary.step, hinto]
    · rw [Dictionary.Command.run, Tree.removeInto, hkey]
      rfl
  · refine h.obeys_of_same (.buffer (.error cause) buffer) memory ?_ ?_
    · rw [Dictionary.step, hinto]
    · rw [Dictionary.Command.run, Tree.removeInto, hkey, hvalue]
      rfl
  · rcases h.find_cases ho key with
      ⟨cause, calls, hfind, hlookup⟩ | ⟨x, e, pre, post, calls, hfind, hlocates⟩
    · refine h.obeys_of_same (.buffer (.error cause) buffer) memory ?_ ?_
      · rw [Dictionary.step, hinto, hlookup]
      · rw [Dictionary.Command.run, Tree.removeInto, hkey, hvalue]
        simp only [ok_bind, hfind]
        rfl
    · obtain ⟨next, after, t, rest, heq, hafter, hk, hdictionary⟩ :=
        h.removeAt_of_locates hlocates memory
      have hlength : e.value.length = buffer.length := by
        have hadmits := h.admits e (List.mem_map.mpr ⟨(x, e), hlocates.mem, rfl⟩)
        rw [hadmits.2, length_of_checkValue hvalue]
      refine ⟨after, tree.releaseBlocks memory, t, rest, ?_, hafter, hk, ?_⟩
      · rw [Dictionary.step, hinto, hlocates.lookup_eq, Dictionary.Command.run, Tree.removeInto,
          hkey, hvalue]
        simp only [ok_bind, hfind, Tree.removeAtInto, heq, if_pos hlength]
        rfl
      · rw [Dictionary.step, hinto, hlocates.lookup_eq]
        exact hdictionary

private theorem obeys_overwrite (h : tree.Sound s vacant)
    (ho : OrdersKeys tree.comparator.compare tree.keySize) (memory : α) (key bytes : Blob)
    (offset : Nat) : tree.Obeys s memory (.overwrite key bytes offset) := by
  rcases h.find_cases ho key with
    ⟨cause, calls, hfind, hlookup⟩ | ⟨x, e, pre, post, calls, hfind, hlocates⟩
  · refine h.obeys_of_same (.value (.error cause)) memory ?_ ?_
    · rw [Dictionary.step, hlookup]
    · rw [Dictionary.Command.run, Tree.overwrite, hfind]
      rfl
  · have hx : x ∈ s.handles := List.mem_map.mpr ⟨(x, e), hlocates.mem, rfl⟩
    obtain ⟨after, t, pre', e', post', heq, hafter, hk, hsplit, hinorder⟩ :=
      h.overwriteAt hx bytes offset
    obtain ⟨rfl, rfl, rfl⟩ :=
      toward_split_unique .right h.hasShape.nodup hlocates.inorder_eq hsplit
    refine ⟨after, memory, t, vacant, ?_, hafter, hk.akin, ?_⟩
    · rw [Dictionary.step, hlocates.lookup_eq, Dictionary.Command.run, Tree.overwrite, hfind]
      simp only [ok_bind, h.hasShape.entry_of_mem hlocates.mem, heq]
      rfl
    · rw [Dictionary.step, hlocates.lookup_eq]
      dsimp only
      rw [hk.akin.dictionary_eq, hlocates.overwrite_eq, Shape.entries, hinorder, List.map_append,
        List.map_cons]

private theorem getKeyValue_eq (h : tree.Sound s vacant)
    (ho : OrdersKeys tree.comparator.compare tree.keySize) (key : Blob) :
    ∃ calls, tree.getKeyValue key = .ok ⟨(tree.dictionary s).lookup key, calls⟩ := by
  rw [Tree.getKeyValue]
  rcases h.find_cases ho key with
    ⟨cause, calls, hfind, hlookup⟩ | ⟨x, e, pre, post, calls, hfind, hlocates⟩
  · exact ⟨calls, by rw [hfind, hlookup]; rfl⟩
  · refine ⟨calls, ?_⟩
    rw [hfind, hlocates.lookup_eq]
    simp only [ok_bind, h.hasShape.entry_of_mem hlocates.mem, pure_eq_ok]

private theorem get_eq (h : tree.Sound s vacant)
    (ho : OrdersKeys tree.comparator.compare tree.keySize) (key : Blob) :
    ∃ calls, tree.get key = .ok ⟨((tree.dictionary s).lookup key).map Entry.value, calls⟩ := by
  obtain ⟨calls, heq⟩ := h.getKeyValue_eq ho key
  exact ⟨calls, by rw [Tree.get, heq]; rfl⟩

private theorem obeys_getInto (h : tree.Sound s vacant)
    (ho : OrdersKeys tree.comparator.compare tree.keySize) (memory : α) (key buffer : Blob) :
    tree.Obeys s memory (.getInto key buffer) := by
  rcases lookupInto_cases tree s key buffer with
    ⟨cause, hkey, hinto⟩ | ⟨cause, hkey, hvalue, hinto⟩ | ⟨hkey, hvalue, hinto⟩
  · refine h.obeys_of_same (.buffer (.error cause) buffer) memory ?_ ?_
    · rw [Dictionary.step, hinto]
    · rw [Dictionary.Command.run, Tree.getInto, hkey]
      rfl
  · refine h.obeys_of_same (.buffer (.error cause) buffer) memory ?_ ?_
    · rw [Dictionary.step, hinto]
    · rw [Dictionary.Command.run, Tree.getInto, hkey, hvalue]
      rfl
  · obtain ⟨calls, heq⟩ := h.get_eq ho key
    cases hlookup : (tree.dictionary s).lookup key with
    | error cause =>
      rw [hlookup] at heq
      refine h.obeys_of_same (.buffer (.error cause) buffer) memory ?_ ?_
      · rw [Dictionary.step, hinto, hlookup]
      · rw [Dictionary.Command.run, Tree.getInto, hkey, hvalue]
        simp only [ok_bind, heq]
        rfl
    | ok e =>
      rw [hlookup] at heq
      refine h.obeys_of_same (.buffer (.ok ()) e.value) memory ?_ ?_
      · rw [Dictionary.step, hinto, hlookup]
      · rw [Dictionary.Command.run, Tree.getInto, hkey, hvalue]
        simp only [ok_bind, heq]
        rfl

private theorem obeys_contains (h : tree.Sound s vacant)
    (ho : OrdersKeys tree.comparator.compare tree.keySize) (memory : α) (key : Blob) :
    tree.Obeys s memory (.contains key) := by
  refine h.obeys_of_same (.flag ((tree.dictionary s).lookup key).toBool)
    memory rfl ?_
  rw [Dictionary.Command.run, Tree.contains]
  rcases h.find_cases ho key with
    ⟨cause, calls, hfind, hlookup⟩ | ⟨x, e, pre, post, calls, hfind, hlocates⟩
  · rw [hfind, hlookup]
    rfl
  · rw [hfind, hlocates.lookup_eq]
    rfl

private theorem obeys_outermost (h : tree.Sound s vacant) (memory : α) (side : Side) :
    tree.Obeys s memory (.outermost side) := by
  have hentry : tree.outermostEntry side = .ok ((s.toward side.other).head?.map Prod.snd) := by
    rw [outermostEntry, h.hasShape.outermost]
    cases hhead : (s.toward side.other).head? with
    | none => rfl
    | some pair =>
      obtain ⟨x, e⟩ := pair
      have hmem : (x, e) ∈ s.inorder := (mem_toward_iff side.other).mp (List.mem_of_head? hhead)
      simp only [Option.map_some, ok_bind, h.hasShape.entry_of_mem hmem, map_ok]
  refine h.obeys_of_same (.entry ((s.toward side.other).head?.map Prod.snd))
    memory ?_ ?_
  · cases side
    · simp [Dictionary.step, dictionary, Shape.entries, Side.other]
    · simp [Dictionary.step, dictionary, Shape.entries, Side.other, toward]
  · rw [Dictionary.Command.run, hentry]
    rfl

/-- Every command on a tree whose comparator orders the keys answers as the dictionary does, and
leaves the dictionary that it does. -/
theorem run_command (h : tree.Sound s vacant)
    (ho : OrdersKeys tree.comparator.compare tree.keySize) (memory : α)
    (command : Dictionary.Command) : tree.Obeys s memory command := by
  cases command with
  | insert key value => exact h.obeys_insert ho memory key value
  | remove key => exact h.obeys_remove ho memory key
  | removeInto key buffer => exact h.obeys_removeInto ho memory key buffer
  | get key =>
    obtain ⟨calls, heq⟩ := h.get_eq ho key
    exact h.obeys_of_same _ _ rfl (by rw [Dictionary.Command.run, heq]; rfl)
  | getInto key buffer => exact h.obeys_getInto ho memory key buffer
  | overwrite key bytes offset => exact h.obeys_overwrite ho memory key bytes offset
  | getKeyValue key =>
    obtain ⟨calls, heq⟩ := h.getKeyValue_eq ho key
    exact h.obeys_of_same _ _ rfl (by rw [Dictionary.Command.run, heq]; rfl)
  | contains key => exact h.obeys_contains ho memory key
  | outermost side => exact h.obeys_outermost memory side
  | size =>
    have hsize : s.entries.length = tree.size := by
      rw [h.size_eq, Shape.size, Shape.entries, List.length_map]
    refine h.obeys_of_same (.count tree.size) memory ?_ rfl
    rw [Dictionary.step, ← hsize]
    rfl
  | isEmpty =>
    have hempty : s.entries.isEmpty = tree.isEmpty := by
      have hsize : s.entries.length = tree.nodes.live := by
        rw [h.live_eq, Shape.size, Shape.entries, List.length_map]
      rw [Tree.isEmpty, Arena.isEmpty, ← hsize]
      cases s.entries <;> rfl
    refine h.obeys_of_same (.flag tree.isEmpty) memory ?_ rfl
    rw [Dictionary.step, ← hempty]
    rfl
  | clear =>
    refine ⟨_, tree.releaseBlocks^[s.size] memory, _, _, ?_, h.cleared, ⟨rfl, rfl, rfl⟩, rfl⟩
    rw [Dictionary.Command.run, h.hasShape.clear memory]
    rfl
  | entries =>
    refine h.obeys_of_same (.entries s.entries) memory rfl ?_
    rw [Dictionary.Command.run, h.hasShape.entries h.live_eq]
    rfl

end Sound

/-- A new tree is empty, and of the sizes and the order that it was made for. -/
theorem Made.sound {keySize valueSize : Nat} {comparator : Comparator}
    (h : tree.Made keySize valueSize comparator) :
    tree.Sound absent [] ∧ tree.keySize = keySize ∧ tree.valueSize = valueSize ∧
      tree.comparator = comparator := by
  obtain ⟨hsound, hlayouts, hcomparator⟩ : tree.Sound absent [] ∧
      Tree.layouts keySize valueSize = .ok (tree.keyLayout, tree.valueLayout) ∧
        tree.comparator = comparator := by
    cases h with
    | create h => exact Sound.ofCreate h
    | withCapacity h => exact Sound.ofWithCapacity h
  obtain ⟨-, hkey, hvalue⟩ := Sound.layouts_of_eq hlayouts
  exact ⟨hsound, congrArg Layout.size hkey, congrArg Layout.size hvalue, hcomparator⟩

end Tree

/-! ### Runs -/

namespace Dictionary

open MeteredMap.Tree

variable {α : Type} [Allocator α]

/-- A run from any tree whose comparator orders the keys. -/
private theorem runAll_of_sound (commands : List Command) {tree : Tree} {s : Shape}
    {vacant : List Handle} (h : tree.Sound s vacant)
    (ho : OrdersKeys tree.comparator.compare tree.keySize) (memory : α) :
    ∃ records, runAll commands tree memory = .ok records ∧
      records = replay commands (records.map Record.refusal) (tree.dictionary s) ∧
      ∀ record ∈ records, Ascending tree.comparator.compare record.entries := by
  induction commands generalizing tree s vacant memory with
  | nil => exact ⟨[], rfl, rfl, fun record hrecord => by cases hrecord⟩
  | cons command commands ih =>
    obtain ⟨after, memory', t, rest, hrun, hafter, hk, hdictionary⟩ :=
      h.run_command ho memory command
    have ho' : OrdersKeys after.comparator.compare after.keySize := by
      rw [hk.comparator, hk.keySize]
      exact ho
    obtain ⟨records, hrecords, hreplay, hascending⟩ := ih hafter ho' memory'
    refine ⟨⟨tree.refusal memory, ((tree.dictionary s).step (tree.refusal memory) command).1,
      t.entries⟩ :: records, ?_, ?_, ?_⟩
    · rw [runAll, hrun]
      simp only [ok_bind, hafter.hasShape.entries hafter.live_eq, hrecords, pure_eq_ok]
    · simp only [List.map_cons, replay, List.headD_cons, List.tail_cons, ← hdictionary, ← hreplay]
      rfl
    · intro record hrecord
      rcases List.mem_cons.mp hrecord with rfl | hrecord
      · have hordered := hafter.ordered ho'
        rwa [hk.comparator] at hordered
      · have hordered := hascending record hrecord
        rwa [hk.comparator] at hordered

/-- Every run of commands on a new map ends, and all its answers and all its lists of entries are
those of a dictionary whose insertions find no room where the memory refuses a request or the
handles are used up. The entries are in strictly ascending order after every step. -/
theorem runAll_eq_replay {keySize valueSize : Nat} {comparator : Comparator} {tree : Tree}
    (hmade : tree.Made keySize valueSize comparator) (ho : OrdersKeys comparator.compare keySize)
    (commands : List Command) (memory : α) :
    ∃ records, runAll commands tree memory = .ok records ∧
      records = replay commands (records.map Record.refusal)
        { keySize, valueSize, compare := comparator.compare, entries := [] } ∧
      ∀ record ∈ records, Ascending comparator.compare record.entries := by
  obtain ⟨hsound, rfl, rfl, rfl⟩ := hmade.sound
  exact runAll_of_sound commands hsound ho memory

/-- An empty tree of one-byte keys and values that ignores case. -/
def caselessTree : Tree :=
  { sampleTree with comparator := .supplied Blob.caselessCompare }

theorem caselessTree_made : caselessTree.Made 1 1 (.supplied Blob.caselessCompare) :=
  .create rfl

/-- Commands for a dictionary that ignores case: an entry is found by a key other than its own. -/
def caselessCommands : List Command :=
  [.insert [0x42] [1], .insert [0x62] [2], .insert [0x61] [3], .insert [] [4],
    .getKeyValue [0x62], .overwrite [0x62] [5] 0, .removeInto [0x62] [0], .contains [0x42],
    .entries]

example :
    (runAll caselessCommands caselessTree sampleMemory).map (List.map Record.answer) =
      .ok [.result (.ok ()), .result (.error .keyExists), .result (.ok ()),
        .result (.error (.keySize 1 0)), .found (.ok ⟨[0x42], [1]⟩), .value (.ok [1]),
        .buffer (.ok ()) [5], .flag false, .entries [⟨[0x61], [3]⟩]] := by
  rfl

theorem runAll_eq_replay_caseless :
    caselessTree.Made 1 1 (.supplied Blob.caselessCompare) ∧ OrdersKeys Blob.caselessCompare 1 ∧
      ∃ records, runAll caselessCommands caselessTree sampleMemory = .ok records ∧
        records = replay caselessCommands (records.map Record.refusal)
          { keySize := 1, valueSize := 1, compare := Blob.caselessCompare, entries := [] } ∧
        ∀ record ∈ records, Ascending Blob.caselessCompare record.entries :=
  ⟨caselessTree_made, .caseless 1,
    runAll_eq_replay caselessTree_made (.caseless 1) caselessCommands sampleMemory⟩

end Dictionary

end MeteredMap
