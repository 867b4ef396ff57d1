import Mathlib.Data.List.Nodup
import MeteredMap.Proofs.Calls.Agreement
import MeteredMap.Proofs.Tree.Copying
import MeteredMap.Proofs.Tree.Height
import MeteredMap.Proofs.Tree.RedBlack

/-!
# The calls of a comparator

Which calls of its comparator a command to a sound map makes. A command that names a key checks all
lengths first and then asks on one way down from the root; a clone asks how each entry of the map
stands to entries before it; nothing else asks.

## Main definitions

* `MeteredMap.Drawing.Descent` : ways down from the root.
* `MeteredMap.Drawing.OneWay`, `MeteredMap.Drawing.Copying` : the calls of a search and of a clone.
* `MeteredMap.MapCommand.Abides` : the calls of a command to a map.

## Main results

* `MeteredMap.MapCommand.abides` : every command to a sound map makes the calls that it may make.
* `MeteredMap.Tree.copying_of_clone` : so does a clone.
-/

namespace MeteredMap

/-! ### Ways down -/

namespace Drawing

/-- Nodes that follow each other on a way down from the uppermost node, each a child of the one
before it. -/
inductive Descent : Drawing → List (Handle × Node) → Prop
  | stop (drawing : Drawing) : Descent drawing []
  | left {handle : Handle} {n : Node} {left right : Drawing} {path : List (Handle × Node)}
      (h : Descent left path) : Descent (node handle n left right) ((handle, n) :: path)
  | right {handle : Handle} {n : Node} {left right : Drawing} {path : List (Handle × Node)}
      (h : Descent right path) : Descent (node handle n left right) ((handle, n) :: path)

/-- The calls are those for one key on one way down from the root, on each node at most once and so
no more than there are levels. -/
def OneWay (drawing : Drawing) (key : Blob) (calls : List Call) : Prop :=
  ∃ path, drawing.Descent path ∧ (path.map Prod.fst).Nodup ∧ path.length ≤ drawing.height ∧
    calls = path.map fun step => ⟨key, step.2.entry.key⟩

/-- Each call is for the key of an entry, and compares it with that of an entry before it. -/
def Copying (drawing : Drawing) (calls : List Call) : Prop :=
  ∀ call ∈ calls, ∃ pre e post, drawing.entries = pre ++ e :: post ∧ call.sought = e.key ∧
    ∃ e' ∈ pre, call.stored = e'.key

/-- Each call is about two keys of some length, the second of them stored. -/
def Fitting (drawing : Drawing) (keySize : Nat) (calls : List Call) : Prop :=
  ∀ call ∈ calls, call.sought.length = keySize ∧ call.stored.length = keySize ∧
    ∃ e ∈ drawing.entries, call.stored = e.key

variable {drawing : Drawing} {path : List (Handle × Node)} {key : Blob} {calls : List Call}

namespace Descent

theorem length_le (h : drawing.Descent path) : path.length ≤ drawing.height := by
  induction h with
  | stop drawing => exact Nat.zero_le _
  | left h ih => exact Nat.succ_le_succ (ih.trans (Nat.le_max_left _ _))
  | right h ih => exact Nat.succ_le_succ (ih.trans (Nat.le_max_right _ _))

theorem subset (h : drawing.Descent path) : path.map Prod.fst ⊆ drawing.handles := by
  induction h with
  | stop drawing => exact List.nil_subset _
  | left h ih =>
    refine List.cons_subset.mpr ⟨?_, fun x hx => ?_⟩
    · exact List.mem_append_right _ List.mem_cons_self
    · exact List.mem_append_left _ (ih hx)
  | right h ih =>
    refine List.cons_subset.mpr ⟨?_, fun x hx => ?_⟩
    · exact List.mem_append_right _ List.mem_cons_self
    · exact List.mem_append_right _ (List.mem_cons_of_mem _ (ih hx))

/-- Where no handle occurs twice, no way down meets a node twice. -/
theorem nodup (h : drawing.Descent path) (hd : drawing.handles.Nodup) :
    (path.map Prod.fst).Nodup := by
  induction h with
  | stop drawing => exact List.nodup_nil
  | left h ih =>
    have hsplit := List.nodup_append.mp hd
    refine List.nodup_cons.mpr ⟨fun hx => ?_, ih hsplit.1⟩
    exact hsplit.2.2 _ (h.subset hx) _ List.mem_cons_self rfl
  | right h ih =>
    have hsplit := List.nodup_cons.mp (List.nodup_append.mp hd).2.1
    exact List.nodup_cons.mpr ⟨fun hx => hsplit.1 (h.subset hx), ih hsplit.2⟩

theorem mem_entries {step : Handle × Node} (h : drawing.Descent path) (hstep : step ∈ path) :
    step.2.entry ∈ drawing.entries := by
  induction h with
  | stop drawing => cases hstep
  | left h ih =>
    rcases List.mem_cons.mp hstep with rfl | hstep
    · exact List.mem_append_right _ List.mem_cons_self
    · exact List.mem_append_left _ (ih hstep)
  | right h ih =>
    rcases List.mem_cons.mp hstep with rfl | hstep
    · exact List.mem_append_right _ List.mem_cons_self
    · exact List.mem_append_right _ (List.mem_cons_of_mem _ (ih hstep))

end Descent

/-- A search for a key of the right length asks about keys of the right length. -/
theorem OneWay.fitting {keySize : Nat} (h : drawing.OneWay key calls)
    (hkey : calls ≠ [] → key.length = keySize)
    (hlength : ∀ e ∈ drawing.entries, e.key.length = keySize) : drawing.Fitting keySize calls := by
  obtain ⟨path, hpath, -, -, rfl⟩ := h
  intro call hcall
  obtain ⟨step, hstep, rfl⟩ := List.mem_map.mp hcall
  have hmem := hpath.mem_entries hstep
  exact ⟨hkey (List.ne_nil_of_mem hcall), hlength _ hmem, _, hmem, rfl⟩

/-- A clone asks about keys of the right length. -/
theorem Copying.fitting {keySize : Nat} (h : drawing.Copying calls)
    (hlength : ∀ e ∈ drawing.entries, e.key.length = keySize) : drawing.Fitting keySize calls := by
  intro call hcall
  obtain ⟨pre, e, post, hentries, hsought, e', he', hstored⟩ := h call hcall
  have he : e ∈ drawing.entries := by
    rw [hentries]
    exact List.mem_append_right _ List.mem_cons_self
  have hmem : e' ∈ drawing.entries := by
    rw [hentries]
    exact List.mem_append_left _ he'
  exact ⟨hsought ▸ hlength e he, hstored ▸ hlength e' hmem, e', hmem, hstored⟩

theorem fitting_nil (drawing : Drawing) (keySize : Nat) : drawing.Fitting keySize [] :=
  fun call hcall => by cases hcall

end Drawing

namespace Shape

/-- A search goes one way down. -/
theorem exists_descent (compare : Blob → Blob → Ordering) (key : Blob) (s : Shape)
    (parent : Option Handle) :
    ∃ path, (s.drawing parent).Descent path ∧
      Visit.calls key (s.visits compare key) =
        path.map fun step => ⟨key, step.2.entry.key⟩ := by
  induction s generalizing parent with
  | absent => exact ⟨[], .stop _, rfl⟩
  | node c x e l r ihl ihr =>
    rw [visits, drawing]
    cases compare key e.key with
    | lt =>
      obtain ⟨path, hpath, hcalls⟩ := ihl (some x)
      exact ⟨_, .left hpath, congrArg (_ :: ·) hcalls⟩
    | eq => exact ⟨_, .left (.stop _), rfl⟩
    | gt =>
      obtain ⟨path, hpath, hcalls⟩ := ihr (some x)
      exact ⟨_, .right hpath, congrArg (_ :: ·) hcalls⟩

end Shape

/-! ### Commands that name a key -/

namespace Tree

open Shape

variable {α : Type} {tree : Tree} {s : Shape} {key : Blob} {values : List Blob}

/-- A key and values, or buffers for values, of the lengths that the tree was made for. -/
def Suits (tree : Tree) (key : Blob) (values : List Blob) : Prop :=
  key.length = tree.keySize ∧ ∀ value ∈ values, value.length = tree.valueSize

instance (tree : Tree) (key : Blob) (values : List Blob) : Decidable (tree.Suits key values) :=
  inferInstanceAs (Decidable (_ ∧ _))

/-- The calls for a key that comes with values: all lengths are checked before the search. -/
def callsFor (tree : Tree) (s : Shape) (key : Blob) (values : List Blob) : List Call :=
  if tree.Suits key values then Visit.calls key (s.visits tree.comparator.compare key) else []

theorem Suits.alone (h : tree.Suits key values) : tree.Suits key [] :=
  ⟨h.1, fun value hvalue => by cases hvalue⟩

theorem callsFor_of_suits (h : tree.Suits key values) :
    tree.callsFor s key values = Visit.calls key (s.visits tree.comparator.compare key) :=
  if_pos h

theorem callsFor_of_not_suits (h : ¬ tree.Suits key values) :
    tree.callsFor s key values = [] :=
  if_neg h

theorem checkKey_cases (tree : Tree) (key : Blob) :
    (tree.checkKey key = .ok () ∧ tree.Suits key []) ∨
      ∃ e, tree.checkKey key = .error e ∧ ¬ tree.Suits key [] := by
  unfold checkKey
  split_ifs with h
  · exact Or.inl ⟨rfl, h, fun value hvalue => by cases hvalue⟩
  · exact Or.inr ⟨_, rfl, fun hsuits => h hsuits.1⟩

/-- The checks of a key and a value: both pass, or one of them rejects what does not suit. -/
theorem checks_cases (tree : Tree) (key value : Blob) :
    (tree.checkKey key = .ok () ∧ tree.checkValue value = .ok () ∧ tree.Suits key [value]) ∨
      (∃ e, tree.checkKey key = .ok () ∧ tree.checkValue value = .error e ∧
        ¬ tree.Suits key [value]) ∨
      ∃ e, tree.checkKey key = .error e ∧ ¬ tree.Suits key [value] := by
  unfold checkKey checkValue
  split_ifs with hkey hvalue
  · exact Or.inl ⟨rfl, rfl, hkey, fun v hv => by rwa [List.mem_singleton.mp hv]⟩
  · exact Or.inr (Or.inl ⟨_, rfl, rfl, fun h => hvalue (h.2 value List.mem_cons_self)⟩)
  · exact Or.inr (Or.inr ⟨_, rfl, fun h => hkey h.1⟩)
  · exact Or.inr (Or.inr ⟨_, rfl, fun h => hkey h.1⟩)

theorem oneWay_callsFor (h : tree.HasShape s) (key : Blob) (values : List Blob) :
    (s.drawing none).OneWay key (tree.callsFor s key values) := by
  unfold callsFor
  split_ifs
  · obtain ⟨path, hpath, hcalls⟩ := exists_descent tree.comparator.compare key s none
    refine ⟨path, hpath, hpath.nodup ?_, hpath.length_le, hcalls⟩
    rw [handles_drawing]
    exact h.nodup
  · exact ⟨[], .stop _, List.nodup_nil, Nat.zero_le _, rfl⟩

namespace HasShape

theorem calls_of_find (hs : tree.HasShape s) {found : Traced (Except MapError Handle)}
    (h : tree.find key = .ok found) : found.calls = tree.callsFor s key [] := by
  rw [find] at h
  rcases tree.checkKey_cases key with ⟨hcheck, hsuits⟩ | ⟨e, hcheck, hrejects⟩
  · rw [hcheck] at h
    simp only [hs.search, ok_bind] at h
    rw [callsFor_of_suits hsuits]
    split at h
    · cases h
      rfl
    · cases h
      rfl
  · rw [hcheck] at h
    cases h
    exact (callsFor_of_not_suits hrejects).symm

theorem calls_of_getKeyValue (hs : tree.HasShape s) {got : Traced (Except MapError Entry)}
    (h : tree.getKeyValue key = .ok got) : got.calls = tree.callsFor s key [] := by
  obtain ⟨⟨_ | x, calls⟩, hfind, h⟩ := bind_eq_ok_iff.mp h
  · cases h
    exact hs.calls_of_find hfind
  · obtain ⟨entry, -, heq⟩ := bind_eq_ok_iff.mp h
    cases heq
    exact hs.calls_of_find hfind

theorem calls_of_get (hs : tree.HasShape s) {got : Traced (Except MapError Blob)}
    (h : tree.get key = .ok got) : got.calls = tree.callsFor s key [] := by
  obtain ⟨found, hfound, heq⟩ := bind_eq_ok_iff.mp h
  cases heq
  exact hs.calls_of_getKeyValue hfound

theorem calls_of_contains (hs : tree.HasShape s) {got : Traced Bool}
    (h : tree.contains key = .ok got) : got.calls = tree.callsFor s key [] := by
  obtain ⟨found, hfound, heq⟩ := bind_eq_ok_iff.mp h
  cases heq
  exact hs.calls_of_find hfound

theorem calls_of_getInto (hs : tree.HasShape s) {buffer : Blob}
    {got : Traced (Except MapError Unit × Blob)} (h : tree.getInto key buffer = .ok got) :
    got.calls = tree.callsFor s key [buffer] := by
  rw [getInto] at h
  rcases tree.checks_cases key buffer with
    ⟨hkey, hvalue, hsuits⟩ | ⟨e, hkey, hvalue, hrejects⟩ | ⟨e, hkey, hrejects⟩
  · rw [hkey, hvalue] at h
    obtain ⟨⟨value, calls⟩, hget, h⟩ := bind_eq_ok_iff.mp h
    have hcalls : calls = _ := hs.calls_of_get hget
    rw [callsFor_of_suits hsuits.alone] at hcalls
    rw [callsFor_of_suits hsuits, ← hcalls]
    cases value with
    | error e =>
      cases h
      rfl
    | ok bytes =>
      cases h
      rfl
  · rw [hkey, hvalue] at h
    cases h
    exact (callsFor_of_not_suits hrejects).symm
  · rw [hkey] at h
    cases h
    exact (callsFor_of_not_suits hrejects).symm

theorem calls_of_overwrite (hs : tree.HasShape s) {bytes : Blob} {offset : Nat}
    {written : Traced (Except MapError Blob × Tree)}
    (h : tree.overwrite key bytes offset = .ok written) :
    written.calls = tree.callsFor s key [] := by
  obtain ⟨⟨_ | x, calls⟩, hfind, h⟩ := bind_eq_ok_iff.mp h
  · cases h
    exact hs.calls_of_find hfind
  · obtain ⟨entry, -, h⟩ := bind_eq_ok_iff.mp h
    obtain ⟨after, -, heq⟩ := bind_eq_ok_iff.mp h
    cases heq
    exact hs.calls_of_find hfind

section

variable [Allocator α] {memory : α}

theorem calls_of_remove (hs : tree.HasShape s)
    {removed : Traced (Outcome Tree α (Except MapError Unit))}
    (h : tree.remove memory key = .ok removed) : removed.calls = tree.callsFor s key [] := by
  obtain ⟨extracted, hextract, heq⟩ := bind_eq_ok_iff.mp h
  cases heq
  obtain ⟨⟨_ | x, calls⟩, hfind, h⟩ := bind_eq_ok_iff.mp hextract
  · cases h
    exact hs.calls_of_find hfind
  · obtain ⟨removal, -, heq⟩ := bind_eq_ok_iff.mp h
    cases heq
    exact hs.calls_of_find hfind

theorem calls_of_removeInto (hs : tree.HasShape s) {buffer : Blob}
    {removed : Traced (Outcome Tree α (Except MapError Unit × Blob))}
    (h : tree.removeInto memory key buffer = .ok removed) :
    removed.calls = tree.callsFor s key [buffer] := by
  rw [removeInto] at h
  rcases tree.checks_cases key buffer with
    ⟨hkey, hvalue, hsuits⟩ | ⟨e, hkey, hvalue, hrejects⟩ | ⟨e, hkey, hrejects⟩
  · rw [hkey, hvalue] at h
    obtain ⟨⟨value, calls⟩, hfind, h⟩ := bind_eq_ok_iff.mp h
    have hcalls : calls = _ := hs.calls_of_find hfind
    rw [callsFor_of_suits hsuits.alone] at hcalls
    rw [callsFor_of_suits hsuits, ← hcalls]
    cases value with
    | error e =>
      cases h
      rfl
    | ok x =>
      obtain ⟨removal, -, heq⟩ := bind_eq_ok_iff.mp h
      cases heq
      rfl
  · rw [hkey, hvalue] at h
    cases h
    exact (callsFor_of_not_suits hrejects).symm
  · rw [hkey] at h
    cases h
    exact (callsFor_of_not_suits hrejects).symm

theorem calls_of_insert (hs : tree.HasShape s) {value : Blob}
    {inserted : Traced (Outcome Tree α (Except MapError Handle))}
    (h : tree.insert memory key value = .ok inserted) :
    inserted.calls = tree.callsFor s key [value] := by
  rw [insert] at h
  rcases tree.checks_cases key value with
    ⟨hkey, hvalue, hsuits⟩ | ⟨e, hkey, hvalue, hrejects⟩ | ⟨e, hkey, hrejects⟩
  · rw [hkey, hvalue] at h
    simp only [hs.descend, ok_bind] at h
    rw [callsFor_of_suits hsuits]
    cases harrival : Arrival.ofVisits (s.visits tree.comparator.compare key) with
    | found x =>
      rw [harrival] at h
      cases h
      rfl
    | below parent side =>
      rw [harrival] at h
      exact calls_of_link_repair h
    | nowhere =>
      rw [harrival] at h
      exact calls_of_link_repair h
  · rw [hkey, hvalue] at h
    cases h
    exact (callsFor_of_not_suits hrejects).symm
  · rw [hkey] at h
    cases h
    exact (callsFor_of_not_suits hrejects).symm

end

end HasShape

/-! ### Clones -/

section

variable [Allocator α] {source target : Tree} {t : Shape} {vacant : List Handle} {memory : α}

/-- Where the entries of a tree from some node on are inserted into another that holds no others
than those before, each is compared with some before it. -/
theorem copying_of_copyWithin {pre post : List (Handle × Entry)} {fuel : Nat}
    (hsource : source.HasShape s) (hs : s.inorder = pre ++ post) (htarget : target.Sound t vacant)
    (hsub : t.entries ⊆ pre.map Prod.snd)
    {copied : Traced (Outcome Tree α (Except MapError Unit))}
    (h : copyWithin source fuel (post.head?.map Prod.fst) target memory = .ok copied) :
    (s.drawing none).Copying copied.calls := by
  induction post generalizing pre target t vacant fuel memory copied with
  | nil =>
    rw [List.head?_nil, Option.map_none, copyWithin.eq_def] at h
    cases h
    exact fun call hcall => by cases hcall
  | cons pair post ih =>
    obtain ⟨x, e⟩ := pair
    rw [List.head?_cons, Option.map_some] at h
    cases fuel with
    | zero => cases h
    | succ fuel =>
      have hmem : (x, e) ∈ s.inorder := by simp [hs]
      obtain ⟨node, hnode, rfl⟩ := hsource.exists_node_of_mem hmem
      rw [copyWithin, hnode, ok_bind] at h
      obtain ⟨⟨⟨answer, after, memory'⟩, calls⟩, hinsert, h⟩ := bind_eq_ok_iff.mp h
      have hcalls : calls = _ := htarget.hasShape.calls_of_insert hinsert
      have hentries : s.entries = pre.map Prod.snd ++ node.entry :: post.map Prod.snd := by
        simp [Shape.entries, hs]
      have hfirst : (s.drawing none).Copying calls := by
        intro call hcall
        obtain ⟨path, hpath, -, -, heq⟩ :=
          oneWay_callsFor htarget.hasShape node.entry.key [node.entry.value]
        rw [hcalls, heq] at hcall
        obtain ⟨step, hstep, rfl⟩ := List.mem_map.mp hcall
        have hstored := hpath.mem_entries hstep
        rw [entries_drawing] at hstored
        exact ⟨_, _, _, (entries_drawing s none).trans hentries, rfl, _, hsub hstored, rfl⟩
      cases answer with
      | error cause =>
        cases h
        exact hfirst
      | ok y =>
        obtain ⟨next, hnext, h⟩ := bind_eq_ok_iff.mp h
        obtain ⟨rest, hrest, heq⟩ := bind_eq_ok_iff.mp h
        cases heq
        have hnext' : source.successor x = .ok (post.head?.map Prod.fst) :=
          hsource.neighbor (show s.toward .right = pre ++ (x, node.entry) :: post from hs)
        rw [hnext'] at hnext
        cases hnext
        rcases htarget.insert_cases memory node.entry.key node.entry.value with
          ⟨_, _, heq, -⟩ | ⟨_, _, _, -, heq⟩ |
            ⟨path, z, capacity, m₁, mid, vacant', calls', -, heq, rfl, hinserted⟩
        · rw [hinsert] at heq
          cases heq
        · rw [hinsert] at heq
          cases heq
        · rw [hinsert] at heq
          cases heq
          have hsub' : (withLeaf path y node.entry).entries ⊆
              (pre ++ [(x, node.entry)]).map Prod.snd := by
            intro e' he'
            rw [List.map_append, List.mem_append]
            rcases mem_entries_withLeaf.mp he' with rfl | he'
            · exact Or.inr (by simp)
            · exact Or.inl (hsub he')
          have hrest' := ih (by simp [hs]) hinserted.sound hsub' hrest
          intro call hcall
          exact (List.mem_append.mp hcall).elim (hfirst call) (hrest' call)

/-- The calls of a clone. -/
theorem Sound.copying_of_clone (h : source.Sound s vacant)
    {cloned : Traced (Except MapError Tree × α)} (hclone : source.clone memory = .ok cloned) :
    (s.drawing none).Copying cloned.calls := by
  have hnil : (s.drawing none).Copying [] := fun call hcall => by cases hcall
  rw [clone] at hclone
  split at hclone
  · cases hclone
    exact hnil
  · next made memory' hmade =>
    obtain ⟨start, hstart, hclone⟩ := bind_eq_ok_iff.mp hclone
    obtain ⟨⟨⟨answer, copy, memory''⟩, calls⟩, hcopy, hclone⟩ := bind_eq_ok_iff.mp hclone
    have hfirst : source.first = .ok (s.inorder.head?.map Prod.fst) := h.hasShape.outermost
    rw [hfirst] at hstart
    cases hstart
    have hs : s.inorder = [] ++ s.inorder := rfl
    have hcopying : (s.drawing none).Copying calls :=
      copying_of_copyWithin h.hasShape hs (Sound.ofWithCapacity hmade).1
        (fun e he => by cases he) hcopy
    cases answer with
    | ok =>
      cases hclone
      exact hcopying
    | error e =>
      obtain ⟨last, -, heq⟩ := bind_eq_ok_iff.mp hclone
      cases heq
      exact hcopying

end

end Tree

/-! ### Commands -/

namespace MapCommand

/-- One operation of a map. Commands of several operations are none, and neither is a question to
the comparator itself. -/
def Elementary : MapCommand → Prop
  | .insertMany .. => False
  | .removeMany .. => False
  | .compare .. => False
  | _ => True

/-- The key that a command names, and the values, or buffers for a value, that come with it. -/
def inputs : MapCommand → Option (Blob × List Blob)
  | .insert key value => some (key, [value])
  | .remove key => some (key, [])
  | .removeInto key buffer => some (key, buffer.toList)
  | .getInto key buffer => some (key, buffer.toList)
  | .get key => some (key, [])
  | .getKeyValue key => some (key, [])
  | .overwrite key _ _ => some (key, [])
  | .contains key => some (key, [])
  | _ => none

/-- The calls that a command to a map may make: those for its key on one way down from the root, and
none if a length is wrong; or none at all, if it names no key. -/
def Abides (command : MapCommand) (tree : Tree) (drawing : Drawing) (calls : List Call) : Prop :=
  match command.inputs with
  | some (key, values) => drawing.OneWay key calls ∧ (¬ tree.Suits key values → calls = [])
  | none => calls = []

/-- Calls that a command may make are about keys of the right length. -/
theorem Abides.fitting {command : MapCommand} {tree : Tree} {drawing : Drawing}
    {calls : List Call} (h : command.Abides tree drawing calls)
    (hlength : ∀ e ∈ drawing.entries, e.key.length = tree.keySize) :
    drawing.Fitting tree.keySize calls := by
  rw [Abides] at h
  cases hinputs : command.inputs with
  | none =>
    rw [hinputs] at h
    exact h ▸ drawing.fitting_nil tree.keySize
  | some inputs =>
    rw [hinputs] at h
    refine h.1.fitting (fun hne => ?_) hlength
    by_contra hkey
    exact hne (h.2 fun hsuits => hkey hsuits.1)

variable {α : Type} [Metered α] {tree : Tree} {s : Shape} {memory : α}
  {done : Traced (Outcome Tree α MapAnswer)}

/-- A command that names a key abides if its calls are those for the key. -/
private theorem abides_of_callsFor {command : MapCommand} {key : Blob}
    {values checked : List Blob} (hs : tree.HasShape s)
    (hinputs : command.inputs = some (key, values))
    (hchecked : tree.Suits key checked → tree.Suits key values) {calls : List Call}
    (hcalls : calls = tree.callsFor s key checked) :
    command.Abides tree (s.drawing none) calls := by
  rw [Abides, hinputs, hcalls]
  exact ⟨Tree.oneWay_callsFor hs key checked, fun hrejects =>
    Tree.callsFor_of_not_suits fun h => hrejects (hchecked h)⟩

/-- A buffer that is passed in is checked. -/
private theorem suits_buffer {key : Blob} {buffer : Option Blob}
    (h : tree.Suits key [buffer.getD tree.freshBuffer]) : tree.Suits key buffer.toList := by
  cases buffer with
  | none => exact h.alone
  | some bytes => exact h

/-- The calls of a command to a map. -/
theorem abides {command : MapCommand} (hc : command.Elementary) (hs : tree.HasShape s)
    (h : command.run tree memory = .ok done) :
    command.Abides tree (s.drawing none) done.calls := by
  cases command with
  | insertMany keys value => exact hc.elim
  | removeMany keys => exact hc.elim
  | compare first second => exact hc.elim
  | insert key value =>
    obtain ⟨entered, henter, heq⟩ := bind_eq_ok_iff.mp h
    cases heq
    obtain ⟨inserted, hinsert, heq⟩ := bind_eq_ok_iff.mp henter
    cases heq
    exact abides_of_callsFor hs rfl id (hs.calls_of_insert hinsert)
  | remove key =>
    obtain ⟨removed, hremove, heq⟩ := bind_eq_ok_iff.mp h
    cases heq
    exact abides_of_callsFor hs rfl id (hs.calls_of_remove hremove)
  | removeInto key buffer =>
    obtain ⟨removed, hremove, heq⟩ := bind_eq_ok_iff.mp h
    cases heq
    exact abides_of_callsFor hs rfl suits_buffer (hs.calls_of_removeInto hremove)
  | getInto key buffer =>
    obtain ⟨got, hget, heq⟩ := bind_eq_ok_iff.mp h
    cases heq
    exact abides_of_callsFor hs rfl suits_buffer (hs.calls_of_getInto hget)
  | get key =>
    obtain ⟨got, hget, heq⟩ := bind_eq_ok_iff.mp h
    cases heq
    exact abides_of_callsFor hs rfl id (hs.calls_of_get hget)
  | getKeyValue key =>
    obtain ⟨got, hget, heq⟩ := bind_eq_ok_iff.mp h
    cases heq
    exact abides_of_callsFor hs rfl id (hs.calls_of_getKeyValue hget)
  | overwrite key bytes offset =>
    obtain ⟨written, hoverwrite, heq⟩ := bind_eq_ok_iff.mp h
    cases heq
    exact abides_of_callsFor hs rfl id (hs.calls_of_overwrite hoverwrite)
  | contains key =>
    obtain ⟨got, hget, heq⟩ := bind_eq_ok_iff.mp h
    cases heq
    exact abides_of_callsFor hs rfl id (hs.calls_of_contains hget)
  | walk start commands =>
    obtain ⟨cursor, -, h⟩ := bind_eq_ok_iff.mp h
    obtain ⟨answers, -, heq⟩ := bind_eq_ok_iff.mp h
    cases heq
    rfl
  | edit start commands =>
    obtain ⟨cursor, -, h⟩ := bind_eq_ok_iff.mp h
    obtain ⟨edited, -, heq⟩ := bind_eq_ok_iff.mp h
    cases heq
    rfl
  | clear | outermost side | describe form | entries | iterate view commands =>
    obtain ⟨result, -, heq⟩ := bind_eq_ok_iff.mp h
    cases heq
    rfl
  | figures | sizes | canPerform required | usage =>
    cases h
    rfl

end MapCommand

end MeteredMap
