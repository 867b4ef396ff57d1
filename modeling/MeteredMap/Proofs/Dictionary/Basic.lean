import Mathlib.Data.List.Sort
import MeteredMap.Error
import MeteredMap.Proofs.Shape.Ascending
import MeteredMap.Proofs.Steps

/-!
# Dictionaries

What a map is to its callers: a list of entries in ascending order of their keys, with commands
that look for one entry or change one. A dictionary knows nothing of memory, so it is told with
each command why there is no room for one more entry, if there is none.

## Main definitions

* `MeteredMap.Dictionary` : a list of entries, the lengths of keys and values, and the order.
* `MeteredMap.Dictionary.Command`, `MeteredMap.Dictionary.Answer` : the operations of a map.
* `MeteredMap.Dictionary.step` : a command carried out.
* `MeteredMap.Dictionary.replay` : commands carried out one after the other.

## Main results

* `MeteredMap.Cut.find?_append`, `MeteredMap.Cut.find?_cons` : what is found in ascending entries.
* `MeteredMap.Cut.orderedInsert_append`, `MeteredMap.Cut.eraseP_cons`, `MeteredMap.Cut.map_cons` :
  how they change.
-/

namespace MeteredMap

/-! ### Cuts -/

namespace Cut

variable {compare : Blob → Blob → Ordering} {key : Blob} {e : Entry} {pre post : List Entry}

theorem ne_eq_of_mem (h : Cut compare key pre post) {d : Entry} (hd : d ∈ pre ++ post) :
    compare key d.key ≠ .eq := by
  rcases List.mem_append.mp hd with hd | hd
  · simp [h.before d hd]
  · simp [h.after d hd]

theorem find?_append (h : Cut compare key pre post) :
    (pre ++ post).find? (compare key ·.key = .eq) = none := by
  rw [List.find?_eq_none]
  intro d hd
  simpa using h.ne_eq_of_mem hd

theorem find?_cons (h : Cut compare key pre post) (he : compare key e.key = .eq) :
    (pre ++ e :: post).find? (compare key ·.key = .eq) = some e := by
  have hpre : pre.find? (compare key ·.key = .eq) = none := by
    rw [List.find?_eq_none]
    intro d hd
    simp [h.before d hd]
  rw [List.find?_append, hpre, Option.none_or, List.find?_cons_of_pos (by simpa using he)]

theorem orderedInsert_append (h : Cut compare e.key pre post) :
    (pre ++ post).orderedInsert (fun a b => compare a.key b.key = .lt) e = pre ++ e :: post := by
  induction pre with
  | nil =>
    cases post with
    | nil => rfl
    | cons d post => exact List.orderedInsert_cons_of_le _ post (h.after d List.mem_cons_self)
  | cons d pre ih =>
    have hd : ¬ compare e.key d.key = .lt := by simp [h.before d List.mem_cons_self]
    have hpre : Cut compare e.key pre post :=
      ⟨fun d' hd' => h.before d' (List.mem_cons_of_mem d hd'), h.after⟩
    rw [List.cons_append, List.orderedInsert_cons, if_neg hd, ih hpre]
    rfl

theorem eraseP_cons (h : Cut compare key pre post) (he : compare key e.key = .eq) :
    (pre ++ e :: post).eraseP (compare key ·.key = .eq) = pre ++ post := by
  have hpre : ∀ d ∈ pre, ¬ (decide (compare key d.key = .eq)) = true := by
    intro d hd
    simp [h.before d hd]
  rw [List.eraseP_append_right _ hpre, List.eraseP_cons_of_pos (by simpa using he)]

theorem map_cons (h : Cut compare key pre post) (he : compare key e.key = .eq)
    (change : Entry → Entry) :
    (pre ++ e :: post).map (fun d => if compare key d.key = .eq then change d else d) =
      pre ++ change e :: post := by
  have hother : ∀ ds : List Entry, ds ⊆ pre ++ post →
      ds.map (fun d => if compare key d.key = .eq then change d else d) = ds := by
    intro ds hds
    refine (List.map_congr_left fun d hd => ?_).trans (List.map_id ds)
    exact if_neg (h.ne_eq_of_mem (hds hd))
  rw [List.map_append, List.map_cons, hother pre (List.subset_append_left pre post),
    hother post (List.subset_append_right pre post), if_pos he]

end Cut

/-! ### Commands -/

/-- A list of entries, with the lengths of keys and values and the comparison of keys. -/
structure Dictionary where
  keySize : Nat
  valueSize : Nat
  compare : Blob → Blob → Ordering
  entries : List Entry

namespace Dictionary

/-- An operation of a map. -/
inductive Command where
  | insert (key value : Blob)
  | remove (key : Blob)
  /-- Remove an entry, its value going to a buffer. -/
  | removeInto (key buffer : Blob)
  | get (key : Blob)
  /-- Copy a value to a buffer. -/
  | getInto (key buffer : Blob)
  /-- Read a value, then write over it from an offset on. -/
  | overwrite (key bytes : Blob) (offset : Nat)
  | getKeyValue (key : Blob)
  | contains (key : Blob)
  | outermost (side : Side)
  | size
  | isEmpty
  | clear
  /-- Iterate over all entries. -/
  | entries

/-- What an operation of a map answers. -/
inductive Answer where
  | done
  | result (result : Except MapError Unit)
  /-- A result and the buffer as it is afterwards. -/
  | buffer (result : Except MapError Unit) (buffer : Blob)
  | value (result : Except MapError Blob)
  | found (result : Except MapError Entry)
  | entry (entry : Option Entry)
  | flag (b : Bool)
  | count (n : Nat)
  | entries (entries : List Entry)

/-- One step of a run as a caller sees it. -/
structure Record where
  /-- Why there was no room for one more entry before the step, if there was none. -/
  refusal : Option MapError
  answer : Answer
  /-- What an iteration shows after the step. -/
  entries : List Entry

variable (dictionary : Dictionary)

/-- Refuses a key of the wrong length. -/
def checkKey (key : Blob) : Except MapError Unit :=
  if key.length = dictionary.keySize then .ok ()
  else .error (.keySize dictionary.keySize key.length)

/-- Refuses a value, or a buffer for one, of the wrong length. -/
def checkValue (value : Blob) : Except MapError Unit :=
  if value.length = dictionary.valueSize then .ok ()
  else .error (.valueSize dictionary.valueSize value.length)

/-- The entry whose key counts as equal to `key`. -/
def lookup (key : Blob) : Except MapError Entry := do
  dictionary.checkKey key
  match dictionary.entries.find? (dictionary.compare key ·.key = .eq) with
  | some e => return e
  | none => throw .keyNotFound

/-- The entry whose key counts as equal to `key`, for a buffer that its value has to fit. -/
def lookupInto (key buffer : Blob) : Except MapError Entry := do
  dictionary.checkKey key
  dictionary.checkValue buffer
  dictionary.lookup key

/-- The dictionary with one more entry, in front of those that come after it. -/
def insert (refusal : Option MapError) (e : Entry) : Except MapError Dictionary := do
  dictionary.checkKey e.key
  dictionary.checkValue e.value
  match dictionary.entries.find? (dictionary.compare e.key ·.key = .eq) with
  | some _ => throw .keyExists
  | none =>
    match refusal with
    | some cause => throw cause
    | none =>
      return { dictionary with
        entries :=
          dictionary.entries.orderedInsert (fun a b => dictionary.compare a.key b.key = .lt) e }

/-- The dictionary without the entry whose key counts as equal to `key`. -/
def erase (key : Blob) : Dictionary :=
  { dictionary with entries := dictionary.entries.eraseP (dictionary.compare key ·.key = .eq) }

/-- The dictionary with the value of the entry written over whose key counts as equal to `key`. -/
def overwrite (key bytes : Blob) (offset : Nat) : Dictionary :=
  { dictionary with
    entries := dictionary.entries.map fun e =>
      if dictionary.compare key e.key = .eq then
        { e with value := e.value.overwrite bytes offset }
      else e }

/-- Carries out a command. -/
def step (refusal : Option MapError) : Command → Answer × Dictionary
  | .insert key value =>
    match dictionary.insert refusal ⟨key, value⟩ with
    | .error e => (.result (.error e), dictionary)
    | .ok after => (.result (.ok ()), after)
  | .remove key =>
    match dictionary.lookup key with
    | .error e => (.result (.error e), dictionary)
    | .ok _ => (.result (.ok ()), dictionary.erase key)
  | .removeInto key buffer =>
    match dictionary.lookupInto key buffer with
    | .error e => (.buffer (.error e) buffer, dictionary)
    | .ok e => (.buffer (.ok ()) e.value, dictionary.erase key)
  | .get key => (.value ((dictionary.lookup key).map Entry.value), dictionary)
  | .getInto key buffer =>
    match dictionary.lookupInto key buffer with
    | .error e => (.buffer (.error e) buffer, dictionary)
    | .ok e => (.buffer (.ok ()) e.value, dictionary)
  | .overwrite key bytes offset =>
    match dictionary.lookup key with
    | .error e => (.value (.error e), dictionary)
    | .ok e => (.value (.ok e.value), dictionary.overwrite key bytes offset)
  | .getKeyValue key => (.found (dictionary.lookup key), dictionary)
  | .contains key => (.flag (dictionary.lookup key).toBool, dictionary)
  | .outermost .left => (.entry dictionary.entries.head?, dictionary)
  | .outermost .right => (.entry dictionary.entries.getLast?, dictionary)
  | .size => (.count dictionary.entries.length, dictionary)
  | .isEmpty => (.flag dictionary.entries.isEmpty, dictionary)
  | .clear => (.done, { dictionary with entries := [] })
  | .entries => (.entries dictionary.entries, dictionary)

/-- Carries out commands one after the other, each with the reason why there is no room for one
more entry, if there is one. -/
def replay : List Command → List (Option MapError) → Dictionary → List Record
  | [], _, _ => []
  | command :: commands, refusals, dictionary =>
    let refusal := refusals.headD none
    let (answer, dictionary) := dictionary.step refusal command
    ⟨refusal, answer, dictionary.entries⟩ :: replay commands refusals.tail dictionary

variable {dictionary : Dictionary} {key : Blob} {d e : Entry} {cause : MapError}

theorem lookup_of_find? (hkey : dictionary.checkKey key = .ok ())
    (hfind : dictionary.entries.find? (dictionary.compare key ·.key = .eq) = some e) :
    dictionary.lookup key = .ok e := by
  rw [lookup, hkey, ok_bind, hfind]
  rfl

theorem lookup_of_find?_eq_none (hkey : dictionary.checkKey key = .ok ())
    (hfind : dictionary.entries.find? (dictionary.compare key ·.key = .eq) = none) :
    dictionary.lookup key = .error .keyNotFound := by
  rw [lookup, hkey, ok_bind, hfind]
  rfl

theorem insert_of_find? (refusal : Option MapError) (hkey : dictionary.checkKey e.key = .ok ())
    (hvalue : dictionary.checkValue e.value = .ok ())
    (hfind : dictionary.entries.find? (dictionary.compare e.key ·.key = .eq) = some d) :
    dictionary.insert refusal e = .error .keyExists := by
  rw [insert.eq_def, hkey, ok_bind, hvalue, ok_bind, hfind]
  rfl

theorem insert_of_refusal (hkey : dictionary.checkKey e.key = .ok ())
    (hvalue : dictionary.checkValue e.value = .ok ())
    (hfind : dictionary.entries.find? (dictionary.compare e.key ·.key = .eq) = none) :
    dictionary.insert (some cause) e = .error cause := by
  rw [insert.eq_def, hkey, ok_bind, hvalue, ok_bind, hfind]
  rfl

theorem insert_of_cut {pre post : List Entry} (hkey : dictionary.checkKey e.key = .ok ())
    (hvalue : dictionary.checkValue e.value = .ok ())
    (hcut : Cut dictionary.compare e.key pre post) (hentries : dictionary.entries = pre ++ post) :
    dictionary.insert none e = .ok { dictionary with entries := pre ++ e :: post } := by
  have hfind := hcut.find?_append
  rw [← hentries] at hfind
  rw [insert.eq_def, hkey, ok_bind, hvalue, ok_bind, hfind, hentries, hcut.orderedInsert_append]
  rfl

end Dictionary

end MeteredMap
