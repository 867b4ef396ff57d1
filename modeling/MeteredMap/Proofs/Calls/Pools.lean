import MeteredMap.Proofs.Accounting
import MeteredMap.Proofs.Calls.Contract

/-!
# Comparator calls of a pool

Whatever is done with the maps of a pool, and whatever functions they compare their keys with, a
command makes no other comparator calls than those that it may make. That the calls it reports are
all that it makes is stated by a second pool that resembles the first: the same maps with other
comparisons. As long as the comparison that is asked answers the reported calls as the first one
does, the second pool cannot be told from the first.

## Main definitions

* `MeteredMap.Pool.Resembles` : two pools whose maps differ in their comparisons only.
* `MeteredMap.Pool.Abides` : the calls that a command to a pool may make.
* `MeteredMap.Pool.install` : what a constructor made, put into a place.

## Main results

* `MeteredMap.Pool.Resembles.step` : one command to two pools that resemble each other.
* `MeteredMap.Pool.calls_abide` : the calls after every run.
-/

namespace MeteredMap

/-- The same tree but for its comparison of keys. -/
def Tree.Resembles (tree other : Tree) : Prop :=
  ∃ g, other = tree.under g

namespace PoolCommand

variable {n : Nat}

/-- The command is one operation of a map or of two. -/
def Elementary : PoolCommand n → Prop
  | .toMap _ command => command.Elementary
  | _ => True

/-- The calls that a command may make of the comparator of the map in its place: a command to the
map those of the map, a clone those of copying, and all others none. -/
def Abides (command : PoolCommand n) (tree : Tree) (drawing : Drawing) (calls : List Call) : Prop :=
  match command with
  | .toMap _ command => command.Abides tree drawing calls
  | .clone .. => drawing.Copying calls
  | _ => calls = []

/-- Calls that a command may make are about keys of the right length. -/
theorem Abides.fitting {command : PoolCommand n} {tree : Tree} {drawing : Drawing}
    {calls : List Call} (h : command.Abides tree drawing calls)
    (hlength : ∀ e ∈ drawing.entries, e.key.length = tree.keySize) :
    drawing.Fitting tree.keySize calls := by
  cases command with
  | toMap place command => exact MapCommand.Abides.fitting h hlength
  | clone source target => exact Drawing.Copying.fitting h hlength
  | create | drop | setLimit | compare => exact h ▸ drawing.fitting_nil tree.keySize

end PoolCommand

namespace Pool

variable {α : Type} {n : Nat}

/-- The calls that a command to a pool may make: none if its place is vacant, and else those that it
may make of the map in its place, about keys of the length that is right for this map. -/
def Abides (pool : Pool α n) (command : PoolCommand n) (calls : List Call) : Prop :=
  match pool.places.get command.place with
  | none => calls = []
  | some tree =>
    ∃ drawing, tree.drawing = .ok drawing ∧ tree.height = .ok drawing.height ∧
      drawing.Fitting tree.keySize calls ∧ command.Abides tree drawing calls

/-- Puts what a constructor made into a place. If it made nothing, the place stays as it was. -/
def install [Allocator α] (pool : Pool α n) (place : Place n) (made : Except MapError Tree) :
    Except Fault (Except MapError Unit × Pool α n) := do
  match made with
  | .error e => return (.error e, pool)
  | .ok tree => return (.ok (), ← pool.put place (some tree))

section

variable [Allocator α] (pool : Pool α n) (comparator : Comparator) (place : Place n)
  (keySize valueSize : Nat)

theorem create_none : pool.create comparator place keySize valueSize none =
    pool.install place (Tree.create keySize valueSize comparator) :=
  rfl

theorem create_some (capacity : Nat) :
    pool.create comparator place keySize valueSize (some capacity) =
      Pool.install
        ⟨(Tree.withCapacity keySize valueSize capacity comparator pool.memory).2, pool.places⟩ place
        (Tree.withCapacity keySize valueSize capacity comparator pool.memory).1 :=
  rfl

end

/-- Two pools in the same memory, in whose places are the same maps but for their comparisons. -/
structure Resembles (pool other : Pool α n) : Prop where
  memory : other.memory = pool.memory
  places (place : Place n) :
    Option.Rel Tree.Resembles (pool.places.get place) (other.places.get place)

namespace Resembles

variable {pool other after : Pool α n} {place : Place n} {new new' : Option Tree}

/-- Maps that resemble each other are put into the same place. -/
theorem set (h : pool.Resembles other) (memory : α) (place : Place n)
    (hnew : Option.Rel Tree.Resembles new new') :
    Resembles ⟨memory, pool.places.set place new place.isLt⟩
      ⟨memory, other.places.set place new' place.isLt⟩ := by
  refine ⟨rfl, fun p => ?_⟩
  have hset : ∀ (xs : Vector (Option Tree) n) (x : Option Tree),
      (xs.set place x).get p = if place = p then x else xs.get p := by
    intro xs x
    rw [← getElem_places, ← getElem_places, Fin.getElem_fin, Vector.getElem_set]
    simp only [Fin.ext_iff, Fin.getElem_fin]
  rw [hset, hset]
  split_ifs
  · exact hnew
  · exact h.places p

/-- The memory has moved on. -/
theorem inMemory (h : pool.Resembles other) (memory : α) :
    Resembles { pool with memory } { other with memory } :=
  ⟨rfl, h.places⟩

/-- A place is vacant in both pools, or taken by maps that differ in their comparisons only. -/
theorem cases_place (h : pool.Resembles other) (place : Place n) :
    (pool.places.get place = none ∧ other.places.get place = none) ∨
      ∃ tree g, pool.places.get place = some tree ∧
        other.places.get place = some (tree.under g) := by
  have hplace := h.places place
  generalize pool.places.get place = here at hplace ⊢
  generalize other.places.get place = there at hplace ⊢
  cases hplace with
  | none => exact Or.inl ⟨rfl, rfl⟩
  | @some tree _ hrel =>
    obtain ⟨g, rfl⟩ := hrel
    exact Or.inr ⟨tree, g, rfl, rfl⟩

theorem put [Allocator α] (h : pool.Resembles other)
    (hnew : Option.Rel Tree.Resembles new new') (heq : pool.put place new = .ok after) :
    ∃ after', other.put place new' = .ok after' ∧ after.Resembles after' := by
  rw [Pool.put, getElem_places] at heq
  rw [Pool.put, getElem_places, h.memory]
  rcases h.cases_place place with ⟨hold, hold'⟩ | ⟨old, g, hold, hold'⟩
  · rw [hold] at heq
    rw [hold']
    cases heq
    exact ⟨_, rfl, h.set pool.memory place hnew⟩
  · rw [hold] at heq
    rw [hold']
    obtain ⟨memory', hdispose, heq⟩ := bind_eq_ok_iff.mp heq
    cases heq
    refine ⟨⟨memory', other.places.set place new'⟩, ?_, h.set memory' place hnew⟩
    simp only [Tree.dispose_under, hdispose, ok_bind, pure_eq_ok]

/-- What a constructor made is put into the same place, under every comparison. -/
theorem install [Allocator α] (h : pool.Resembles other) (g : Blob → Blob → Ordering)
    {made : Except MapError Tree} {result : Except MapError Unit}
    (heq : pool.install place made = .ok (result, after)) :
    ∃ after', other.install place (made.map (·.under g)) = .ok (result, after') ∧
      after.Resembles after' := by
  cases made with
  | error e =>
    cases heq
    exact ⟨other, rfl, h⟩
  | ok tree =>
    obtain ⟨mid, hmid, heq⟩ := bind_eq_ok_iff.mp heq
    cases heq
    obtain ⟨after', hafter, hres⟩ := h.put (.some ⟨g, rfl⟩) hmid
    refine ⟨after', ?_, hres⟩
    simp only [Except.map, Pool.install, hafter, ok_bind, pure_eq_ok]

/-- A map is made in the same way under every comparison. -/
theorem create [Allocator α] (h : pool.Resembles other) (g : Blob → Blob → Ordering)
    {comparator : Comparator} {keySize valueSize : Nat} {capacity : Option Nat}
    {result : Except MapError Unit}
    (heq : pool.create comparator place keySize valueSize capacity = .ok (result, after)) :
    ∃ after', other.create { comparator with compare := g } place keySize valueSize capacity =
      .ok (result, after') ∧ after.Resembles after' := by
  cases capacity with
  | none =>
    have hmake : Tree.create keySize valueSize { comparator with compare := g } =
        (Tree.create keySize valueSize comparator).map (·.under g) := by
      unfold Tree.create
      cases Tree.layouts keySize valueSize <;> rfl
    rw [create_none] at heq ⊢
    rw [hmake]
    exact h.install g heq
  | some capacity =>
    have hmake := (Tree.withCapacity_under (g := g) keySize valueSize capacity comparator
      pool.memory).1
    rw [create_some] at heq ⊢
    rw [h.memory, hmake]
    exact (h.inMemory _).install g heq

section

variable [Metered α] {comparator : Comparator} {command : PoolCommand n}

/-- Two pools that resemble each other are answered alike and still resemble each other afterwards,
if the comparison that is asked answers the reported calls alike. -/
theorem perform (h : pool.Resembles other) (g : Blob → Blob → Ordering)
    {answer : Traced PoolAnswer} (heq : pool.perform comparator command = .ok (answer, after))
    (hagree : ∀ tree ∈ pool.places.get command.place, ∀ tree' ∈ other.places.get command.place,
      Call.Agree tree.comparator.compare tree'.comparator.compare answer.calls) :
    ∃ after', other.perform { comparator with compare := g } command = .ok (answer, after') ∧
      after.Resembles after' := by
  cases command with
  | create place keySize valueSize capacity =>
    obtain ⟨⟨result, mid⟩, hcreate, heq⟩ := bind_eq_ok_iff.mp heq
    cases heq
    obtain ⟨after', hafter, hres⟩ := h.create g hcreate
    exact ⟨after', by rw [Pool.perform, hafter]; rfl, hres⟩
  | drop place =>
    obtain ⟨mid, hput, heq⟩ := bind_eq_ok_iff.mp heq
    cases heq
    obtain ⟨after', hafter, hres⟩ := h.put .none hput
    exact ⟨after', by rw [Pool.perform, hafter]; rfl, hres⟩
  | setLimit place change =>
    cases heq
    refine ⟨{ other with memory := Metered.setLimit pool.memory change }, ?_, h.inMemory _⟩
    rw [Pool.perform, h.memory]
    rfl
  | clone source target =>
    simp only [Pool.perform, getElem_places] at heq ⊢
    rcases h.cases_place source with ⟨hold, hold'⟩ | ⟨tree, f, hold, hold'⟩
    · rw [hold] at heq
      rw [hold']
      cases heq
      exact ⟨other, rfl, h⟩
    · rw [hold] at heq
      rw [hold', h.memory]
      obtain ⟨⟨⟨made, memory'⟩, calls⟩, hclone, heq⟩ := bind_eq_ok_iff.mp heq
      have hclone' : Call.Agree tree.comparator.compare f calls →
          (tree.under f).clone pool.memory = _ := Tree.clone_under hclone
      dsimp only
      cases made with
      | error e =>
        cases heq
        refine ⟨{ other with memory := memory' }, ?_, h.inMemory memory'⟩
        rw [hclone' (hagree tree hold (tree.under f) hold')]
        rfl
      | ok copy =>
        obtain ⟨mid, hput, heq⟩ := bind_eq_ok_iff.mp heq
        cases heq
        obtain ⟨after', hafter, hres⟩ := (h.inMemory memory').put (.some ⟨f, rfl⟩) hput
        refine ⟨after', ?_, hres⟩
        rw [hclone' (hagree tree hold (tree.under f) hold'), ok_bind]
        simp only [Except.map, hafter, ok_bind, pure_eq_ok]
  | compare first second =>
    simp only [Pool.perform, getElem_places] at heq ⊢
    rcases h.cases_place first with ⟨hfirst, hfirst'⟩ | ⟨tree, f, hfirst, hfirst'⟩
    · rw [hfirst] at heq
      rw [hfirst']
      cases heq
      exact ⟨other, rfl, h⟩
    · rcases h.cases_place second with ⟨hsecond, hsecond'⟩ | ⟨tree', f', hsecond, hsecond'⟩
      · rw [hfirst, hsecond] at heq
        rw [hfirst', hsecond']
        cases heq
        exact ⟨other, rfl, h⟩
      · rw [hfirst, hsecond] at heq
        rw [hfirst', hsecond']
        obtain ⟨b, hsame, heq⟩ := bind_eq_ok_iff.mp heq
        cases heq
        refine ⟨other, ?_, h⟩
        simp only [Tree.sameEntries_under, hsame, ok_bind, pure_eq_ok]
  | toMap place command =>
    simp only [Pool.perform, getElem_places] at heq ⊢
    rcases h.cases_place place with ⟨hold, hold'⟩ | ⟨tree, f, hold, hold'⟩
    · rw [hold] at heq
      rw [hold']
      cases heq
      exact ⟨other, rfl, h⟩
    · rw [hold] at heq
      rw [hold', h.memory]
      have hagree := hagree tree hold (tree.under f) hold'
      obtain ⟨⟨⟨result, changed, memory'⟩, calls⟩, hrun, heq⟩ := bind_eq_ok_iff.mp heq
      cases heq
      have hrun' : command.run (tree.under f) pool.memory = _ :=
        MapCommand.run_under hrun hagree
      refine ⟨⟨memory', other.places.set place (some (changed.under f))⟩, ?_,
        h.set memory' place (.some ⟨f, rfl⟩)⟩
      dsimp only
      rw [hrun']
      rfl

/-- The same with what can be seen afterwards. -/
theorem step (h : pool.Resembles other) (g : Blob → Blob → Ordering) {report : PoolReport}
    (heq : pool.step comparator command = .ok (report, after))
    (hagree : ∀ tree ∈ pool.places.get command.place, ∀ tree' ∈ other.places.get command.place,
      Call.Agree tree.comparator.compare tree'.comparator.compare report.calls) :
    ∃ after', other.step { comparator with compare := g } command = .ok (report, after') ∧
      after.Resembles after' := by
  obtain ⟨⟨⟨answer, calls⟩, mid⟩, hperform, heq⟩ := bind_eq_ok_iff.mp heq
  obtain ⟨extent, hextent, heq⟩ := bind_eq_ok_iff.mp heq
  cases heq
  obtain ⟨after', hafter, hres⟩ := h.perform g hperform hagree
  have hextent' : after'.places[command.place].mapM Tree.extent = .ok extent := by
    rw [← hextent, getElem_places, getElem_places]
    rcases hres.cases_place command.place with ⟨hplace, hplace'⟩ | ⟨tree, f, hplace, hplace'⟩
    · rw [hplace, hplace']
    · have hsame : (tree.under f).extent = tree.extent := by
        unfold Tree.extent
        rw [Tree.height_under]
        rfl
      rw [hplace, hplace', Option.mapM_some, Option.mapM_some, hsame]
  refine ⟨after', ?_, hres⟩
  rw [Pool.step, hafter, ok_bind]
  simp only [hextent', hres.memory, ok_bind, pure_eq_ok]

end

end Resembles

/-! ### The calls of a command -/

section

variable [Metered α] {pool after : Pool α n} {comparator : Comparator} {command : PoolCommand n}
  {answer : Traced PoolAnswer}

/-- A command whose place is vacant asks nothing. -/
theorem calls_of_vacant (hplace : pool.places.get command.place = none)
    (heq : pool.perform comparator command = .ok (answer, after)) : answer.calls = [] := by
  cases command with
  | create place keySize valueSize capacity =>
    obtain ⟨made, -, heq⟩ := bind_eq_ok_iff.mp heq
    cases heq
    rfl
  | drop place =>
    obtain ⟨mid, -, heq⟩ := bind_eq_ok_iff.mp heq
    cases heq
    rfl
  | setLimit place change =>
    cases heq
    rfl
  | clone place target | compare place second | toMap place command =>
    have hvacant : pool.places[place] = none := hplace
    rw [perform, hvacant] at heq
    cases heq
    rfl

/-- A command whose place is taken by a sound map makes the calls that it may make of it. -/
theorem abides_of_sound {tree : Tree} {s : Shape} {vacant : List Handle} (h : tree.Sound s vacant)
    (hplace : pool.places.get command.place = some tree) (hc : command.Elementary)
    (heq : pool.perform comparator command = .ok (answer, after)) :
    command.Abides tree (s.drawing none) answer.calls := by
  cases command with
  | create place keySize valueSize capacity =>
    obtain ⟨made, -, heq⟩ := bind_eq_ok_iff.mp heq
    cases heq
    rfl
  | drop place =>
    obtain ⟨mid, -, heq⟩ := bind_eq_ok_iff.mp heq
    cases heq
    rfl
  | setLimit place change =>
    cases heq
    rfl
  | clone place target =>
    have htaken : pool.places[place] = some tree := hplace
    rw [perform, htaken] at heq
    obtain ⟨⟨⟨made, memory'⟩, calls⟩, hclone, heq⟩ := bind_eq_ok_iff.mp heq
    have hcopying : (s.drawing none).Copying calls := h.copying_of_clone hclone
    cases made with
    | error e =>
      cases heq
      exact hcopying
    | ok copy =>
      obtain ⟨mid, -, heq⟩ := bind_eq_ok_iff.mp heq
      cases heq
      exact hcopying
  | compare place second =>
    have htaken : pool.places[place] = some tree := hplace
    rw [perform, htaken] at heq
    cases hsecond : pool.places[second] with
    | none =>
      rw [hsecond] at heq
      cases heq
      rfl
    | some other =>
      rw [hsecond] at heq
      obtain ⟨b, -, heq⟩ := bind_eq_ok_iff.mp heq
      cases heq
      rfl
  | toMap place command =>
    have htaken : pool.places[place] = some tree := hplace
    rw [perform, htaken] at heq
    obtain ⟨⟨⟨result, changed, memory'⟩, calls⟩, hrun, heq⟩ := bind_eq_ok_iff.mp heq
    cases heq
    exact MapCommand.abides hc h.hasShape hrun

/-- A command to a pool of sound maps makes the calls that it may make. -/
theorem AllSound.abides (h : pool.AllSound) (hc : command.Elementary)
    (heq : pool.perform comparator command = .ok (answer, after)) :
    pool.Abides command answer.calls := by
  rw [Abides]
  cases hplace : pool.places.get command.place with
  | none => exact calls_of_vacant hplace heq
  | some tree =>
    obtain ⟨s, vacant, hs⟩ := h tree (mem_maps hplace)
    have habides := abides_of_sound hs hplace hc heq
    refine ⟨s.drawing none, hs.hasShape.drawing, ?_, habides.fitting ?_, habides⟩
    · rw [Shape.height_drawing, hs.hasShape.height]
    · rw [Shape.entries_drawing]
      exact hs.length_key

/-- Every command to a pool of sound maps ends at one, and makes the calls that it may make. -/
theorem AllSound.exists_step (h : pool.AllSound) (comparator : Comparator)
    (command : PoolCommand n) :
    ∃ report after, pool.step comparator command = .ok (report, after) ∧ after.AllSound ∧
      (command.Elementary → pool.Abides command report.calls) := by
  obtain ⟨answer, after, heq, hafter⟩ := h.exists_perform comparator command
  obtain ⟨extent, hstep⟩ := hafter.exists_report heq
  exact ⟨_, after, hstep, hafter, fun hc => h.abides hc heq⟩

end

/-- After every run, whatever functions the maps compare their keys with, every operation makes only
the comparator calls that it may make: on two keys of the right length of which the second is
stored; for a key on one way down from the root, on each node at most once, and not at all if a
length is wrong; for a clone on each entry and entries before it; and otherwise none. It makes no
others than those it reports: if all comparisons are replaced, so that the one that is asked answers
the reported calls as before, then it is answered as before and leaves the same maps. -/
theorem calls_abide [Metered α] (memory : α) (commands : List (Comparator × PoolCommand n)) :
    ∃ reports pool,
      (Transcript.run (fun command => step command.1 command.2) commands
        (vacant memory)).finished = .ok (reports, pool) ∧
      ∀ (comparator : Comparator) (command : PoolCommand n), command.Elementary →
        ∃ report after, pool.step comparator command = .ok (report, after) ∧
          pool.Abides command report.calls ∧
          ∀ (other : Pool α n) (g : Blob → Blob → Ordering), pool.Resembles other →
            (∀ tree ∈ pool.places.get command.place, ∀ tree' ∈ other.places.get command.place,
              Call.Agree tree.comparator.compare tree'.comparator.compare report.calls) →
            ∃ after', other.step { comparator with compare := g } command = .ok (report, after') ∧
              after.Resembles after' := by
  have hvacant : (vacant memory : Pool α n).AllSound := by
    intro tree htree
    rw [maps_vacant] at htree
    cases htree
  have hkeeps : ∀ (command : Comparator × PoolCommand n) (pool : Pool α n), pool.AllSound →
      ∃ report after, pool.step command.1 command.2 = .ok (report, after) ∧ after.AllSound := by
    intro command pool h
    obtain ⟨report, after, heq, hafter, -⟩ := h.exists_step command.1 command.2
    exact ⟨report, after, heq, hafter⟩
  obtain ⟨reports, pool, heq, hpool⟩ := Transcript.finished_of_preserves hkeeps commands hvacant
  refine ⟨reports, pool, heq, fun comparator command hc => ?_⟩
  obtain ⟨report, after, hstep, -, habides⟩ := hpool.exists_step comparator command
  exact ⟨report, after, hstep, habides hc, fun other g hres hagree => hres.step g hstep hagree⟩

/-- Three insertions into a map of two-byte keys, and a clone of it. -/
def callSession : List (Comparator × PoolCommand 2) :=
  [(.lexicographic, .create front 2 1 none), (.lexicographic, .toMap front (.insert [1, 1] [0])),
    (.lexicographic, .toMap front (.insert [2, 2] [0])),
    (.lexicographic, .toMap front (.insert [3, 3] [0])), (.lexicographic, .clone front back)]

/-- Dictionary order for one key, and all other keys equal. -/
def orderOf (key first second : Blob) : Ordering :=
  if first = key then Blob.lexCompare first second else .eq

/-- A pool with other comparisons. -/
def under (pool : Pool α n) (compare : Blob → Blob → Ordering) : Pool α n :=
  { pool with places := pool.places.map (Option.map (·.under compare)) }

theorem places_under (pool : Pool α n) (compare : Blob → Blob → Ordering) (place : Place n) :
    (pool.under compare).places.get place = (pool.places.get place).map (·.under compare) := by
  change (pool.under compare).places[place] = pool.places[place].map (·.under compare)
  simp [under]

theorem resembles_under (pool : Pool α n) (compare : Blob → Blob → Ordering) :
    pool.Resembles (pool.under compare) := by
  refine ⟨rfl, fun place => ?_⟩
  rw [places_under]
  cases pool.places.get place with
  | none => exact .none
  | some tree => exact .some ⟨compare, rfl⟩

/-- A fourth insertion meets the root and its right child, and needs no answers but these two. -/
theorem calls_abide_sample :
    ∃ reports pool report after,
      (Transcript.run (fun command => step command.1 command.2) callSession
        (vacant (Heap.mk none))).finished = .ok (reports, pool) ∧
      pool.step .lexicographic (.toMap 0 (.insert [2, 9] [0])) = .ok (report, after) ∧
      report.calls = [⟨[2, 9], [2, 2]⟩, ⟨[2, 9], [3, 3]⟩] ∧
      pool.Abides (.toMap 0 (.insert [2, 9] [0])) report.calls ∧
      ∃ after', (pool.under (orderOf [2, 9])).step
          { Comparator.lexicographic with compare := fun _ _ => .lt }
          (.toMap 0 (.insert [2, 9] [0])) = .ok (report, after') ∧ after.Resembles after' := by
  obtain ⟨reports, pool, hrun, hcalls⟩ := calls_abide (Heap.mk none) callSession
  obtain ⟨report, after, hstep, habides, hothers⟩ :=
    hcalls .lexicographic (.toMap 0 (.insert [2, 9] [0])) trivial
  have hfacts : (Transcript.run (fun command => step command.1 command.2) callSession
      (vacant (Heap.mk none))).finished.map (fun p =>
        ((p.2.step .lexicographic (.toMap 0 (.insert [2, 9] [0]))).map (·.1.calls),
          (p.2.places.get 0).map fun tree =>
            (tree.comparator.compare [2, 9] [2, 2], tree.comparator.compare [2, 9] [3, 3]))) =
      .ok (.ok [⟨[2, 9], [2, 2]⟩, ⟨[2, 9], [3, 3]⟩], some (.gt, .lt)) := rfl
  rw [hrun] at hfacts
  obtain ⟨hmade, hanswers⟩ := Prod.mk.inj (Except.ok.inj hfacts)
  rw [hstep] at hmade
  have hreport : report.calls = _ := Except.ok.inj hmade
  refine ⟨reports, pool, report, after, hrun, hstep, hreport, habides,
    hothers (pool.under (orderOf [2, 9])) (fun _ _ => .lt) (resembles_under pool _) ?_⟩
  intro tree htree tree' htree'
  have hplace : pool.places.get 0 = some tree := htree
  have hplace' : (pool.under (orderOf [2, 9])).places.get 0 = some tree' := htree'
  rw [places_under, hplace] at hplace'
  cases hplace'
  rw [hplace] at hanswers
  obtain ⟨hfirst, hsecond⟩ := Prod.mk.inj (Option.some.inj hanswers)
  intro call hcall
  rw [hreport] at hcall
  rcases List.mem_cons.mp hcall with rfl | hcall
  · exact hfirst.symm
  · obtain rfl := List.mem_singleton.mp hcall
    exact hsecond.symm

end Pool

end MeteredMap
