import MeteredMap.Proofs.Shape.Order
import MeteredMap.Tree.Search

/-!
# Searches in a shape

A search for a key goes down from the root of a shape as the comparator says. It ends at a node
whose key counts as equal, or at an absent child, which is the place for a new leaf. Nothing is
required of the comparator here.

## Main definitions

* `MeteredMap.Shape.visits` : the nodes met on the way down, with the comparator's answers.
* `MeteredMap.Shape.locate` : the place where the search ends, and what is there.
* `MeteredMap.Shape.visitOf` : a frame as a search meets it.

## Main results

* `MeteredMap.Shape.plug_locate` : the place lies in the shape.
* `MeteredMap.Shape.arrival_visits` : the visits tell where the search ends.
* `MeteredMap.Shape.visits_of_locate` : a search that ends at an absent child went down through the
  frames around it.
-/

namespace MeteredMap

namespace Shape

/-- The nodes that a search for `key` meets, with the comparator's answers. -/
def visits (compare : Blob → Blob → Ordering) (key : Blob) : Shape → List Visit
  | absent => []
  | node _ x e left right =>
    match compare key e.key with
    | .lt => ⟨x, e.key, .lt⟩ :: left.visits compare key
    | .eq => [⟨x, e.key, .eq⟩]
    | .gt => ⟨x, e.key, .gt⟩ :: right.visits compare key

/-- The place where a search for `key` ends that came to a shape by a path, and what is there. -/
def locate (compare : Blob → Blob → Ordering) (key : Blob) :
    List Frame → Shape → List Frame × Shape
  | path, absent => (path, absent)
  | path, node c x e left right =>
    match compare key e.key with
    | .lt => locate compare key (⟨.left, c, x, e, right⟩ :: path) left
    | .eq => (path, node c x e left right)
    | .gt => locate compare key (⟨.right, c, x, e, left⟩ :: path) right

/-- The answer of the comparator that sends a search to a side. -/
def answerToward : Side → Ordering
  | .left => .lt
  | .right => .gt

/-- The node of a frame as a search meets it that goes down through it. -/
def visitOf (frame : Frame) : Visit :=
  ⟨frame.handle, frame.entry.key, answerToward frame.side⟩

/-- Where a search ended, told from its place and from what is there. -/
def arrivalAt : List Frame → Shape → Arrival
  | _, node _ x .. => .found x
  | f :: _, absent => .below f.handle f.side
  | [], absent => .nowhere

variable {compare : Blob → Blob → Ordering} {key : Blob} {path place : List Frame} {s : Shape}

/-- The place where a search ends lies in the shape. -/
theorem plug_locate (compare : Blob → Blob → Ordering) (key : Blob) (path : List Frame)
    (s : Shape) :
    plug (locate compare key path s).1 (locate compare key path s).2 = plug path s := by
  induction s generalizing path with
  | absent => rfl
  | node c x e l r ihl ihr =>
    rw [locate]
    cases compare key e.key with
    | lt => exact ihl _
    | eq => rfl
    | gt => exact ihr _

/-- What is found at the end of a search counts as equal. -/
theorem compare_of_locate {c : Color} {x : Handle} {e : Entry} {l r : Shape}
    (h : (locate compare key path s).2 = node c x e l r) : compare key e.key = .eq := by
  induction s generalizing path with
  | absent => cases h
  | node c' y ey l' r' ihl ihr =>
    rw [locate] at h
    cases hcompare : compare key ey.key with
    | lt =>
      rw [hcompare] at h
      exact ihl h
    | eq =>
      rw [hcompare] at h
      cases h
      exact hcompare
    | gt =>
      rw [hcompare] at h
      exact ihr h

/-- A search that does not end at an absent child ends at a stored entry that counts as equal. -/
theorem exists_equal_of_locate (h : (locate compare key [] s).2 ≠ absent) :
    ∃ e ∈ s.entries, compare key e.key = .eq := by
  cases hfound : (locate compare key [] s).2 with
  | absent => exact absurd hfound h
  | node c x e l r =>
    refine ⟨e, ?_, compare_of_locate hfound⟩
    have hplug := plug_locate compare key [] s
    rw [hfound] at hplug
    have hmem : (x, e) ∈ (plug [] s).inorder := by
      rw [← hplug, inorder_plug]
      simp [inorder]
    exact List.mem_map.mpr ⟨(x, e), hmem, rfl⟩

/-- The visits of a search that ends at an absent child are the frames around it, from the root
down. -/
theorem visits_of_locate (h : locate compare key path s = (place, absent)) :
    place.reverse.map visitOf = path.reverse.map visitOf ++ s.visits compare key := by
  -- Every step down moves one visit from the way ahead to the frames that were passed.
  induction s generalizing path with
  | absent =>
    obtain ⟨rfl, -⟩ := Prod.mk.inj h
    exact (List.append_nil _).symm
  | node c x e l r ihl ihr =>
    rw [locate] at h
    rw [visits]
    cases hcompare : compare key e.key with
    | lt =>
      rw [hcompare] at h
      rw [ihl h, List.reverse_cons, List.map_append, List.append_assoc]
      rfl
    | eq =>
      rw [hcompare] at h
      cases h
    | gt =>
      rw [hcompare] at h
      rw [ihr h, List.reverse_cons, List.map_append, List.append_assoc]
      rfl

/-! ### The end of the visits -/

private theorem ofVisits_cons_cons (v w : Visit) (vs : List Visit) :
    Arrival.ofVisits (v :: w :: vs) = Arrival.ofVisits (w :: vs) := by
  rw [Arrival.ofVisits, Arrival.ofVisits, List.getLast?_cons_cons]

/-- The visits of a search that goes on tell its end as if they were all. -/
private theorem ofVisits_cons_visits {f : Frame} {v : Visit} (hhandle : v.handle = f.handle)
    (hanswer : v.answer = answerToward f.side) (path : List Frame) :
    Arrival.ofVisits (v :: s.visits compare key) =
      arrivalAt (locate compare key (f :: path) s).1 (locate compare key (f :: path) s).2 := by
  induction s generalizing f v path with
  | absent =>
    rw [visits, locate, arrivalAt, Arrival.ofVisits, ← hhandle]
    simp only [List.getLast?_singleton, hanswer]
    cases f.side <;> rfl
  | node c x e l r ihl ihr =>
    rw [visits, locate]
    cases compare key e.key with
    | lt =>
      rw [ofVisits_cons_cons]
      exact ihl rfl rfl (f :: path)
    | eq => rfl
    | gt =>
      rw [ofVisits_cons_cons]
      exact ihr rfl rfl (f :: path)

/-- The visits of a search tell where it ends. -/
theorem arrival_visits (compare : Blob → Blob → Ordering) (key : Blob) (s : Shape) :
    Arrival.ofVisits (s.visits compare key) =
      arrivalAt (locate compare key [] s).1 (locate compare key [] s).2 := by
  cases s with
  | absent => rfl
  | node c x e l r =>
    rw [visits, locate]
    cases compare key e.key with
    | lt => exact ofVisits_cons_visits rfl rfl []
    | eq => rfl
    | gt => exact ofVisits_cons_visits rfl rfl []

/-- The node found by a search. -/
theorem found?_arrivalAt (path : List Frame) (s : Shape) : (arrivalAt path s).found? = s.root := by
  cases s with
  | absent => cases path <;> rfl
  | node => rfl

/-- A node that is found is there. -/
theorem root_locate_mem {x : Handle} (h : (locate compare key [] s).2.root = some x) :
    x ∈ s.handles := by
  have hplug : plug (locate compare key [] s).1 (locate compare key [] s).2 = s :=
    plug_locate compare key [] s
  rw [← hplug]
  exact mem_handles_plug.mpr (Or.inl (root_mem_handles h))

/-- A leaf put where a search ended has the nearest frame above it. -/
theorem parent?_arrivalAt (path : List Frame) : (arrivalAt path absent).parent? = above path := by
  cases path <;> rfl

end Shape

end MeteredMap
