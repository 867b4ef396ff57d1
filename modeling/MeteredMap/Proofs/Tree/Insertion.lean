import MeteredMap.Proofs.Tree.Provision
import MeteredMap.Proofs.Tree.RepairInsert
import MeteredMap.Proofs.Tree.Walks

/-!
# Insertion into a sound tree

All that an insertion into a sound tree can do. It is refused for the length of the key, for the
length of the value, for a key that counts as equal, or by the memory, and then leaves the tree as
it is; or a new leaf is put where the search for its key ended, and the colour rules are restored.

## Main definitions

* `MeteredMap.Shape.withLeaf` : a shape with a new leaf, its colours restored.
* `MeteredMap.Tree.Inserted` : what a successful insertion leaves behind.

## Main results

* `MeteredMap.Tree.Sound.insert_of_found`, `MeteredMap.Tree.Sound.insert_of_refused`,
  `MeteredMap.Tree.Sound.insert_of_granted` : an insertion of an entry of the right lengths.
* `MeteredMap.Tree.Sound.insert_at_place` : the last two, with the cause of a refusal.
* `MeteredMap.Tree.Sound.insert_cases` : all outcomes together.
* `MeteredMap.Tree.Sound.exists_of_insert` : how an insertion came to succeed.
-/

namespace MeteredMap

/-! ### A new leaf -/

namespace Shape

/-- A red node without children. -/
def leaf (x : Handle) (e : Entry) : Shape :=
  node .red x e absent absent

/-- The shape with a new leaf in a place, the colour rules restored. -/
def withLeaf (path : List Frame) (x : Handle) (e : Entry) : Shape :=
  (repairInsert path (leaf x e)).recolor .black

variable {path : List Frame} {x : Handle} {e : Entry} {s : Shape}

@[simp] theorem color_recolor_black : (s.recolor .black).color = .black := by
  cases s <;> rfl

@[simp] theorem inorder_withLeaf :
    (withLeaf path x e).inorder = pathBefore path ++ (x, e) :: pathAfter path := by
  rw [withLeaf, inorder_recolor, inorder_repairInsert, inorder_plug]
  simp [leaf, inorder]

theorem Fits.withLeaf (hp : Fits path .black 0) : ∃ m, (withLeaf path x e).Balanced m := by
  have hleaf : (leaf x e).Balanced 0 := .red rfl rfl .absent .absent
  obtain ⟨m, hm⟩ := hleaf.repairInsert rfl hp
  exact hm.recolor_black

theorem entries_withLeaf : (withLeaf path x e).entries =
    (pathBefore path).map Prod.snd ++ e :: (pathAfter path).map Prod.snd := by
  simp [entries]

theorem entries_plug_absent : (plug path absent).entries =
    (pathBefore path).map Prod.snd ++ (pathAfter path).map Prod.snd := by
  simp [entries, inorder_plug, inorder]

theorem size_withLeaf : (withLeaf path x e).size = (plug path absent).size + 1 := by
  simp only [size, inorder_withLeaf, inorder_plug, inorder, List.length_append, List.length_cons,
    List.length_nil]
  omega

theorem mem_entries_withLeaf {e' : Entry} :
    e' ∈ (withLeaf path x e).entries ↔ e' = e ∨ e' ∈ (plug path absent).entries := by
  simp only [entries_withLeaf, entries_plug_absent, List.mem_append, List.mem_cons]
  tauto

end Shape

namespace Tree

open Shape

variable {α : Type} [Allocator α] {tree : Tree} {memory memory' : α} {key value : Blob}
  {path : List Frame} {s : Shape} {x : Handle} {e : Entry} {c : Color}
  {vacant rest : List Handle} {nodes : Arena Node}

/-! ### Linking -/

/-- The link at the end of a search led to a new leaf. -/
theorem HasShape.attach (h : tree.HasShape (plug path absent))
    (hplaced : tree.nodes.Placed vacant x (Node.leaf e (above path)) nodes rest) :
    ∃ after, Tree.attach { tree with nodes } (arrivalAt path absent) x = .ok after ∧
      Relinked { tree with nodes } after ∧
      after.HasShape (plug path (leaf x e)) := by
  have hfresh : x ∉ (plug path absent).handles := by
    rw [h.mem_handles_iff, hplaced.get?_old]
    exact Bool.false_ne_true
  have hnew : (plug path (leaf x e)).handles.Perm
      (x :: (plug path absent).handles) :=
    (handles_plug_perm _ _).trans ((handles_plug_perm path absent).symm.cons x)
  have hcovers : ∀ {after : Tree}, Relinked { tree with nodes } after →
      ∀ y, (after.nodes.get? y).isSome → y ∈ (plug path (leaf x e)).handles := by
    intro after hk y hy
    rw [hnew.mem_iff, List.mem_cons]
    by_cases hyx : y = x
    · exact Or.inl hyx
    · refine Or.inr (h.covers y ?_)
      rw [← hplaced.get?_ne y hyx]
      exact (hk.nodes.isSome_get? y).mp hy
  have hnodup : (plug path (leaf x e)).handles.Nodup :=
    hnew.nodup_iff.mpr (List.nodup_cons.mpr ⟨hfresh, h.nodup⟩)
  have hpath : PathLinked ({ tree with nodes } : Tree).nodes.get? path none := by
    refine (linked_plug_iff.mp h.linked).2.congr fun y hy => hplaced.get?_ne y ?_
    rintro rfl
    exact hfresh (mem_handles_plug.mpr (Or.inr hy))
  cases path with
  | nil =>
    refine ⟨{ tree with nodes, root := some x }, rfl, .setRoot _ _, rfl, ?_, hnodup,
      hcovers (.setRoot _ _)⟩
    exact ⟨hplaced.get?_self, trivial, trivial⟩
  | cons f path =>
    have hn : (pathHandles (f :: path)).Nodup := by
      have hall := nodup_plug_iff.mp h.nodup
      rwa [handles_absent, List.nil_append] at hall
    obtain ⟨after, heq, hk, hroot, hlinked, hframe⟩ := setChild_linked hpath hn (some x)
    have hfx : x ≠ f.handle := by
      rintro rfl
      exact hfresh (mem_handles_plug.mpr (Or.inr List.mem_cons_self))
    refine ⟨after, heq, hk, ?_, ?_, hnodup, hcovers hk⟩
    · have hbefore : tree.root = (plug (f :: path) absent).root := h.root_eq
      rw [root_plug] at hbefore ⊢
      exact hroot.trans hbefore
    · refine linked_plug_iff.mpr ⟨⟨?_, trivial, trivial⟩, hlinked⟩
      rw [hframe x hfx]
      exact hplaced.get?_self

/-! ### The operation -/

/-- What a successful insertion leaves behind. -/
structure Inserted (before : Tree) (vacant : List Handle) (path : List Frame) (x : Handle)
    (e : Entry) (capacity : Nat) (after : Tree) (rest : List Handle) : Prop where
  sound : after.Sound (withLeaf path x e) rest
  akin : Akin before after
  /-- The slot is the one freed last or, if none is vacant, the next one that was never used. -/
  slot : vacant = x :: rest ∨ vacant = [] ∧ rest = [] ∧ x.index = before.nodes.slots.size
  notMem : x ∉ (plug path absent).handles
  capacity_eq : after.nodes.capacity = capacity

/-- The slots that are vacant then were vacant before, in the same order. -/
theorem Inserted.suffix {after : Tree} {capacity : Nat}
    (h : tree.Inserted vacant path x e capacity after rest) : rest <:+ vacant := by
  rcases h.slot with rfl | ⟨rfl, rfl, -⟩
  · exact List.suffix_cons x rest
  · exact List.suffix_refl []

/-- An insertion without its length checks, once the search ended at an absent child. -/
private theorem Sound.link_repair (h : tree.Sound (plug path absent) vacant)
    (he : tree.Admits e)
    (hplace : locate tree.comparator.compare e.key [] (plug path absent) = (path, absent))
    {capacity : Nat} (hle : tree.nodes.capacity ≤ capacity)
    (hroom : Arena.HasRoom { tree.nodes with capacity })
    (hprovision : tree.provision memory = ⟨.ok (), { tree.nodes with capacity }, memory'⟩) :
    ∃ x linked after rest,
      tree.link memory e (arrivalAt path absent) = .ok ⟨.ok x, linked, memory'⟩ ∧
      linked.HasShape (plug path (leaf x e)) ∧ linked.repairInsert x = .ok after ∧
      tree.Inserted vacant path x e capacity after rest := by
  obtain ⟨x, nodes, rest, hinsert, hplaced⟩ :=
    (h.wellFormed.withCapacity hle).insert_eq hroom memory' (Node.leaf e (above path))
  have hgrown : HasShape { tree with nodes := { tree.nodes with capacity } } (plug path absent) :=
    ⟨h.hasShape.root_eq, h.hasShape.linked, h.hasShape.nodup, h.hasShape.covers⟩
  obtain ⟨linked, hattach, hk₁, hlinked⟩ := hgrown.attach hplaced
  obtain ⟨n, hn, hfits⟩ := h.unplug
  obtain rfl : n = 0 := balanced_absent_iff.mp hn
  have hlength : path.length ≤ linked.nodes.slots.size := by
    have hle' := h.hasShape.length_path_lt
    have hsize : linked.nodes.slots.size = nodes.slots.size := hk₁.nodes.size
    have hgrow : tree.nodes.slots.size ≤ nodes.slots.size := hplaced.size_le
    rw [walkBound] at hle'
    omega
  obtain ⟨after, hrepair, hk₂, hafter⟩ := hlinked.repairInsert rfl rfl hfits hlength
  have hk : Relinked { tree with nodes } after := hk₁.trans hk₂
  refine ⟨x, linked, after, rest, ?_, hlinked, hrepair, ?_⟩
  · rw [link_eq, hprovision]
    dsimp only
    rw [parent?_arrivalAt, hinsert, ok_bind]
    dsimp only
    rw [hattach]
    rfl
  · have hakin : Akin tree after := ⟨hk.keyLayout, hk.valueLayout, hk.comparator⟩
    refine ⟨h.ofAkin hakin hafter color_recolor_black hfits.withLeaf
      (hplaced.wellFormed.kept hk.nodes) ?_ ?_ ?_ fun ho => ?_, hakin, hplaced.slot, ?_, ?_⟩
    · rw [← withLeaf, size_withLeaf, ← h.live_eq, hk.nodes.live]
      exact hplaced.live
    · rw [hk.nodes.slotSize]
      exact hplaced.slotSize
    · intro e' he'
      rcases mem_entries_withLeaf.mp he' with rfl | he'
      · exact he
      · exact h.admits e' he'
    · have hcut := cut_of_locate ho he.1 h.length_key (h.ordered ho) hplace
      have hlength := h.length_key
      have hascending := h.ordered ho
      rw [entries_plug_absent] at hlength hascending
      rw [← withLeaf, entries_withLeaf]
      exact hascending.inserted ho hlength he.1 hcut
    · rw [h.hasShape.mem_handles_iff]
      have hfresh : tree.nodes.get? x = none := hplaced.get?_old
      rw [hfresh]
      exact Bool.false_ne_true
    · rw [hk.nodes.capacity]
      exact hplaced.capacity

/-- An insertion of an entry of the right lengths starts with the search for its key. -/
private theorem insert_eq (h : tree.HasShape s) (hkey : key.length = tree.keySize)
    (hvalue : value.length = tree.valueSize) :
    tree.insert memory key value =
      match arrivalAt (locate tree.comparator.compare key [] s).1
          (locate tree.comparator.compare key [] s).2 with
      | .found _ =>
        .ok ⟨⟨.error .keyExists, tree, memory⟩,
          Visit.calls key (s.visits tree.comparator.compare key)⟩
      | arrival => do
        let linked ← tree.link memory ⟨key, value⟩ arrival
        match linked.answer with
        | .error _ => return ⟨linked, Visit.calls key (s.visits tree.comparator.compare key)⟩
        | .ok handle =>
          let tree' ← linked.state.repairInsert handle
          return ⟨⟨.ok handle, tree', linked.memory⟩,
            Visit.calls key (s.visits tree.comparator.compare key)⟩ := by
  rw [Tree.insert, checkKey, if_pos hkey, checkValue, if_pos hvalue]
  dsimp only
  rw [h.descend, ok_bind, arrival_visits]
  rfl

/-- An insertion whose leaf is linked where the search ended, and whose repair ends. -/
private theorem insert_eq_of_link {linked after : Tree} (h : tree.HasShape s)
    (hkey : key.length = tree.keySize) (hvalue : value.length = tree.valueSize)
    (hplace : locate tree.comparator.compare key [] s = (path, absent))
    (hlink : tree.link memory ⟨key, value⟩ (arrivalAt path absent) =
      .ok ⟨.ok x, linked, memory'⟩)
    (hrepair : linked.repairInsert x = .ok after) :
    tree.insert memory key value =
      .ok ⟨⟨.ok x, after, memory'⟩, Visit.calls key (s.visits tree.comparator.compare key)⟩ := by
  rw [insert_eq h hkey hvalue, hplace]
  cases path <;> simp only [arrivalAt] at hlink <;>
    simp only [arrivalAt, hlink, ok_bind, hrepair, pure_eq_ok]

theorem insert_of_badKey (tree : Tree) (memory : α) (value : Blob)
    (hkey : key.length ≠ tree.keySize) :
    tree.insert memory key value =
      .ok ⟨⟨.error (.keySize tree.keySize key.length), tree, memory⟩, []⟩ := by
  rw [Tree.insert, checkKey, if_neg hkey]
  rfl

theorem insert_of_badValue (tree : Tree) (memory : α) (hkey : key.length = tree.keySize)
    (hvalue : value.length ≠ tree.valueSize) :
    tree.insert memory key value =
      .ok ⟨⟨.error (.valueSize tree.valueSize value.length), tree, memory⟩, []⟩ := by
  rw [Tree.insert, checkKey, if_pos hkey, checkValue, if_neg hvalue]
  rfl

namespace Sound

/-- A key that counts as equal to a stored one is refused. -/
theorem insert_of_found (h : tree.Sound s vacant) (memory : α) (hkey : key.length = tree.keySize)
    (hvalue : value.length = tree.valueSize)
    (hfound : (locate tree.comparator.compare key [] s).2 ≠ absent) :
    tree.insert memory key value =
      .ok ⟨⟨.error .keyExists, tree, memory⟩,
        Visit.calls key (s.visits tree.comparator.compare key)⟩ := by
  rw [insert_eq h.hasShape hkey hvalue]
  obtain ⟨x, e, l, r, hfound⟩ := (absent_or_branch .left _).resolve_left hfound
  rw [hfound]
  rfl

/-- An insertion that the memory refuses leaves the tree as it is. -/
theorem insert_of_refused (h : tree.Sound (plug path absent) vacant)
    (hkey : key.length = tree.keySize) (hvalue : value.length = tree.valueSize)
    (hplace : locate tree.comparator.compare key [] (plug path absent) = (path, absent))
    {cause : MapError}
    (hprovision : tree.provision memory = ⟨.error cause, tree.nodes, memory'⟩) :
    tree.insert memory key value =
      .ok ⟨⟨.error cause, tree, memory'⟩,
        Visit.calls key ((plug path absent).visits tree.comparator.compare key)⟩ := by
  have hlink : ∀ arrival, tree.link memory ⟨key, value⟩ arrival =
      .ok ⟨.error cause, tree, memory'⟩ := by
    intro arrival
    rw [link_eq, hprovision]
  rw [insert_eq h.hasShape hkey hvalue, hplace]
  cases path <;> simp only [arrivalAt, hlink, ok_bind, pure_eq_ok]

/-- An insertion that is granted its memory puts a leaf where the search ended. -/
theorem insert_of_granted (h : tree.Sound (plug path absent) vacant)
    (hkey : key.length = tree.keySize) (hvalue : value.length = tree.valueSize)
    (hplace : locate tree.comparator.compare key [] (plug path absent) = (path, absent))
    {capacity : Nat} (hle : tree.nodes.capacity ≤ capacity)
    (hroom : Arena.HasRoom { tree.nodes with capacity })
    (hprovision : tree.provision memory = ⟨.ok (), { tree.nodes with capacity }, memory'⟩) :
    ∃ x after rest,
      tree.insert memory key value =
        .ok ⟨⟨.ok x, after, memory'⟩,
          Visit.calls key ((plug path absent).visits tree.comparator.compare key)⟩ ∧
      tree.Inserted vacant path x ⟨key, value⟩ capacity after rest := by
  have hadmits : tree.Admits ⟨key, value⟩ := ⟨hkey, hvalue⟩
  obtain ⟨x, linked, after, rest, hlink, -, hrepair, hinserted⟩ :=
    h.link_repair hadmits hplace hle hroom hprovision
  exact ⟨x, after, rest, insert_eq_of_link h.hasShape hkey hvalue hplace hlink hrepair, hinserted⟩

/-- An insertion whose search ends at an absent child fails for lack of memory or of handles, or
puts a leaf there. -/
theorem insert_at_place (h : tree.Sound (plug path absent) vacant) (memory : α)
    (hkey : key.length = tree.keySize) (hvalue : value.length = tree.valueSize)
    (hplace : locate tree.comparator.compare key [] (plug path absent) = (path, absent)) :
    (∃ cause memory', tree.insert memory key value =
        .ok ⟨⟨.error cause, tree, memory'⟩,
          Visit.calls key ((plug path absent).visits tree.comparator.compare key)⟩ ∧
        tree.refusal memory = some cause) ∨
      ∃ x capacity after memory' rest, tree.insert memory key value =
          .ok ⟨⟨.ok x, after, memory'⟩,
            Visit.calls key ((plug path absent).visits tree.comparator.compare key)⟩ ∧
        tree.refusal memory = none ∧
        tree.Inserted vacant path x ⟨key, value⟩ capacity after rest := by
  rcases h.provision memory with ⟨cause, memory', hprov⟩ | ⟨capacity, memory', hprov, hle, hroom⟩
  · exact Or.inl ⟨cause, memory', h.insert_of_refused hkey hvalue hplace hprov,
      h.refusal_of_provision_error hprov⟩
  · obtain ⟨x, after, rest, heq, hinserted⟩ :=
      h.insert_of_granted hkey hvalue hplace hle hroom hprov
    exact Or.inr ⟨x, capacity, after, memory', rest, heq, h.refusal_of_provision_ok hprov,
      hinserted⟩

/-- All that an insertion can do. -/
theorem insert_cases (h : tree.Sound s vacant) (memory : α) (key value : Blob) :
    (∃ e calls, tree.insert memory key value = .ok ⟨⟨.error e, tree, memory⟩, calls⟩ ∧
        ¬ e.OfShortage ∧ (tree.Admits ⟨key, value⟩ →
          e = .keyExists ∧ ∃ e' ∈ s.entries, tree.comparator.compare key e'.key = .eq)) ∨
      (∃ e memory' calls, tree.provision memory = ⟨.error e, tree.nodes, memory'⟩ ∧
        tree.insert memory key value = .ok ⟨⟨.error e, tree, memory'⟩, calls⟩) ∨
      ∃ path x capacity memory' after rest calls,
        tree.provision memory = ⟨.ok (), { tree.nodes with capacity }, memory'⟩ ∧
        tree.insert memory key value = .ok ⟨⟨.ok x, after, memory'⟩, calls⟩ ∧
        s = plug path absent ∧ tree.Inserted vacant path x ⟨key, value⟩ capacity after rest := by
  by_cases hkey : key.length = tree.keySize
  · by_cases hvalue : value.length = tree.valueSize
    · by_cases hfound : (locate tree.comparator.compare key [] s).2 = absent
      · obtain ⟨path, hpath⟩ : ∃ path, locate tree.comparator.compare key [] s = (path, absent) :=
          ⟨_, Prod.ext rfl hfound⟩
        obtain rfl : plug path absent = s := by
          have hplug := plug_locate tree.comparator.compare key [] s
          rwa [hpath] at hplug
        rcases h.provision memory with ⟨e, memory', hprov⟩ | ⟨capacity, memory', hprov, hle, hroom⟩
        · exact Or.inr (Or.inl ⟨e, memory', _, hprov, h.insert_of_refused hkey hvalue hpath hprov⟩)
        · obtain ⟨x, after, rest, heq, hinserted⟩ :=
            h.insert_of_granted hkey hvalue hpath hle hroom hprov
          exact Or.inr (Or.inr ⟨path, x, capacity, memory', after, rest, _, hprov, heq, rfl,
            hinserted⟩)
      · exact Or.inl ⟨_, _, h.insert_of_found memory hkey hvalue hfound, id,
          fun _ => ⟨rfl, exists_equal_of_locate hfound⟩⟩
    · exact Or.inl ⟨_, _, insert_of_badValue tree memory hkey hvalue, id,
        fun he => absurd he.2 hvalue⟩
  · exact Or.inl ⟨_, _, insert_of_badKey tree memory value hkey, id,
      fun he => absurd he.1 hkey⟩

/-- How an insertion came to succeed: its lengths are right, the search for its key ended at an
absent child, the memory granted all, and a leaf was linked there before the colour rules were
restored. -/
theorem exists_of_insert {after : Tree} {calls : List Call} (h : tree.Sound s vacant)
    (hinsert : tree.insert memory key value = .ok ⟨⟨.ok x, after, memory'⟩, calls⟩) :
    ∃ path capacity linked rest, s = plug path absent ∧ tree.Admits ⟨key, value⟩ ∧
      locate tree.comparator.compare key [] s = (path, absent) ∧
      calls = Visit.calls key (s.visits tree.comparator.compare key) ∧
      tree.provision memory = ⟨.ok (), { tree.nodes with capacity }, memory'⟩ ∧
      tree.link memory ⟨key, value⟩ (arrivalAt path absent) = .ok ⟨.ok x, linked, memory'⟩ ∧
      linked.HasShape (plug path (leaf x ⟨key, value⟩)) ∧ linked.repairInsert x = .ok after ∧
      tree.Inserted vacant path x ⟨key, value⟩ capacity after rest := by
  by_cases hkey : key.length = tree.keySize
  case neg =>
    rw [insert_of_badKey tree memory value hkey] at hinsert
    cases hinsert
  by_cases hvalue : value.length = tree.valueSize
  case neg =>
    rw [insert_of_badValue tree memory hkey hvalue] at hinsert
    cases hinsert
  by_cases hfound : (locate tree.comparator.compare key [] s).2 = absent
  case neg =>
    rw [h.insert_of_found memory hkey hvalue hfound] at hinsert
    cases hinsert
  obtain ⟨path, hpath⟩ : ∃ path, locate tree.comparator.compare key [] s = (path, absent) :=
    ⟨_, Prod.ext rfl hfound⟩
  obtain rfl : plug path absent = s := by
    have hplug := plug_locate tree.comparator.compare key [] s
    rwa [hpath] at hplug
  rcases h.provision memory with ⟨e, memory'', hprov⟩ | ⟨capacity, memory'', hprov, hle, hroom⟩
  · rw [h.insert_of_refused hkey hvalue hpath hprov] at hinsert
    cases hinsert
  · have hadmits : tree.Admits ⟨key, value⟩ := ⟨hkey, hvalue⟩
    obtain ⟨y, linked, last, rest, hlink, hlinked, hrepair, hinserted⟩ :=
      h.link_repair hadmits hpath hle hroom hprov
    have heq := insert_eq_of_link h.hasShape hkey hvalue hpath hlink hrepair
    rw [hinsert] at heq
    cases heq
    exact ⟨path, capacity, linked, rest, rfl, hadmits, hpath, rfl, hprov, hlink, hlinked,
      hrepair, hinserted⟩

end Sound

end Tree

end MeteredMap
