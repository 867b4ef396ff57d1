import MeteredMap.Proofs.Shape.Ascending
import MeteredMap.Proofs.Shape.Balance
import MeteredMap.Proofs.Tree.Links

/-!
# Sound trees

The invariant that every operation of a map keeps, whatever its comparator answers and whatever the
memory refuses. A tree is *sound* with a shape and a list of vacant slots if its links spell out the
shape, the shape obeys the colour rules, its slots are chained as the list says and occupied by the
shape alone, and all of its keys and values have the lengths that the tree was made for. If the
comparator orders the keys of this length, the entries are in ascending order.

## Main definitions

* `MeteredMap.MapError.OfShortage` : the errors that tell of memory or handles.
* `MeteredMap.Tree.Akin` : two trees with the same sizes and the same comparator.
* `MeteredMap.Tree.Sound` : the invariant.

## Main results

* `MeteredMap.Tree.Sound.ofUnused` : an empty tree is sound.
* `MeteredMap.Tree.Sound.unplug` : what is found in a place of a sound tree.
-/

namespace MeteredMap

/-- Memory or handles ran out. Every other error tells of the arguments and the entries alone. -/
def MapError.OfShortage : MapError → Prop
  | .noMemory => True
  | .overflow => True
  | _ => False

namespace Tree

open Shape

/-- Two trees with the same sizes and the same comparator. -/
structure Akin (before after : Tree) : Prop where
  keyLayout : after.keyLayout = before.keyLayout
  valueLayout : after.valueLayout = before.valueLayout
  comparator : after.comparator = before.comparator

variable {tree before middle after : Tree} {s t : Shape} {vacant : List Handle} {e : Entry}

theorem Akin.refl (tree : Tree) : Akin tree tree :=
  ⟨rfl, rfl, rfl⟩

theorem Akin.symm (h : Akin before after) : Akin after before :=
  ⟨h.keyLayout.symm, h.valueLayout.symm, h.comparator.symm⟩

theorem Akin.trans (h : Akin before middle) (h' : Akin middle after) : Akin before after :=
  ⟨h'.keyLayout.trans h.keyLayout, h'.valueLayout.trans h.valueLayout,
    h'.comparator.trans h.comparator⟩

theorem Akin.keySize (h : Akin before after) : after.keySize = before.keySize :=
  congrArg Layout.size h.keyLayout

theorem Akin.valueSize (h : Akin before after) : after.valueSize = before.valueSize :=
  congrArg Layout.size h.valueLayout

theorem Relinked.akin (h : Relinked before after) : Akin before after :=
  ⟨h.keyLayout, h.valueLayout, h.comparator⟩

/-- An entry of the lengths that the tree was made for. -/
def Admits (tree : Tree) (e : Entry) : Prop :=
  e.key.length = tree.keySize ∧ e.value.length = tree.valueSize

theorem Admits.akin (h : tree.Admits e) (hk : Akin tree after) : after.Admits e :=
  ⟨h.1.trans hk.keySize.symm, h.2.trans hk.valueSize.symm⟩

theorem not_ofShortage_of_checkKey {key : Blob} {cause : MapError}
    (h : tree.checkKey key = .error cause) : ¬ cause.OfShortage := by
  unfold checkKey at h
  split at h
  · cases h
  · cases h
    exact id

theorem not_ofShortage_of_checkValue {value : Blob} {cause : MapError}
    (h : tree.checkValue value = .error cause) : ¬ cause.OfShortage := by
  unfold checkValue at h
  split at h
  · cases h
  · cases h
    exact id

theorem length_of_checkValue {value : Blob} (h : tree.checkValue value = .ok ()) :
    value.length = tree.valueSize := by
  unfold checkValue at h
  split at h
  · assumption
  · cases h

/-- The tree has a shape that obeys the colour rules, with nothing else in its slots, and all
entries have the right lengths and stand in the order of the keys, if there is one. -/
structure Sound (tree : Tree) (s : Shape) (vacant : List Handle) : Prop where
  hasShape : tree.HasShape s
  black : s.color = .black
  balanced : ∃ n, s.Balanced n
  wellFormed : tree.nodes.WellFormed vacant
  live_eq : tree.nodes.live = s.size
  slotSize : tree.nodes.slotSize = Node.footprint
  layouts : Tree.layouts tree.keySize tree.valueSize = .ok (tree.keyLayout, tree.valueLayout)
  admits : ∀ e ∈ s.entries, tree.Admits e
  ordered : OrdersKeys tree.comparator.compare tree.keySize →
    Ascending tree.comparator.compare s.entries

namespace Sound

theorem size_eq (h : tree.Sound s vacant) : tree.size = s.size :=
  h.live_eq

theorem length_key (h : tree.Sound s vacant) : ∀ d ∈ s.entries, d.key.length = tree.keySize :=
  fun d hd => (h.admits d hd).1

/-- A tree whose layouts came from the lengths asked for. -/
theorem layouts_of_eq {keySize valueSize : Nat} {keyLayout valueLayout : Layout}
    (h : Tree.layouts keySize valueSize = .ok (keyLayout, valueLayout)) :
    (0 < keySize ∧ 0 < valueSize) ∧ keyLayout = ⟨keySize, 8⟩ ∧ valueLayout = ⟨valueSize, 8⟩ := by
  unfold Tree.layouts at h
  by_cases hkey : keySize = 0
  · rw [if_pos hkey] at h
    cases h
  by_cases hvalue : valueSize = 0
  · simp only [if_neg hkey, if_pos hvalue] at h
    cases h
  simp only [if_neg hkey, if_neg hvalue] at h
  obtain ⟨_, hkl, h⟩ := bind_eq_ok_iff.mp h
  obtain ⟨_, hvl, h⟩ := bind_eq_ok_iff.mp h
  cases h
  exact ⟨⟨Nat.pos_of_ne_zero hkey, Nat.pos_of_ne_zero hvalue⟩, (Layout.block_eq_ok_iff.mp hkl).2,
    (Layout.block_eq_ok_iff.mp hvl).2⟩

/-- An empty tree. -/
theorem ofUnused {keySize valueSize : Nat} {keyLayout valueLayout : Layout}
    (h : Tree.layouts keySize valueSize = .ok (keyLayout, valueLayout)) (capacity : Nat)
    (comparator : Comparator) :
    Sound
      { nodes := { Arena.empty Node.footprint with capacity }, root := none, keyLayout,
        valueLayout, comparator } absent [] where
  hasShape :=
    { root_eq := rfl
      linked := trivial
      nodup := List.nodup_nil
      covers := fun x hx => by simp [Arena.get?, Arena.empty] at hx }
  black := rfl
  balanced := ⟨0, .absent⟩
  wellFormed := .ofUnused _ _
  live_eq := rfl
  slotSize := rfl
  layouts := by
    obtain ⟨-, rfl, rfl⟩ := layouts_of_eq h
    exact h
  admits e he := by cases he
  ordered _ := .nil

/-- The tree that a constructor makes. -/
theorem ofCreate {keySize valueSize : Nat} {comparator : Comparator}
    (h : Tree.create keySize valueSize comparator = .ok tree) :
    tree.Sound Shape.absent [] ∧ Tree.layouts keySize valueSize = .ok (tree.keyLayout,
      tree.valueLayout) ∧ tree.comparator = comparator := by
  obtain ⟨⟨keyLayout, valueLayout⟩, hlayouts, heq⟩ := bind_eq_ok_iff.mp h
  cases heq
  exact ⟨ofUnused hlayouts 0 comparator, hlayouts, rfl⟩

/-- What a constructor makes with room for so many nodes: nothing but this room. -/
theorem exists_of_withCapacity {α : Type} [Allocator α] {memory memory' : α}
    {keySize valueSize capacity : Nat} {comparator : Comparator}
    (h : Tree.withCapacity keySize valueSize capacity comparator memory = (.ok tree, memory')) :
    ∃ keyLayout valueLayout, Tree.layouts keySize valueSize = .ok (keyLayout, valueLayout) ∧
      tree = { nodes := { Arena.empty Node.footprint with capacity }
               root := none, keyLayout, valueLayout, comparator } := by
  unfold Tree.withCapacity at h
  split at h
  · cases h
  · next keyLayout valueLayout hlayouts =>
    split at h
    · cases h
    · split at h
      · cases h
      · next hnodes =>
        cases h
        obtain rfl := Arena.WellFormed.eq_of_withCapacity hnodes
        exact ⟨keyLayout, valueLayout, hlayouts, rfl⟩

/-- The tree that a constructor makes with room for so many nodes. -/
theorem ofWithCapacity {α : Type} [Allocator α] {memory memory' : α}
    {keySize valueSize capacity : Nat} {comparator : Comparator}
    (h : Tree.withCapacity keySize valueSize capacity comparator memory = (.ok tree, memory')) :
    tree.Sound Shape.absent [] ∧ Tree.layouts keySize valueSize = .ok (tree.keyLayout,
      tree.valueLayout) ∧ tree.comparator = comparator := by
  obtain ⟨keyLayout, valueLayout, hlayouts, rfl⟩ := exists_of_withCapacity h
  exact ⟨ofUnused hlayouts capacity comparator, hlayouts, rfl⟩

/-- A sound tree, put together from its parts after a change that keeps its sizes. -/
theorem ofAkin (h : before.Sound s vacant) (hk : Akin before after) (hshape : after.HasShape t)
    (hblack : t.color = .black) (hbalanced : ∃ n, t.Balanced n) {rest : List Handle}
    (hnodes : after.nodes.WellFormed rest) (hlive : after.nodes.live = t.size)
    (hslot : after.nodes.slotSize = before.nodes.slotSize)
    (hentries : ∀ e ∈ t.entries, before.Admits e)
    (hordered : OrdersKeys before.comparator.compare before.keySize →
      Ascending before.comparator.compare t.entries) : after.Sound t rest where
  hasShape := hshape
  black := hblack
  balanced := hbalanced
  wellFormed := hnodes
  live_eq := hlive
  slotSize := hslot.trans h.slotSize
  layouts := by rw [hk.keySize, hk.valueSize, hk.keyLayout, hk.valueLayout, h.layouts]
  admits e he := (hentries e he).akin hk
  ordered ho := by
    rw [hk.comparator] at ho ⊢
    exact hordered (hk.keySize ▸ ho)

/-- A tree after it was cleared. -/
theorem cleared (h : tree.Sound s vacant) :
    Sound { tree with nodes := tree.nodes.clear, root := none } absent [] := by
  have hempty := ofUnused h.layouts tree.nodes.capacity tree.comparator
  rw [← h.slotSize] at hempty
  exact hempty

/-- What is found in a place of a sound tree is balanced and fits. -/
theorem unplug {path : List Frame} (h : tree.Sound (plug path s) vacant) :
    ∃ n, s.Balanced n ∧ Fits path s.color n := by
  obtain ⟨n, hn⟩ := h.balanced
  exact hn.unplug h.black

end Sound

end Tree

end MeteredMap
