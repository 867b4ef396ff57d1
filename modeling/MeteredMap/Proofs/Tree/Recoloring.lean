import Mathlib.Tactic.SplitIfs
import MeteredMap.Proofs.Steps
import MeteredMap.Proofs.Tree.Rotation
import MeteredMap.Tree.Insert
import MeteredMap.Tree.Remove

/-!
# How often a repair rotates

Both repairs climb an unbounded number of levels, and all they do on the way is to give nodes other
colours. Rotations are made at the end only: at most two after an insertion, at most three after a
removal. The first of three is made beside a red sibling. It leaves a red node above the place that
lacks a black level, so that a repair which climbs from there ends at once.

Nothing is required of the tree here. What is proved follows from the steps of the repairs, provided
that they end without a fault.

## Main definitions

* `MeteredMap.Tree.uncolored` : a tree apart from its colours.
* `MeteredMap.Tree.colors` : the colours of a tree, by slot.
* `MeteredMap.Tree.rotateAll` : rotations one after the other.
* `MeteredMap.Tree.TurnsInto` : so many rotations and recolouring lead from one tree to another.

## Main results

* `MeteredMap.Tree.rotate_uncolored`, `MeteredMap.Tree.colors_of_rotate` : rotations neither ask for
  colours nor change them.
* `MeteredMap.Tree.turnsInto_of_repairInsert` : the repair after an insertion.
* `MeteredMap.Tree.turnsInto_of_repairRemove` : the repair after a removal.
-/

namespace MeteredMap

/-! ### Arenas with all elements changed -/

/-- The slot with its element changed. -/
def Slot.map {ε δ : Type} (f : ε → δ) : Slot ε → Slot δ
  | occupied element => occupied (f element)
  | vacant next => vacant next

namespace Arena

variable {ε δ : Type} {f : ε → δ} {change : ε → ε} {change' : δ → δ} {arena after : Arena ε}
  {x y : Handle} {element : ε}

/-- The arena with all of its elements changed. -/
def map (f : ε → δ) (arena : Arena ε) : Arena δ :=
  { arena with slots := arena.slots.map (Slot.map f) }

theorem slot_map : (arena.map f).slot x = Slot.map f <$> arena.slot x := by
  unfold slot slotAt
  rw [map, Array.getElem?_map, Array.size_map]
  cases arena.slots[x.index]? <;> rfl

theorem get_map : (arena.map f).get x = f <$> arena.get x :=
  bind_eq_map_bind_of_map slot_map fun slot => by cases slot <;> rfl

theorem setSlot_map (slot : Slot ε) :
    (arena.map f).setSlot x (slot.map f) = (arena.setSlot x slot).map f := by
  simp [setSlot, map]

/-- A change that goes along with `f`, made before it or after it. -/
theorem modify_map (h : ∀ element, change' (f element) = f (change element)) :
    (arena.map f).modify x change' = map f <$> arena.modify x change := by
  refine bind_eq_map_bind_of_map slot_map fun slot => ?_
  cases slot with
  | occupied element =>
    have hslot : Slot.occupied (change' (f element)) = (Slot.occupied (change element)).map f := by
      rw [h]
      rfl
    exact congrArg Except.ok ((congrArg _ hslot).trans (setSlot_map _))
  | vacant next => rfl

/-- A change that succeeds was made at a live handle. -/
theorem exists_of_modify (h : arena.modify x change = .ok after) :
    ∃ element, arena.get? x = some element ∧
      after = arena.setSlot x (.occupied (change element)) := by
  obtain ⟨slot, hslot, hmodify⟩ := bind_eq_ok_iff.mp h
  cases slot with
  | vacant next => cases hmodify
  | occupied element =>
    refine ⟨element, ?_, (Except.ok.inj hmodify).symm⟩
    rw [← get_eq_ok_iff, get, hslot]
    rfl

/-- What is read after a change. -/
theorem get_of_modify (h : arena.modify x change = .ok after) (y : Handle) :
    after.get y = (if y = x then change else id) <$> arena.get y := by
  obtain ⟨element, hx, rfl⟩ := exists_of_modify h
  split_ifs with hy
  · rw [hy, get_eq_ok_iff.mpr hx, map_ok, get_eq_ok_iff, get?_setSlot_self _ (index_lt_of_get? hx)]
  · have hframe : (arena.setSlot x (.occupied (change element))).slot y = arena.slot y := by
      unfold slot slotAt setSlot
      rw [Array.getElem?_setIfInBounds_ne (Handle.index_ne hy).symm, Array.size_setIfInBounds]
    rw [get, hframe, id_map]
    rfl

/-- A change that `f` does not see. -/
theorem map_eq_of_modify (h : ∀ element, f (change element) = f element)
    (hmodify : arena.modify x change = .ok after) : after.map f = arena.map f := by
  obtain ⟨element, hx, rfl⟩ := exists_of_modify hmodify
  have hslots : (arena.slots.setIfInBounds x.index (.occupied (change element))).map (Slot.map f) =
      arena.slots.map (Slot.map f) := by
    refine Array.ext_getElem? fun i => ?_
    rw [Array.getElem?_map, Array.getElem?_map, Array.getElem?_setIfInBounds]
    split_ifs with hi hlt
    · rw [← hi, get?_eq_some_iff.mp hx, Option.map_some, Option.map_some, Slot.map, Slot.map, h]
    · rw [Array.getElem?_eq_none (by omega)]
    · rfl
  rw [map, setSlot, hslots]
  rfl

end Arena

/-! ### Trees without colours, and colours without trees -/

namespace Node

variable {node : Node} {c : Color} {side : Side} {link : Option Handle}

@[simp] theorem child_recolor : (node.recolor c).child side = node.child side := by
  cases side <;> rfl

@[simp] theorem withChild_recolor :
    (node.recolor c).withChild side link = (node.withChild side link).recolor c := by
  cases side <;> rfl

@[simp] theorem color_withChild : (node.withChild side link).color = node.color := by
  cases side <;> rfl

end Node

namespace Tree

variable {tree before middle after last : Tree} {x y parent : Handle} {side : Side} {c : Color}
  {change : Node → Node} {m n : Nat}

/-- The tree with all of its nodes black: all of it but its colours. -/
def uncolored (tree : Tree) : Tree :=
  { tree with nodes := tree.nodes.map (Node.recolor .black) }

/-- The colours of the nodes, slot by slot. -/
def colors (tree : Tree) : Arena Color :=
  tree.nodes.map Node.color

theorem node_uncolored : tree.uncolored.node x = Node.recolor .black <$> tree.node x :=
  Arena.get_map

theorem colorAt_some : tree.colorAt (some x) = tree.colors.get x :=
  Arena.get_map.symm

/-- A change that has nothing to do with colours. -/
theorem update_uncolored
    (h : ∀ node : Node, change (node.recolor .black) = (change node).recolor .black) :
    tree.uncolored.update x change = uncolored <$> tree.update x change :=
  bind_eq_map_bind_of_map (Arena.modify_map h) fun _ => rfl

theorem colors_of_update (h : ∀ node : Node, (change node).color = node.color)
    (hupdate : tree.update x change = .ok after) : after.colors = tree.colors := by
  obtain ⟨nodes, hmodify, hnodes⟩ := bind_eq_ok_iff.mp hupdate
  obtain rfl := Except.ok.inj hnodes
  exact Arena.map_eq_of_modify h hmodify

theorem uncolored_of_setColor (h : tree.setColor x c = .ok after) :
    after.uncolored = tree.uncolored := by
  obtain ⟨nodes, hmodify, hnodes⟩ := bind_eq_ok_iff.mp h
  obtain rfl := Except.ok.inj hnodes
  have hkeeps : ∀ node : Node, (node.recolor c).recolor .black = node.recolor .black := fun _ => rfl
  have hnodes : nodes.map (Node.recolor .black) = tree.nodes.map (Node.recolor .black) :=
    Arena.map_eq_of_modify hkeeps hmodify
  rw [uncolored, hnodes]
  rfl

/-- A node coloured red is red, and so is every node that was red before. -/
theorem colorAt_of_setColor_red (h : tree.setColor x .red = .ok after)
    (hy : y = x ∨ tree.colorAt (some y) = .ok .red) : after.colorAt (some y) = .ok .red := by
  obtain ⟨nodes, hmodify, hnodes⟩ := bind_eq_ok_iff.mp h
  obtain rfl := Except.ok.inj hnodes
  obtain ⟨node, hx, -⟩ := Arena.exists_of_modify hmodify
  have hcolor : tree.colorAt (some x) = .ok node.color := by
    rw [colorAt, node_eq hx]
    rfl
  have hred : ∀ node : Node, (fun _ => Color.red) node.color = (node.recolor .red).color :=
    fun _ => rfl
  have hrecolored : tree.colors.modify x (fun _ => .red) = .ok (nodes.map Node.color) := by
    rw [colors, Arena.modify_map hred]
    exact congrArg (Arena.map Node.color <$> ·) hmodify
  rw [colorAt_some, colors, Arena.get_of_modify hrecolored, ← colorAt_some]
  split_ifs with hyx
  · rw [hyx, hcolor, map_ok]
  · rw [hy.resolve_left hyx, map_ok, id]

/-! ### Rotations -/

theorem setChild_uncolored (child : Option Handle) :
    tree.uncolored.setChild x side child = uncolored <$> tree.setChild x side child :=
  update_uncolored fun _ => Node.withChild_recolor

theorem setParent_uncolored (link : Option Handle) :
    tree.uncolored.setParent x link = uncolored <$> tree.setParent x link :=
  update_uncolored fun _ => rfl

theorem replaceChild_uncolored (link new : Option Handle) :
    tree.uncolored.replaceChild link x new = uncolored <$> tree.replaceChild link x new := by
  cases link with
  | none => rfl
  | some parent =>
    refine bind_eq_map_bind_of_map node_uncolored fun node => ?_
    have hleft : (node.recolor .black).left = node.left := rfl
    have hright : (node.recolor .black).right = node.right := rfl
    rw [hleft, hright]
    split_ifs
    · exact setChild_uncolored new
    · exact setChild_uncolored new
    · rfl

theorem adopt_uncolored (child link : Option Handle) :
    tree.uncolored.adopt child link = uncolored <$> tree.adopt child link := by
  cases child with
  | none => rfl
  | some child => exact setParent_uncolored link

/-- A rotation asks for no colour. -/
theorem rotate_uncolored :
    tree.uncolored.rotate side x = uncolored <$> tree.rotate side x := by
  refine bind_eq_map_bind_of_map node_uncolored fun node => ?_
  rw [Node.child_recolor]
  cases node.child side.other with
  | none => rfl
  | some pivot =>
    refine bind_eq_map_bind_of_map node_uncolored fun pivotNode => ?_
    rw [Node.child_recolor]
    refine bind_eq_map_bind_of_map (setChild_uncolored _) fun _ => ?_
    refine bind_eq_map_bind_of_map (adopt_uncolored _ _) fun _ => ?_
    refine bind_eq_map_bind_of_map (setParent_uncolored _) fun _ => ?_
    refine bind_eq_map_bind_of_map (replaceChild_uncolored _ _) fun _ => ?_
    refine bind_eq_map_bind_of_map (setChild_uncolored _) fun _ => ?_
    exact setParent_uncolored _

theorem colors_of_setChild {child : Option Handle}
    (h : tree.setChild x side child = .ok after) : after.colors = tree.colors :=
  colors_of_update (fun _ => Node.color_withChild) h

theorem colors_of_setParent {link : Option Handle} (h : tree.setParent x link = .ok after) :
    after.colors = tree.colors := by
  have hkeeps : ∀ node : Node, (node.reparent link).color = node.color := fun _ => rfl
  exact colors_of_update hkeeps h

/-- A rotation changes no colour. -/
theorem colors_of_rotate (h : tree.rotate side x = .ok after) : after.colors = tree.colors :=
  rotate_steps (R := fun before after => after.colors = before.colors) (fun _ => rfl)
    (fun _ _ _ h h' => h'.trans h) (fun _ _ _ _ _ h => colors_of_setChild h)
    (fun _ _ _ _ h => colors_of_setParent h) (fun _ _ => rfl) h

/-- Rotations one after the other, each toward a side at a node. -/
def rotateAll : List (Side × Handle) → Tree → Except Fault Tree
  | [], tree => return tree
  | (side, x) :: turns, tree => do rotateAll turns (← tree.rotate side x)

theorem rotateAll_uncolored (turns : List (Side × Handle)) (tree : Tree) :
    rotateAll turns tree.uncolored = uncolored <$> rotateAll turns tree := by
  induction turns generalizing tree with
  | nil => rfl
  | cons turn turns ih =>
    exact bind_eq_map_bind_of_map rotate_uncolored fun _ => ih _

theorem rotateAll_append (turns more : List (Side × Handle)) (tree : Tree) :
    rotateAll (turns ++ more) tree = rotateAll turns tree >>= rotateAll more := by
  induction turns generalizing tree with
  | nil => rfl
  | cons turn turns ih =>
    simp only [List.cons_append, rotateAll, bind_assoc, ih]

/-! ### So many rotations -/

/-- At most `n` rotations of `before` lead to `after`, apart from the colours of the nodes. -/
def TurnsInto (n : Nat) (before after : Tree) : Prop :=
  ∃ turns turned, turns.length ≤ n ∧ rotateAll turns before = .ok turned ∧
    turned.uncolored = after.uncolored

namespace TurnsInto

theorem refl (tree : Tree) : TurnsInto 0 tree tree :=
  ⟨[], tree, Nat.le_refl 0, rfl, rfl⟩

theorem mono (h : TurnsInto m before after) (hle : m ≤ n) : TurnsInto n before after := by
  obtain ⟨turns, turned, hlength, hturned, hsame⟩ := h
  exact ⟨turns, turned, Nat.le_trans hlength hle, hturned, hsame⟩

/-- Colours have no part in how a tree can be turned on. -/
theorem trans (h : TurnsInto m before middle) (h' : TurnsInto n middle after) :
    TurnsInto (m + n) before after := by
  obtain ⟨turns, turned, hlength, hturned, hsame⟩ := h
  obtain ⟨more, last, hmore, hlast, hsame'⟩ := h'
  have hboth : uncolored <$> rotateAll more turned = .ok last.uncolored := by
    rw [← rotateAll_uncolored, hsame, rotateAll_uncolored, hlast, map_ok]
  cases hrest : rotateAll more turned with
  | error fault =>
    rw [hrest] at hboth
    cases hboth
  | ok rest =>
    rw [hrest, map_ok] at hboth
    refine ⟨turns ++ more, rest, ?_, ?_, (Except.ok.inj hboth).trans hsame'⟩
    · rw [List.length_append]
      exact Nat.add_le_add hlength hmore
    · rw [rotateAll_append, hturned, ok_bind, hrest]

theorem ofRotate (h : tree.rotate side x = .ok after) : TurnsInto 1 tree after :=
  ⟨[(side, x)], after, Nat.le_refl 1, by rw [rotateAll, h]; rfl, rfl⟩

theorem ofSetColor (h : tree.setColor x c = .ok after) : TurnsInto 0 tree after :=
  ⟨[], tree, Nat.le_refl 0, rfl, (uncolored_of_setColor h).symm⟩

end TurnsInto

/-! ### The repair after an insertion -/

theorem turnsInto_of_raiseMiddle {top : Handle} (h : tree.raiseMiddle side x top = .ok after) :
    TurnsInto 1 tree after := by
  obtain ⟨t₁, h₁, h⟩ := bind_eq_ok_iff.mp h
  obtain ⟨t₂, h₂, h⟩ := bind_eq_ok_iff.mp h
  exact ((TurnsInto.ofRotate h₁).trans (.ofSetColor h₂)).trans (.ofSetColor h)

theorem turnsInto_of_raiseRed {grandparent : Handle}
    (h : tree.raiseRed side x parent grandparent = .ok after) : TurnsInto 2 tree after := by
  obtain ⟨node, -, h⟩ := bind_eq_ok_iff.mp h
  split_ifs at h
  · obtain ⟨t₁, h₁, h⟩ := bind_eq_ok_iff.mp h
    exact (TurnsInto.ofRotate h₁).trans (turnsInto_of_raiseMiddle h)
  · exact (turnsInto_of_raiseMiddle h).mono (by decide)

/-- A conflict that climbs is recoloured, so that only the last turn of the repair rotates. -/
theorem turnsInto_of_repairInsertWithin {fuel : Nat}
    (h : repairInsertWithin fuel tree x = .ok after) : TurnsInto 2 tree after := by
  induction fuel generalizing tree x with
  | zero => cases h
  | succ fuel ih =>
    have hnone : TurnsInto 2 tree tree := (TurnsInto.refl tree).mono (by decide)
    obtain ⟨node, -, h⟩ := bind_eq_ok_iff.mp h
    split at h
    · obtain rfl := Except.ok.inj h
      exact hnone
    · obtain ⟨parentNode, -, h⟩ := bind_eq_ok_iff.mp h
      dsimp only at h
      split at h
      · obtain rfl := Except.ok.inj h
        exact hnone
      · cases h
      · obtain ⟨grandparentNode, -, h⟩ := bind_eq_ok_iff.mp h
        obtain ⟨color, -, h⟩ := bind_eq_ok_iff.mp h
        split at h
        · obtain ⟨t₁, h₁, h⟩ := bind_eq_ok_iff.mp h
          obtain ⟨t₂, h₂, h⟩ := bind_eq_ok_iff.mp h
          obtain ⟨t₃, h₃, h⟩ := bind_eq_ok_iff.mp h
          have hrecolored : TurnsInto 0 tree t₃ :=
            ((TurnsInto.ofSetColor h₁).trans (.ofSetColor h₂)).trans (.ofSetColor h₃)
          exact (hrecolored.trans (ih h)).mono (by decide)
        · exact turnsInto_of_raiseRed h

theorem turnsInto_of_blackenRoot (h : tree.blackenRoot = .ok after) : TurnsInto 0 tree after := by
  unfold blackenRoot at h
  split at h
  · obtain rfl := Except.ok.inj h
    exact .refl tree
  · exact .ofSetColor h

/-- The repair after an insertion makes two rotations at most, and recolours. -/
theorem turnsInto_of_repairInsert (h : tree.repairInsert x = .ok after) :
    TurnsInto 2 tree after := by
  obtain ⟨t₁, h₁, h⟩ := bind_eq_ok_iff.mp h
  exact (turnsInto_of_repairInsertWithin h₁).trans (turnsInto_of_blackenRoot h)

/-! ### The repair after a removal -/

/-- A black sibling is left alone. A red one takes a rotation, after which the node above the place
that lacks a black level is red. -/
theorem turnsInto_of_blackSibling (h : tree.blackSibling side parent = .ok (y, after)) :
    after = tree ∨ TurnsInto 1 tree after ∧ after.colorAt (some parent) = .ok .red := by
  obtain ⟨sibling, -, h⟩ := bind_eq_ok_iff.mp h
  obtain ⟨node, -, h⟩ := bind_eq_ok_iff.mp h
  cases hcolor : node.color with
  | black =>
    simp only [hcolor] at h
    exact Or.inl (Prod.mk.inj (Except.ok.inj h)).2.symm
  | red =>
    simp only [hcolor] at h
    obtain ⟨t₁, h₁, h⟩ := bind_eq_ok_iff.mp h
    obtain ⟨t₂, h₂, h⟩ := bind_eq_ok_iff.mp h
    obtain ⟨t₃, h₃, h⟩ := bind_eq_ok_iff.mp h
    obtain ⟨z, -, h⟩ := bind_eq_ok_iff.mp h
    obtain ⟨rfl, rfl⟩ := Prod.mk.inj (Except.ok.inj h)
    refine Or.inr ⟨((TurnsInto.ofSetColor h₁).trans (.ofSetColor h₂)).trans (.ofRotate h₃), ?_⟩
    rw [colorAt_some, colors_of_rotate h₃, ← colorAt_some]
    exact colorAt_of_setColor_red h₂ (Or.inl rfl)

theorem turnsInto_of_redFarNephew {sibling : Handle}
    (h : tree.redFarNephew side parent sibling = .ok (y, after)) : TurnsInto 1 tree after := by
  obtain ⟨node, -, h⟩ := bind_eq_ok_iff.mp h
  obtain ⟨color, -, h⟩ := bind_eq_ok_iff.mp h
  cases color with
  | red =>
    obtain ⟨-, rfl⟩ := Prod.mk.inj (Except.ok.inj h)
    exact (TurnsInto.refl tree).mono (by decide)
  | black =>
    cases hnear : node.child side with
    | none =>
      simp only [hnear] at h
      cases h
    | some near =>
      simp only [hnear] at h
      obtain ⟨t₁, h₁, h⟩ := bind_eq_ok_iff.mp h
      obtain ⟨t₂, h₂, h⟩ := bind_eq_ok_iff.mp h
      obtain ⟨t₃, h₃, h⟩ := bind_eq_ok_iff.mp h
      obtain ⟨z, -, h⟩ := bind_eq_ok_iff.mp h
      obtain ⟨-, rfl⟩ := Prod.mk.inj (Except.ok.inj h)
      exact ((TurnsInto.ofSetColor h₁).trans (.ofSetColor h₂)).trans (.ofRotate h₃)

theorem turnsInto_of_raiseSibling {sibling : Handle}
    (h : tree.raiseSibling side parent sibling = .ok after) : TurnsInto 1 tree after := by
  obtain ⟨node, -, h⟩ := bind_eq_ok_iff.mp h
  cases hfar : node.child side.other with
  | none =>
    simp only [hfar] at h
    cases h
  | some far =>
    simp only [hfar] at h
    obtain ⟨parentNode, -, h⟩ := bind_eq_ok_iff.mp h
    obtain ⟨t₁, h₁, h⟩ := bind_eq_ok_iff.mp h
    obtain ⟨t₂, h₂, h⟩ := bind_eq_ok_iff.mp h
    obtain ⟨t₃, h₃, h⟩ := bind_eq_ok_iff.mp h
    exact (((TurnsInto.ofSetColor h₁).trans (.ofSetColor h₂)).trans (.ofSetColor h₃)).trans
      (.ofRotate h)

/-- A repair at a red node ends at once. -/
theorem eq_of_repairRemoveWithin_red {fuel : Nat} {above last : Option Handle}
    (hred : tree.colorAt (some x) = .ok .red)
    (h : repairRemoveWithin fuel tree (some x) above = .ok (last, after)) : after = tree := by
  cases fuel with
  | zero => cases h
  | succ fuel =>
    rw [repairRemoveWithin] at h
    split_ifs at h
    · exact (Prod.mk.inj (Except.ok.inj h)).2.symm
    · rw [hred] at h
      exact (Prod.mk.inj (Except.ok.inj h)).2.symm

/-- A lack that climbs is recoloured, and a repair that has rotated climbs no further. -/
theorem turnsInto_of_repairRemoveWithin {fuel : Nat} {lacking above last : Option Handle}
    (h : repairRemoveWithin fuel tree lacking above = .ok (last, after)) :
    TurnsInto 3 tree after := by
  induction fuel generalizing tree lacking above with
  | zero => cases h
  | succ fuel ih =>
    have hnone : TurnsInto 3 tree tree := (TurnsInto.refl tree).mono (by decide)
    rw [repairRemoveWithin] at h
    split_ifs at h
    · obtain ⟨-, rfl⟩ := Prod.mk.inj (Except.ok.inj h)
      exact hnone
    · obtain ⟨color, -, h⟩ := bind_eq_ok_iff.mp h
      rcases color with _ | _
      · obtain ⟨-, rfl⟩ := Prod.mk.inj (Except.ok.inj h)
        exact hnone
      · rcases above with _ | parent
        · obtain ⟨-, rfl⟩ := Prod.mk.inj (Except.ok.inj h)
          exact hnone
        · obtain ⟨parentNode, -, h⟩ := bind_eq_ok_iff.mp h
          obtain ⟨⟨sibling, t₁⟩, hsibling, h⟩ := bind_eq_ok_iff.mp h
          obtain ⟨siblingNode, -, h⟩ := bind_eq_ok_iff.mp h
          obtain ⟨near, -, h⟩ := bind_eq_ok_iff.mp h
          obtain ⟨far, -, h⟩ := bind_eq_ok_iff.mp h
          have hturned := turnsInto_of_blackSibling hsibling
          split at h
          · obtain ⟨t₂, h₂, h⟩ := bind_eq_ok_iff.mp h
            obtain ⟨parentNode', -, hclimb⟩ := bind_eq_ok_iff.mp h
            rcases hturned with rfl | ⟨hturned, hred⟩
            · exact ((TurnsInto.ofSetColor h₂).trans (ih hclimb)).mono (by decide)
            · have hred' := colorAt_of_setColor_red h₂ (Or.inr hred)
              obtain rfl := eq_of_repairRemoveWithin_red hred' hclimb
              exact (hturned.trans (.ofSetColor h₂)).mono (by decide)
          · obtain ⟨⟨sibling', t₂⟩, h₂, h⟩ := bind_eq_ok_iff.mp h
            obtain ⟨t₃, h₃, h⟩ := bind_eq_ok_iff.mp h
            obtain ⟨-, rfl⟩ := Prod.mk.inj (Except.ok.inj h)
            have hraised := (turnsInto_of_redFarNephew h₂).trans (turnsInto_of_raiseSibling h₃)
            have hfirst : TurnsInto 1 tree t₁ := by
              rcases hturned with rfl | ⟨hturned, -⟩
              · exact (TurnsInto.refl _).mono (by decide)
              · exact hturned
            exact hfirst.trans hraised

/-- The repair after a removal makes three rotations at most, and recolours. -/
theorem turnsInto_of_repairRemove {child above : Option Handle}
    (h : tree.repairRemove child above = .ok after) : TurnsInto 3 tree after := by
  obtain ⟨⟨last, t₁⟩, h₁, h⟩ := bind_eq_ok_iff.mp h
  have hrotations := turnsInto_of_repairRemoveWithin h₁
  cases last with
  | none =>
    obtain rfl := Except.ok.inj h
    exact hrotations
  | some y => exact hrotations.trans (.ofSetColor h)

end Tree

end MeteredMap
