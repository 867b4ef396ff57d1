import Mathlib.Tactic.SplitIfs
import MeteredMap.Iterator
import MeteredMap.Proofs.Tree.Provision
import MeteredMap.Tree.Clear
import MeteredMap.Tree.Drawing

/-!
# One tree under several comparisons

The comparison of keys is carried by a tree and has no part in what is done to it once the place for
a change is known. Walks, rotations, both repairs, unlinking and clearing are the same under every
comparison: with another one in the tree they end as before, and the other one is in the tree that
they leave.

## Main definitions

* `MeteredMap.Tree.under` : a tree with another comparison of keys.

## Main results

* `MeteredMap.Tree.neighbor_under`, `MeteredMap.Tree.height_under`,
  `MeteredMap.Tree.entries_under` : reading.
* `MeteredMap.Tree.link_under`, `MeteredMap.Tree.repairInsert_under` : insertion behind its search.
* `MeteredMap.Tree.removeAt_under`, `MeteredMap.Tree.clear_under` : removal and clearing.
-/

namespace MeteredMap

namespace Tree

/-- The tree with another comparison of keys. -/
def under (tree : Tree) (compare : Blob → Blob → Ordering) : Tree :=
  { tree with comparator := { tree.comparator with compare } }

end Tree

/-- What an operation leaves behind, with another comparison of keys in its tree. -/
def Outcome.under {α ρ : Type} (outcome : Outcome Tree α ρ) (compare : Blob → Blob → Ordering) :
    Outcome Tree α ρ :=
  { outcome with state := outcome.state.under compare }

namespace Tree

variable {α : Type} {tree : Tree} {g : Blob → Blob → Ordering} {side : Side} {x : Handle}

/-! ### Reading -/

theorem extremeWithin_under (fuel : Nat) :
    (tree.under g).extremeWithin side fuel x = tree.extremeWithin side fuel x := by
  induction fuel generalizing x with
  | zero => rfl
  | succ fuel ih =>
    refine bind_congr fun node => ?_
    cases node.child side with
    | none => rfl
    | some child => exact ih

theorem extreme_under : (tree.under g).extreme side x = tree.extreme side x :=
  extremeWithin_under _

theorem outermost_under : (tree.under g).outermost side = tree.outermost side := by
  have hroot : (tree.under g).root = tree.root := rfl
  unfold outermost
  rw [hroot]
  cases tree.root with
  | none => rfl
  | some root => exact congrArg (some <$> ·) extreme_under

theorem climbWithin_under (fuel : Nat) :
    (tree.under g).climbWithin side fuel x = tree.climbWithin side fuel x := by
  induction fuel generalizing x with
  | zero => rfl
  | succ fuel ih =>
    refine bind_congr fun node => ?_
    cases node.parent with
    | none => rfl
    | some parent =>
      exact bind_congr fun parentNode => by rw [ih]

theorem neighbor_under : (tree.under g).neighbor side x = tree.neighbor side x := by
  refine bind_congr fun node => ?_
  cases node.child side with
  | none => exact climbWithin_under _
  | some child => exact congrArg (some <$> ·) extreme_under

theorem deepestWithin_under (fuel : Nat) (waiting : List (Handle × Nat)) (best : Nat) :
    (tree.under g).deepestWithin fuel waiting best = tree.deepestWithin fuel waiting best := by
  induction fuel generalizing waiting best with
  | zero => cases waiting <;> rfl
  | succ fuel ih =>
    cases waiting with
    | nil => rfl
    | cons pair waiting => exact bind_congr fun node => ih _ _

theorem height_under : (tree.under g).height = tree.height :=
  deepestWithin_under _ _ _

end Tree

namespace Iterator

variable {tree : Tree} {g : Blob → Blob → Ordering} {it : Iterator} {side : Side}

theorem take_under : it.take (tree.under g) side = it.take tree side := by
  unfold take
  cases it.endAt side with
  | none => rfl
  | some x =>
    simp only [Tree.neighbor_under]
    rfl

theorem nth_under (n : Nat) : it.nth (tree.under g) side n = it.nth tree side n := by
  induction n generalizing it with
  | zero => exact take_under
  | succ n ih =>
    simp only [nth, take_under, ih]

theorem drainUpTo_under (n : Nat) :
    drainUpTo (tree.under g) side n it = drainUpTo tree side n it := by
  induction n generalizing it with
  | zero => rfl
  | succ n ih => simp only [drainUpTo, take_under, ih]

end Iterator

namespace Tree

variable {α : Type} {tree : Tree} {g : Blob → Blob → Ordering} {side : Side} {x : Handle}

theorem iterator_under : (tree.under g).iterator = tree.iterator := by
  unfold iterator first last
  rw [outermost_under, outermost_under]
  rfl

theorem entries_under : (tree.under g).entries = tree.entries := by
  unfold entries
  rw [iterator_under]
  exact bind_congr fun it => Iterator.drainUpTo_under _

theorem sameEntries_under (other : Tree) (f : Blob → Blob → Ordering) :
    (tree.under g).sameEntries (other.under f) = tree.sameEntries other := by
  unfold sameEntries
  rw [entries_under, entries_under]
  rfl

theorem outermostEntry_under : (tree.under g).outermostEntry side = tree.outermostEntry side := by
  unfold outermostEntry
  rw [outermost_under]
  rfl

/-! ### Single links -/

theorem update_under (change : Node → Node) :
    (tree.under g).update x change = (·.under g) <$> tree.update x change :=
  bind_eq_map_bind fun _ => rfl

theorem setChild_under (child : Option Handle) :
    (tree.under g).setChild x side child = (·.under g) <$> tree.setChild x side child :=
  update_under _

theorem setParent_under (parent : Option Handle) :
    (tree.under g).setParent x parent = (·.under g) <$> tree.setParent x parent :=
  update_under _

theorem setColor_under (color : Color) :
    (tree.under g).setColor x color = (·.under g) <$> tree.setColor x color :=
  update_under _

theorem replaceChild_under (parent : Option Handle) (new : Option Handle) :
    (tree.under g).replaceChild parent x new = (·.under g) <$> tree.replaceChild parent x new := by
  cases parent with
  | none => rfl
  | some parent =>
    refine bind_eq_map_bind fun node => ?_
    split_ifs
    · exact setChild_under new
    · exact setChild_under new
    · rfl

theorem adopt_under (child parent : Option Handle) :
    (tree.under g).adopt child parent = (·.under g) <$> tree.adopt child parent := by
  cases child with
  | none => rfl
  | some child => exact setParent_under parent

theorem rotate_under : (tree.under g).rotate side x = (·.under g) <$> tree.rotate side x := by
  refine bind_eq_map_bind fun node => ?_
  cases node.child side.other with
  | none => rfl
  | some pivot =>
    refine bind_eq_map_bind fun pivotNode => ?_
    refine bind_eq_map_bind_of_map (setChild_under _) fun _ => ?_
    refine bind_eq_map_bind_of_map (adopt_under _ _) fun _ => ?_
    refine bind_eq_map_bind_of_map (setParent_under _) fun _ => ?_
    refine bind_eq_map_bind_of_map (replaceChild_under _ _) fun _ => ?_
    refine bind_eq_map_bind_of_map (setChild_under _) fun _ => ?_
    exact setParent_under _

/-! ### Insertion -/

theorem attach_under (arrival : Arrival) :
    (tree.under g).attach arrival x = (·.under g) <$> tree.attach arrival x := by
  cases arrival with
  | found y => rfl
  | below parent side => exact setChild_under _
  | nowhere => rfl

theorem link_under [Allocator α] (memory : α) (entry : Entry) (arrival : Arrival) :
    (tree.under g).link memory entry arrival =
      (·.under g) <$> tree.link memory entry arrival := by
  have hprovision : (tree.under g).provision memory = tree.provision memory := rfl
  rw [link_eq, link_eq, hprovision]
  rcases tree.provision memory with ⟨e | ⟨⟩, nodes, memory'⟩
  · rfl
  · refine bind_eq_map_bind fun placed => ?_
    obtain ⟨handle, nodes, memory'⟩ := placed
    have hattach : ({ tree with nodes }.under g).attach arrival handle =
        (·.under g) <$> attach { tree with nodes } arrival handle := attach_under arrival
    exact bind_eq_map_bind_of_map hattach fun _ => rfl

theorem raiseMiddle_under (middle : Handle) :
    (tree.under g).raiseMiddle side middle x = (·.under g) <$> tree.raiseMiddle side middle x := by
  refine bind_eq_map_bind_of_map rotate_under fun _ => ?_
  refine bind_eq_map_bind_of_map (setColor_under _) fun _ => ?_
  exact setColor_under _

theorem raiseRed_under (parent grandparent : Handle) :
    (tree.under g).raiseRed side x parent grandparent =
      (·.under g) <$> tree.raiseRed side x parent grandparent := by
  refine bind_eq_map_bind fun node => ?_
  split_ifs
  · exact bind_eq_map_bind_of_map rotate_under fun _ => raiseMiddle_under _
  · exact raiseMiddle_under _

theorem repairInsertWithin_under (fuel : Nat) :
    repairInsertWithin fuel (tree.under g) x = (·.under g) <$> repairInsertWithin fuel tree x := by
  induction fuel generalizing tree x with
  | zero => rfl
  | succ fuel ih =>
    refine bind_eq_map_bind fun node => ?_
    cases node.parent with
    | none => rfl
    | some parent =>
      refine bind_eq_map_bind fun parentNode => ?_
      cases parentNode.color with
      | black => rfl
      | red =>
        cases parentNode.parent with
        | none => rfl
        | some grandparent =>
          refine bind_eq_map_bind fun grandparentNode => ?_
          dsimp only
          generalize (if grandparentNode.left = some parent then Side.left else Side.right) = side
          refine bind_eq_map_bind fun color => ?_
          cases grandparentNode.child side.other with
          | none => exact raiseRed_under _ _
          | some uncle =>
            cases color with
            | black => exact raiseRed_under _ _
            | red =>
              refine bind_eq_map_bind_of_map (setColor_under _) fun _ => ?_
              refine bind_eq_map_bind_of_map (setColor_under _) fun _ => ?_
              exact bind_eq_map_bind_of_map (setColor_under _) fun _ => ih

theorem blackenRoot_under : (tree.under g).blackenRoot = (·.under g) <$> tree.blackenRoot := by
  have hroot : (tree.under g).root = tree.root := rfl
  unfold blackenRoot
  rw [hroot]
  cases tree.root with
  | none => rfl
  | some root => exact setColor_under _

theorem repairInsert_under :
    (tree.under g).repairInsert x = (·.under g) <$> tree.repairInsert x :=
  bind_eq_map_bind_of_map (repairInsertWithin_under _) fun _ => blackenRoot_under

/-! ### Removal -/

theorem swapEntries_under (y : Handle) :
    (tree.under g).swapEntries x y = (·.under g) <$> tree.swapEntries x y :=
  bind_eq_map_bind fun _ => rfl

theorem splice_under :
    (tree.under g).splice x = Prod.map id (·.under g) <$> tree.splice x := by
  refine bind_eq_map_bind fun node => ?_
  refine bind_eq_map_bind_of_map (adopt_under _ _) fun _ => ?_
  refine bind_eq_map_bind_of_map (replaceChild_under _ _) fun _ => ?_
  exact bind_eq_map_bind fun _ => rfl

theorem blackSibling_under :
    (tree.under g).blackSibling side x = Prod.map id (·.under g) <$> tree.blackSibling side x := by
  refine bind_eq_map_bind fun sibling => ?_
  refine bind_eq_map_bind fun node => ?_
  cases node.color with
  | black => rfl
  | red =>
    refine bind_eq_map_bind_of_map (setColor_under _) fun _ => ?_
    refine bind_eq_map_bind_of_map (setColor_under _) fun _ => ?_
    refine bind_eq_map_bind_of_map rotate_under fun _ => ?_
    exact bind_eq_map_bind fun _ => rfl

theorem redFarNephew_under (sibling : Handle) :
    (tree.under g).redFarNephew side x sibling =
      Prod.map id (·.under g) <$> tree.redFarNephew side x sibling := by
  refine bind_eq_map_bind fun node => ?_
  refine bind_eq_map_bind fun color => ?_
  cases color with
  | red => rfl
  | black =>
    cases node.child side with
    | none => rfl
    | some near =>
      refine bind_eq_map_bind_of_map (setColor_under _) fun _ => ?_
      refine bind_eq_map_bind_of_map (setColor_under _) fun _ => ?_
      refine bind_eq_map_bind_of_map rotate_under fun _ => ?_
      exact bind_eq_map_bind fun _ => rfl

theorem raiseSibling_under (sibling : Handle) :
    (tree.under g).raiseSibling side x sibling =
      (·.under g) <$> tree.raiseSibling side x sibling := by
  refine bind_eq_map_bind fun node => ?_
  cases node.child side.other with
  | none => rfl
  | some far =>
    refine bind_eq_map_bind fun parentNode => ?_
    refine bind_eq_map_bind_of_map (setColor_under _) fun _ => ?_
    refine bind_eq_map_bind_of_map (setColor_under _) fun _ => ?_
    refine bind_eq_map_bind_of_map (setColor_under _) fun _ => ?_
    exact rotate_under

theorem repairRemoveWithin_under (fuel : Nat) (lacking parent : Option Handle) :
    repairRemoveWithin fuel (tree.under g) lacking parent =
      Prod.map id (·.under g) <$> repairRemoveWithin fuel tree lacking parent := by
  induction fuel generalizing tree lacking parent with
  | zero => rfl
  | succ fuel ih =>
    have hroot : (tree.under g).root = tree.root := rfl
    unfold repairRemoveWithin
    rw [hroot]
    split_ifs
    · rfl
    refine bind_eq_map_bind fun color => ?_
    cases color with
    | red => rfl
    | black =>
      cases parent with
      | none => rfl
      | some parent =>
        refine bind_eq_map_bind fun parentNode => ?_
        dsimp only
        generalize (if parentNode.left = lacking then Side.left else Side.right) = side
        refine bind_eq_map_bind_of_map blackSibling_under fun _ => ?_
        refine bind_eq_map_bind fun siblingNode => ?_
        refine bind_eq_map_bind fun near => ?_
        refine bind_eq_map_bind fun far => ?_
        have hraise : ∀ (tree : Tree) (sibling : Handle),
            ((tree.under g).redFarNephew side parent sibling >>= fun pair =>
              pair.2.raiseSibling side parent pair.1 >>= fun tree => .ok (tree.root, tree)) =
            Prod.map id (·.under g) <$> (tree.redFarNephew side parent sibling >>= fun pair =>
              pair.2.raiseSibling side parent pair.1 >>= fun tree => .ok (tree.root, tree)) :=
          fun _ _ => bind_eq_map_bind_of_map (redFarNephew_under _) fun _ =>
            bind_eq_map_bind_of_map (raiseSibling_under _) fun _ => rfl
        cases near with
        | red => exact hraise _ _
        | black =>
          cases far with
          | red => exact hraise _ _
          | black =>
            refine bind_eq_map_bind_of_map (setColor_under _) fun _ => ?_
            exact bind_eq_map_bind fun _ => ih _ _

theorem repairRemove_under (child parent : Option Handle) :
    (tree.under g).repairRemove child parent = (·.under g) <$> tree.repairRemove child parent := by
  refine bind_eq_map_bind_of_map (repairRemoveWithin_under _ _ _) fun last => ?_
  obtain ⟨_ | x, after⟩ := last
  · rfl
  · exact setColor_under _

theorem isolate_under :
    (tree.under g).isolate x =
      Prod.map id (Prod.map id (·.under g)) <$> tree.isolate x := by
  refine bind_eq_map_bind fun node => ?_
  have hdirect : ((tree.under g).successor x >>= fun next => .ok (x, next, tree.under g)) =
      Prod.map id (Prod.map id (·.under g)) <$>
        (tree.successor x >>= fun next => .ok (x, next, tree)) := by
    unfold successor
    rw [neighbor_under]
    exact bind_eq_map_bind fun _ => rfl
  cases node.left with
  | none => exact hdirect
  | some left =>
    cases node.right with
    | none => exact hdirect
    | some right =>
      dsimp only
      rw [extreme_under]
      refine bind_eq_map_bind fun successor => ?_
      exact bind_eq_map_bind_of_map (swapEntries_under _) fun _ => rfl

theorem removeAt_under [Allocator α] (memory : α) :
    (tree.under g).removeAt memory x =
      Prod.map id (Prod.map (·.under g) id) <$> tree.removeAt memory x := by
  refine bind_eq_map_bind_of_map isolate_under fun isolated => ?_
  obtain ⟨target, next, mid⟩ := isolated
  refine bind_eq_map_bind_of_map splice_under fun spliced => ?_
  obtain ⟨node, spliced⟩ := spliced
  dsimp only [Prod.map, id]
  cases node.color with
  | red => rfl
  | black => exact bind_eq_map_bind_of_map (repairRemove_under _ _) fun _ => rfl

theorem removeAtInto_under [Allocator α] (memory : α) (buffer : Blob) :
    (tree.under g).removeAtInto memory x buffer =
      Prod.map id (Prod.map (·.under g) id) <$> tree.removeAtInto memory x buffer := by
  refine bind_eq_map_bind_of_map (removeAt_under memory) fun removed => ?_
  obtain ⟨removal, after, memory'⟩ := removed
  dsimp only [Prod.map, id]
  split_ifs
  · rfl
  · rfl

theorem overwriteAt_under (bytes : Blob) (offset : Nat) :
    (tree.under g).overwriteAt x bytes offset =
      (·.under g) <$> tree.overwriteAt x bytes offset :=
  update_under _

/-! ### Clearing -/

theorem clearWithin_under [Allocator α] (fuel : Nat) (waiting : List Handle) (memory : α) :
    clearWithin fuel waiting (tree.under g) memory =
      Prod.map (·.under g) id <$> clearWithin fuel waiting tree memory := by
  induction fuel generalizing tree waiting memory with
  | zero => cases waiting <;> rfl
  | succ fuel ih =>
    cases waiting with
    | nil => rfl
    | cons x waiting =>
      refine bind_eq_map_bind fun node => ?_
      cases node.left with
      | some left => exact bind_eq_map_bind_of_map (setChild_under _) fun _ => ih _ _
      | none =>
        cases node.right with
        | some right => exact bind_eq_map_bind_of_map (setChild_under _) fun _ => ih _ _
        | none =>
          refine bind_eq_map_bind fun taken => ?_
          obtain ⟨_, nodes⟩ := taken
          have hrest : clearWithin fuel waiting ({ tree with nodes }.under g)
              (tree.releaseBlocks memory) = Prod.map (·.under g) id <$>
                clearWithin fuel waiting { tree with nodes } (tree.releaseBlocks memory) := ih _ _
          exact hrest

theorem clear_under [Allocator α] (memory : α) :
    (tree.under g).clear memory = Prod.map (·.under g) id <$> tree.clear memory := by
  have hunrooted : { tree.under g with root := none } = { tree with root := none }.under g := rfl
  unfold clear
  rw [hunrooted]
  exact bind_eq_map_bind_of_map (clearWithin_under _ _ memory) fun _ => rfl

theorem dispose_under [Allocator α] (memory : α) :
    (tree.under g).dispose memory = tree.dispose memory := by
  unfold dispose
  rw [clear_under]
  cases tree.clear memory with
  | error fault => rfl
  | ok cleared => rfl

end Tree

end MeteredMap
