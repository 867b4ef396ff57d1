import MeteredMap.Proofs.Tree.Clearing
import MeteredMap.Proofs.Tree.Insertion
import MeteredMap.Tree.Clone

/-!
# Cloning a sound tree

A clone asks for a slot table of the right size first and then for two blocks for each entry, and
for nothing else: the table never grows. If a request is refused on the way, everything that was
granted goes back. An entry is refused only if its key counts as equal to that of an entry before
it, as the comparator of a well ordered tree never says; the table and the blocks of the entries
before it were granted by then.

## Main definitions

* `MeteredMap.Tree.cloneRequests` : the requests of a clone, in order.

## Main results

* `MeteredMap.Tree.Sound.not_repeats` : under an order, no two stored keys count as equal.
* `MeteredMap.Tree.Sound.clone_cases` : all outcomes of cloning a sound tree.
-/

namespace MeteredMap

namespace Arena

variable {α ε : Type} [Allocator α] {slotSize capacity : Nat} {memory : α}

/-- The blocks of a slot table for `capacity` slots: one, unless it is of no bytes. -/
def tableBlocks (slotSize capacity : Nat) : List Layout :=
  if capacity * slotSize = 0 then [] else [⟨capacity * slotSize, 8⟩]

/-- An empty arena is made with the blocks of its table, or refused them. -/
theorem withCapacity_cases (hbound : capacity * slotSize < Layout.bound) (memory : α) :
    (∃ memory', Grants memory (tableBlocks slotSize capacity) memory' ∧
        withCapacity slotSize capacity memory =
          (.ok { (empty slotSize : Arena ε) with capacity }, memory')) ∨
      ∃ memory' layout, tableBlocks slotSize capacity = [layout] ∧
        Allocator.allocate memory layout = .refused memory' ∧
        (withCapacity slotSize capacity memory : Except MapError (Arena ε) × α) =
          (.error .noMemory, memory') := by
  unfold withCapacity tableBlocks
  by_cases hzero : capacity * slotSize = 0
  · rw [if_pos hzero, if_pos hzero]
    exact Or.inl ⟨memory, .nil memory, rfl⟩
  · rw [if_neg hzero, if_neg hzero, Layout.table?_eq_some_iff.mpr ⟨hbound, rfl⟩]
    dsimp only
    cases hreply : Allocator.allocate memory ⟨capacity * slotSize, 8⟩ with
    | granted memory' => exact Or.inl ⟨memory', .cons hreply (.nil memory'), rfl⟩
    | refused memory' => exact Or.inr ⟨memory', _, rfl, hreply, rfl⟩

theorem releaseTable_eq (arena : Arena ε) (memory : α) :
    arena.releaseTable memory =
      (tableBlocks arena.slotSize arena.capacity).foldl Allocator.release memory := by
  rw [releaseTable, tableBlocks]
  split_ifs
  · rfl
  · rfl

end Arena

namespace Tree

open Shape

variable {α : Type} [Allocator α] {tree source target after : Tree} {s t : Shape}
  {vacant : List Handle} {memory memory' : α} {n : Nat}

/-- The two blocks of each of `n` entries. -/
def copyRequests (tree : Tree) (n : Nat) : List Layout :=
  (List.replicate n [tree.keyLayout, tree.valueLayout]).flatten

/-- The requests of a clone, in order. -/
def cloneRequests (tree : Tree) : List Layout :=
  Arena.tableBlocks Node.footprint tree.size ++ tree.copyRequests tree.size

theorem copyRequests_succ (tree : Tree) (n : Nat) :
    tree.copyRequests (n + 1) = [tree.keyLayout, tree.valueLayout] ++ tree.copyRequests n := by
  rw [copyRequests, List.replicate_succ, List.flatten_cons, copyRequests]

theorem Akin.copyRequests_eq (h : Akin tree after) (n : Nat) :
    after.copyRequests n = tree.copyRequests n := by
  rw [copyRequests, copyRequests, h.keyLayout, h.valueLayout]

theorem iterate_releaseBlocks (tree : Tree) (n : Nat) (memory : α) :
    tree.releaseBlocks^[n] memory = (tree.copyRequests n).foldl Allocator.release memory := by
  induction n generalizing memory with
  | zero => rfl
  | succ n ih =>
    rw [Function.iterate_succ_apply, ih, copyRequests_succ, List.foldl_append]
    rfl

/-! ### Copying entries -/

/-- A sound tree of `n` entries in a slot table of the same capacity. -/
structure Filled (target : Tree) (n : Nat) (after : Tree) : Prop where
  sound : ∃ t vacant, after.Sound t vacant ∧ t.size = n
  akin : Akin target after
  capacity : after.nodes.capacity = target.nodes.capacity

/-- In a list, the entry behind the first `k` has a key that counts as equal to one of theirs. -/
def Repeats (compare : Blob → Blob → Ordering) (entries : List Entry) (k : Nat) : Prop :=
  ∃ pre e post, entries = pre ++ e :: post ∧ pre.length = k ∧ ∃ e' ∈ pre, compare e.key e'.key = .eq

theorem Repeats.bounds {compare : Blob → Blob → Ordering} {entries : List Entry} {k : Nat}
    (h : Repeats compare entries k) : 0 < k ∧ k < entries.length := by
  obtain ⟨pre, e, post, rfl, rfl, e', he', -⟩ := h
  refine ⟨List.length_pos_of_mem he', ?_⟩
  rw [List.length_append, List.length_cons]
  omega

/-- Under a comparator that orders the keys, no two stored keys count as equal. -/
theorem Sound.not_repeats (h : tree.Sound s vacant)
    (ho : OrdersKeys tree.comparator.compare tree.keySize) :
    ¬ Repeats tree.comparator.compare s.entries n := by
  rintro ⟨pre, e, post, hentries, -, e', he', hequal⟩
  have hascending := h.ordered ho
  have hlength := h.length_key
  rw [hentries] at hascending hlength
  have hlt : tree.comparator.compare e'.key e.key = .lt :=
    (List.pairwise_append.mp hascending).2.2 e' he' e List.mem_cons_self
  have hgt : tree.comparator.compare e.key e'.key = .gt :=
    (ho.lt_iff_gt (hlength e' (by simp [he'])) (hlength e (by simp))).mp hlt
  rw [hgt] at hequal
  cases hequal

theorem length_copyRequests (tree : Tree) (n : Nat) : (tree.copyRequests n).length = 2 * n := by
  induction n with
  | zero => rfl
  | succ n ih =>
    rw [copyRequests_succ, List.length_append, ih]
    simp only [List.length_cons, List.length_nil]
    omega

theorem Filled.refl (h : target.Sound t vacant) : Filled target t.size target :=
  ⟨⟨t, vacant, h, rfl⟩, .refl target, rfl⟩

/-- All that copying `count` entries into `target`, which holds `n`, can come to: they are all
there, the memory refused a block of one of them, or one has a key that counts as equal to that of
an entry which was copied before. -/
inductive Copied (repeats : Nat → Prop) (target : Tree) (memory : α) (n count : Nat) :
    Outcome Tree α (Except MapError Unit) → Prop
  | done {after : Tree} {memory' : α} (hfilled : Filled target (n + count) after)
      (hgrants : Grants memory (target.copyRequests count) memory') :
      Copied repeats target memory n count ⟨.ok (), after, memory'⟩
  | refused {m : Nat} {gs rs : List Layout} {after : Tree} {memory' : α}
      (hfilled : Filled target (n + m) after) (hperm : gs.Perm rs)
      (htraffic : Traffic memory (target.copyRequests m ++ gs) rs memory')
      (hcount :
        2 * m + gs.length = Allocator.grantedBefore (target.copyRequests count) memory)
      (hlt : 2 * m + gs.length < 2 * count) :
      Copied repeats target memory n count ⟨.error .noMemory, after, memory'⟩
  | repeated {m : Nat} {after : Tree} {memory' : α} (hfilled : Filled target (n + m) after)
      (htraffic : Traffic memory (target.copyRequests m) [] memory') (hrepeats : repeats (n + m)) :
      Copied repeats target memory n count ⟨.error .keyExists, after, memory'⟩

section

variable {repeats : Nat → Prop} {path : List Frame} {y : Handle} {e : Entry} {rest : List Handle}
  {mid : Tree} {count : Nat} {outcome : Outcome Tree α (Except MapError Unit)}

/-- Where a slot is at hand, an insertion that is not refused is granted its two blocks. -/
private theorem grants_of_provision (hroom : tree.nodes.HasRoom) {nodes : Arena Node}
    (hprov : tree.provision memory = ⟨.ok (), nodes, memory'⟩) :
    Grants memory [tree.keyLayout, tree.valueLayout] memory' ∧ nodes = tree.nodes := by
  rcases provision_of_hasRoom hroom memory with ⟨_, hgrants, hok⟩ | ⟨_, _, herror, -⟩
  · rw [hprov] at hok
    simp only [Outcome.mk.injEq, true_and] at hok
    obtain ⟨rfl, rfl⟩ := hok
    exact ⟨hgrants, rfl⟩
  · rw [hprov] at herror
    cases herror

/-- Where a slot is at hand, an insertion that is refused is refused one of its two blocks. -/
private theorem Copied.ofProvision (htarget : target.Sound t vacant)
    (hroom : target.nodes.HasRoom) {cause : MapError} {nodes : Arena Node}
    (hprov : target.provision memory = ⟨.error cause, nodes, memory'⟩) :
    Copied repeats target memory t.size (count + 1) ⟨.error cause, target, memory'⟩ := by
  obtain ⟨gs, rs, hperm, htraffic, hcause⟩ := traffic_of_provision_error hprov
  rcases provision_of_hasRoom hroom memory with ⟨_, -, hok⟩ | ⟨_, _, herror, hlt⟩
  · rw [hprov] at hok
    cases hok
  · rw [hprov] at herror
    cases herror
    rcases hcause with ⟨-, hcount⟩ | ⟨hcause, -⟩
    · rw [insertRequests_of_hasRoom hroom] at hcount
      refine .refused (m := 0) (.refl htarget) hperm htraffic ?_ (by omega)
      rw [copyRequests_succ, grantedBefore_append_of_lt _ hlt, ← hcount]
      omega
    · cases hcause

/-- An entry that was copied, and all that copying the others can come to. -/
private theorem Copied.cons
    (hinserted : target.Inserted vacant path y e target.nodes.capacity mid rest)
    (hgrants : Grants memory [target.keyLayout, target.valueLayout] memory')
    (h : Copied repeats mid memory' (withLeaf path y e).size count outcome) :
    Copied repeats target memory (plug path Shape.absent).size (count + 1) outcome := by
  have hsize : (withLeaf path y e).size = (plug path Shape.absent).size + 1 := size_withLeaf
  have hfilled : ∀ {m : Nat} {after : Tree}, Filled mid ((withLeaf path y e).size + m) after →
      Filled target ((plug path Shape.absent).size + (m + 1)) after := by
    intro m after hf
    obtain ⟨t', v', ht', hm⟩ := hf.sound
    exact ⟨⟨t', v', ht', by omega⟩, hinserted.akin.trans hf.akin,
      hf.capacity.trans hinserted.capacity_eq⟩
  have hrequests : ∀ m : Nat, target.copyRequests (m + 1) =
      [target.keyLayout, target.valueLayout] ++ mid.copyRequests m := by
    intro m
    rw [copyRequests_succ, hinserted.akin.copyRequests_eq]
  cases h with
  | done hf hg =>
    refine .done (hfilled hf) ?_
    rw [hrequests]
    exact hgrants.trans hg
  | refused hf hperm htraffic hcount hlt =>
    refine .refused (hfilled hf) hperm ?_ ?_ (by omega)
    · rw [hrequests, List.append_assoc]
      exact hgrants.traffic.trans htraffic
    · rw [hrequests, hgrants.grantedBefore_append, ← hcount]
      simp only [List.length_cons, List.length_nil]
      omega
  | repeated hf htraffic hrepeats =>
    rw [hsize, Nat.add_assoc, Nat.add_comm 1] at hrepeats
    refine .repeated (hfilled hf) ?_ hrepeats
    rw [hrequests]
    exact hgrants.traffic.trans htraffic

end

/-- The entries of a tree from some node on, inserted into another with enough slots. -/
theorem exists_copied {pre post : List (Handle × Entry)} {fuel : Nat}
    (hsource : source.HasShape s) (hs : s.inorder = pre ++ post)
    (hadmits : ∀ e ∈ s.entries, source.Admits e) (htarget : target.Sound t vacant)
    (hakin : Akin source target) (hsub : t.entries ⊆ pre.map Prod.snd) (hlen : t.size = pre.length)
    (hcap : t.size + post.length ≤ target.nodes.capacity)
    (hmax : t.size + post.length ≤ Handle.maxIndex + 1) (hfuel : post.length ≤ fuel)
    (memory : α) :
    ∃ outcome calls,
      copyWithin source fuel (post.head?.map Prod.fst) target memory = .ok ⟨outcome, calls⟩ ∧
      Copied (Repeats source.comparator.compare s.entries) target memory t.size post.length
        outcome := by
  induction post generalizing pre target t vacant fuel memory with
  | nil =>
    refine ⟨⟨.ok (), target, memory⟩, [], ?_, .done (.refl htarget) (.nil memory)⟩
    rw [List.head?_nil, Option.map_none, copyWithin.eq_def]
    rfl
  | cons pair post ih =>
    obtain ⟨x, e⟩ := pair
    rw [List.length_cons] at hcap hmax hfuel
    obtain ⟨fuel, rfl⟩ : ∃ k, fuel = k + 1 := ⟨fuel - 1, by omega⟩
    have hmem : (x, e) ∈ s.inorder := by simp [hs]
    have hentries : s.entries = pre.map Prod.snd ++ e :: post.map Prod.snd := by
      simp [Shape.entries, hs]
    obtain ⟨node, hnode, rfl⟩ := hsource.exists_node_of_mem hmem
    have he : target.Admits node.entry :=
      (hadmits _ (List.mem_map.mpr ⟨_, hmem, rfl⟩)).akin hakin
    have hroom : target.nodes.HasRoom := by
      have hlive := htarget.live_eq
      exact htarget.wellFormed.hasRoom (by omega) (by omega)
    rw [List.head?_cons, Option.map_some, copyWithin, hnode, ok_bind, List.length_cons]
    rcases htarget.insert_cases memory node.entry.key node.entry.value with
      ⟨cause, calls, heq, -, hcause⟩ | ⟨cause, memory', calls, hprov, heq⟩ |
        ⟨path, y, capacity, m₁, mid, rest, calls, hprov, heq, rfl, hinserted⟩
    · -- The key counts as equal to one that was copied before.
      obtain ⟨rfl, e', he', hequal⟩ := hcause he
      have hrepeats : Repeats source.comparator.compare s.entries t.size :=
        ⟨_, _, _, hentries, by rw [List.length_map, hlen], e', hsub he',
          hakin.comparator ▸ hequal⟩
      refine ⟨⟨.error .keyExists, target, memory⟩, calls, ?_,
        .repeated (m := 0) (.refl htarget) (.refl memory) hrepeats⟩
      rw [heq]
      rfl
    · -- The memory refused a block.
      refine ⟨⟨.error cause, target, memory'⟩, calls, ?_, .ofProvision htarget hroom hprov⟩
      rw [heq]
      rfl
    · -- The entry was inserted, and the copy goes on.
      have hinserted : target.Inserted vacant path y node.entry capacity mid rest := hinserted
      obtain ⟨hgrants, hnodes⟩ := grants_of_provision hroom hprov
      obtain rfl : capacity = target.nodes.capacity := congrArg Arena.capacity hnodes
      have hnext : source.successor x = .ok (post.head?.map Prod.fst) :=
        hsource.neighbor (show s.toward .right = pre ++ (x, node.entry) :: post from hs)
      have hs' : s.inorder = (pre ++ [(x, node.entry)]) ++ post := by simp [hs]
      have hsub' : (withLeaf path y node.entry).entries ⊆
          (pre ++ [(x, node.entry)]).map Prod.snd := by
        intro e' he'
        rw [List.map_append, List.mem_append]
        rcases mem_entries_withLeaf.mp he' with rfl | he'
        · exact Or.inr (by simp)
        · exact Or.inl (hsub he')
      have hsize : (withLeaf path y node.entry).size = (plug path Shape.absent).size + 1 :=
        size_withLeaf
      obtain ⟨outcome, calls', hcopy, hcopied⟩ := ih hs' hinserted.sound
        (hakin.trans hinserted.akin) hsub' (by simp [hsize, hlen])
        (by rw [hinserted.capacity_eq]; omega) (by omega) (Nat.le_of_succ_le_succ hfuel) m₁
      refine ⟨outcome, calls ++ calls', ?_, .cons hinserted hgrants hcopied⟩
      rw [heq, ok_bind]
      simp only [hnext, ok_bind, hcopy, pure_eq_ok]

/-! ### Clones -/

/-- The empty tree that a clone starts from. -/
def blank (tree : Tree) : Tree :=
  { tree with nodes := { Arena.empty Node.footprint with capacity := tree.size }, root := none }

private theorem Sound.withCapacity_cases (h : tree.Sound s vacant) (memory : α) :
    (∃ memory', Grants memory (Arena.tableBlocks Node.footprint tree.size) memory' ∧
        withCapacity tree.keySize tree.valueSize tree.size tree.comparator memory =
          (.ok tree.blank, memory')) ∨
      ∃ memory' layout, Arena.tableBlocks Node.footprint tree.size = [layout] ∧
        Allocator.allocate memory layout = .refused memory' ∧
        withCapacity tree.keySize tree.valueSize tree.size tree.comparator memory =
          (.error .noMemory, memory') := by
  have hmax : tree.size ≤ Handle.maxIndex + 1 := h.wellFormed.live_le_max
  have hbound : tree.size * Node.footprint < Layout.bound := by
    refine Nat.lt_of_le_of_lt (Nat.mul_le_mul_right _ hmax) ?_
    decide
  rw [withCapacity, h.layouts]
  dsimp only
  rw [if_neg (Nat.not_lt.mpr hmax)]
  rcases Arena.withCapacity_cases hbound memory (ε := Node) with
    ⟨memory', hgrants, heq⟩ | ⟨memory', layout, hblocks, hrefused, heq⟩
  · rw [heq]
    exact Or.inl ⟨memory', hgrants, rfl⟩
  · rw [heq]
    exact Or.inr ⟨memory', layout, hblocks, hrefused, rfl⟩

private theorem Filled.dispose {copy : Tree} (h : Filled tree.blank n copy) (memory : α) :
    copy.dispose memory = .ok ((tree.blank.copyRequests n ++
      Arena.tableBlocks Node.footprint tree.size).foldl Allocator.release memory) := by
  obtain ⟨t, v, ht, rfl⟩ := h.sound
  have hslot : copy.nodes.slotSize = Node.footprint := ht.slotSize
  have hcap : copy.nodes.capacity = tree.size := h.capacity
  rw [ht.hasShape.dispose memory, iterate_releaseBlocks, h.akin.copyRequests_eq,
    Arena.releaseTable_eq, hslot, hcap, List.foldl_append]

/-- A copy that is given up has returned all that was granted for it. -/
private theorem Filled.traffic_of_dispose {copy : Tree} {middle : α} {gs rs : List Layout}
    (h : Filled tree.blank n copy)
    (hgrants : Grants memory (Arena.tableBlocks Node.footprint tree.size) middle)
    (hperm : gs.Perm rs) (htraffic : Traffic middle (tree.blank.copyRequests n ++ gs) rs memory') :
    ∃ gs' rs' after, copy.dispose memory' = .ok after ∧ gs'.Perm rs' ∧
      Traffic memory gs' rs' after ∧
      gs'.length = (Arena.tableBlocks Node.footprint tree.size).length + (2 * n + gs.length) := by
  refine ⟨_, _, _, h.dispose memory', ?_, hgrants.traffic.trans (htraffic.trans (.ofReleases ..)),
    ?_⟩
  · refine List.perm_iff_count.mpr fun layout => ?_
    simp only [List.count_append, List.count_nil, hperm.count_eq]
    omega
  · simp only [List.length_append, length_copyRequests, List.length_nil, Nat.add_zero]

/-- All that cloning a sound tree can do. -/
theorem Sound.clone_cases (h : tree.Sound s vacant) (memory : α) :
    (∃ copy memory' calls, tree.clone memory = .ok ⟨(.ok copy, memory'), calls⟩ ∧
        Filled tree.blank s.size copy ∧ Grants memory tree.cloneRequests memory') ∨
      ∃ cause gs rs memory' calls, tree.clone memory = .ok ⟨(.error cause, memory'), calls⟩ ∧
        gs.Perm rs ∧ Traffic memory gs rs memory' ∧
        (cause = .noMemory ∧ gs.length = Allocator.grantedBefore tree.cloneRequests memory ∧
            gs.length < tree.cloneRequests.length ∨
          cause = .keyExists ∧ ∃ k, Repeats tree.comparator.compare s.entries k ∧
            gs.length = (Arena.tableBlocks Node.footprint tree.size).length + 2 * k) := by
  have hfirst : tree.first = .ok (s.inorder.head?.map Prod.fst) := h.hasShape.outermost
  rw [clone, cloneRequests]
  rcases h.withCapacity_cases memory with
    ⟨m₁, hgrants, heq⟩ | ⟨m₁, layout, hblocks, hrefused, heq⟩
  · have hblank : tree.blank.Sound Shape.absent [] := .ofUnused h.layouts tree.size tree.comparator
    have hakin : Akin tree tree.blank := ⟨rfl, rfl, rfl⟩
    have hstart : s.inorder = [] ++ s.inorder := rfl
    have hplug : tree.HasShape (plug [] s) := h.hasShape
    have hlive := h.live_eq
    have hmax := h.wellFormed.live_le_max
    have hsize : (Shape.absent).size + s.inorder.length = s.size := Nat.zero_add _
    have hrequests : tree.copyRequests tree.size = tree.blank.copyRequests s.inorder.length := by
      rw [h.size_eq]
      rfl
    rw [heq]
    dsimp only
    rw [hfirst, ok_bind]
    obtain ⟨outcome, calls, hcopy, hcopied⟩ := exists_copied h.hasShape hstart h.admits hblank
      hakin (fun e he => by cases he) rfl (by rw [hsize]; exact Nat.le_of_eq hlive.symm)
      (by rw [hsize]; omega) (Nat.le_of_lt hplug.size_lt) m₁
    rw [hcopy, ok_bind]
    cases hcopied with
    | @done copy m₂ hf hg =>
      refine Or.inl ⟨copy, m₂, calls, rfl, hsize ▸ hf, ?_⟩
      rw [hrequests]
      exact hgrants.trans hg
    | @refused m gs rs copy m₂ hf hperm htraffic hcount hlt =>
      obtain ⟨gs', rs', m₃, hdispose, hperm', htraffic', hlength⟩ :=
        Filled.traffic_of_dispose (Nat.zero_add m ▸ hf) hgrants hperm htraffic
      refine Or.inr ⟨.noMemory, gs', rs', m₃, calls, ?_, hperm', htraffic', Or.inl ⟨rfl, ?_, ?_⟩⟩
      · simp only [hdispose, ok_bind, pure_eq_ok]
      · rw [hrequests, hgrants.grantedBefore_append, ← hcount, hlength]
      · rw [hlength, hrequests, List.length_append, length_copyRequests]
        omega
    | @repeated m copy m₂ hf htraffic hrepeats =>
      have htraffic : Traffic m₁ (tree.blank.copyRequests m ++ []) [] m₂ := by
        rw [List.append_nil]
        exact htraffic
      obtain ⟨gs', rs', m₃, hdispose, hperm', htraffic', hlength⟩ :=
        Filled.traffic_of_dispose (Nat.zero_add m ▸ hf) hgrants (.refl []) htraffic
      refine Or.inr ⟨.keyExists, gs', rs', m₃, calls, ?_, hperm', htraffic',
        Or.inr ⟨rfl, m, Nat.zero_add m ▸ hrepeats, hlength⟩⟩
      simp only [hdispose, ok_bind, pure_eq_ok]
  · refine Or.inr ⟨.noMemory, [], [], m₁, [], ?_, .refl [], .refused hrefused (.refl m₁),
      Or.inl ⟨rfl, ?_, ?_⟩⟩
    · rw [heq]
      rfl
    · rw [hblocks, List.singleton_append, grantedBefore_of_refused hrefused]
      rfl
    · rw [hblocks, List.singleton_append]
      exact Nat.succ_pos _

end Tree

end MeteredMap
