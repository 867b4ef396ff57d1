import MeteredMap.Proofs.Dictionary.Basic
import MeteredMap.Proofs.Equality
import MeteredMap.Proofs.Memory.Requests
import MeteredMap.Proofs.Preflight

/-!
# The verdict on an insertion

What an insertion answers is settled beforehand, by the lengths of the key and of the value, by the
keys that are stored, and by the bytes that are left of the budget. The three requests that it may
have to make, one after the other, come down to one sum.

## Main definitions

* `MeteredMap.Tree.growth` : the bytes of the larger slot table that the next insertion needs.
* `MeteredMap.Tree.verdict` : the answer to an insertion, told from the entries stored.

## Main results

* `MeteredMap.Tree.Sound.insertRequests_eq` : the sizes and the number of the requests.
* `MeteredMap.Tree.Sound.verdict_cases` : what is settled before the first request.
* `MeteredMap.Tree.Reachable.insert_verdict` : the answer to an insertion, and its requests.
-/

namespace MeteredMap

namespace Arena

variable {ε α : Type} [Allocator α] {arena nodes : Arena ε} {memory memory' : α}

/-- A reservation that succeeds was granted its requests, and gives back what it has no use for any
more. -/
theorem grants_of_reserve (h : arena.reserve memory = ⟨.ok (), nodes, memory'⟩) :
    ∃ (middle : α) (rs : List Layout), Grants memory arena.growthRequests middle ∧
      memory' = rs.foldl Allocator.release middle := by
  rcases reserve_cases arena memory with
    ⟨hroom, heq⟩ | ⟨-, heq⟩ | ⟨⟨hfree, hmax, hcap⟩, heq⟩
  · rw [heq] at h
    cases h
    rw [growthRequests_of_hasRoom hroom]
    exact ⟨memory, [], .nil memory, rfl⟩
  · rw [heq] at h
    cases h
  · rw [growthRequests_of_full hfree hmax hcap]
    rw [heq, grow] at h
    split at h
    · cases h
    · next layout htable =>
      split at h
      · cases h
      · next middle hreply =>
        cases h
        rw [htable]
        exact ⟨middle, _, .cons hreply (.nil middle), releaseTable_eq arena middle⟩

end Arena

namespace Tree

open Shape

variable {α : Type} [Allocator α] {tree : Tree} {memory memory' : α} {s : Shape}
  {vacant : List Handle} {nodes : Arena Node} {path : List Frame} {key value : Blob}

/-! ### The requests of an insertion -/

/-- A provision that succeeds was granted the requests of an insertion. -/
theorem grants_of_provision_ok (h : tree.provision memory = ⟨.ok (), nodes, memory'⟩) :
    ∃ (middle : α) (rs : List Layout), Grants memory tree.insertRequests middle ∧
      memory' = rs.foldl Allocator.release middle := by
  obtain ⟨first, hblocks, hreserve⟩ := grants_of_provision_eq_ok h
  obtain ⟨middle, rs, hgrants, hreleased⟩ := Arena.grants_of_reserve hreserve
  exact ⟨middle, rs, hblocks.trans hgrants, hreleased⟩

/-- A key that a search does not find is refused for want of memory or of handles, or it is inserted
and the requests of an insertion were granted. -/
theorem Sound.insert_of_place (h : tree.Sound (plug path absent) vacant) (memory : α)
    (hkey : key.length = tree.keySize) (hvalue : value.length = tree.valueSize)
    (hplace : locate tree.comparator.compare key [] (plug path absent) = (path, absent)) :
    (∃ cause memory' calls, tree.refusal memory = some cause ∧
        tree.insert memory key value = .ok ⟨⟨.error cause, tree, memory'⟩, calls⟩) ∨
      ∃ x after middle calls, ∃ rs : List Layout, tree.refusal memory = none ∧
        tree.insert memory key value =
          .ok ⟨⟨.ok x, after, rs.foldl Allocator.release middle⟩, calls⟩ ∧
        Grants memory tree.insertRequests middle := by
  rcases h.provision memory with ⟨cause, memory', hprov⟩ | ⟨capacity, memory', hprov, hle, hroom⟩
  · exact Or.inl ⟨cause, memory', _, h.refusal_of_provision_error hprov,
      h.insert_of_refused hkey hvalue hplace hprov⟩
  · obtain ⟨x, after, rest, heq, -⟩ := h.insert_of_granted hkey hvalue hplace hle hroom hprov
    obtain ⟨middle, rs, hgrants, rfl⟩ := grants_of_provision_ok hprov
    exact Or.inr ⟨x, after, middle, _, rs, h.refusal_of_provision_ok hprov, heq, hgrants⟩

/-- The bytes of the larger slot table that the next insertion needs, if it needs one. -/
def growth (tree : Tree) : Nat :=
  if tree.size < tree.capacity then 0
  else 48 * max (max (2 * tree.capacity) (tree.capacity + 1)) 4

/-- The requests of an insertion come to the lengths of the key and of the value and, if the slot
table is full, to those of a larger one. -/
theorem Sound.insertRequests_eq (h : tree.Sound s vacant) (hmax : tree.size ≤ Handle.maxIndex) :
    (tree.insertRequests.map Layout.size).sum = tree.keySize + tree.valueSize + tree.growth ∧
      tree.insertRequests.length = if tree.growth = 0 then 2 else 3 := by
  have hsum := h.sum_insertRequests hmax
  rw [demand] at hsum
  rw [growth]
  rcases h.wellFormed.growth_cases h.slotSize hmax with ⟨hlt, -, hrequests⟩ | ⟨heq, -, hrequests⟩
  · have hfree : tree.size < tree.capacity := hlt
    simp only [if_pos hfree, Node.footprint] at hsum ⊢
    refine ⟨by omega, ?_⟩
    rw [insertRequests, hrequests]
    rfl
  · have hfull : ¬ tree.size < tree.capacity := Nat.not_lt.mpr (Nat.le_of_eq heq.symm)
    simp only [if_neg hfull, Node.footprint] at hsum ⊢
    refine ⟨by omega, ?_⟩
    rw [insertRequests, hrequests, if_neg (by omega)]
    rfl

/-! ### The verdict -/

/-- The answer to an insertion, told from the entries stored and from the bytes that are left. -/
def verdict (tree : Tree) (stored : List Entry) (left : Nat) (key value : Blob) :
    Except MapError Unit :=
  if key.length ≠ tree.keySize then .error (.keySize tree.keySize key.length)
  else if value.length ≠ tree.valueSize then .error (.valueSize tree.valueSize value.length)
  else if ∃ e ∈ stored, tree.comparator.compare key e.key = .eq then .error .keyExists
  else if left < tree.keySize + tree.valueSize + tree.growth then .error .noMemory
  else .ok ()

/-- Either an insertion comes to nothing for a reason that has nothing to do with memory, and then
it makes no request, or its key belongs where a search for it ends. -/
theorem Sound.verdict_cases (h : tree.Sound s vacant)
    (ho : OrdersKeys tree.comparator.compare tree.keySize) (key value : Blob) :
    (∃ e calls, e ≠ .noMemory ∧ (∀ left, tree.verdict s.entries left key value = .error e) ∧
        ∀ (β : Type) [Allocator β] (memory : β),
          tree.insert memory key value = .ok ⟨⟨.error e, tree, memory⟩, calls⟩) ∨
      ∃ path, s = plug path absent ∧
        locate tree.comparator.compare key [] (plug path absent) = (path, absent) ∧
        key.length = tree.keySize ∧ value.length = tree.valueSize ∧
        ∀ left, tree.verdict s.entries left key value =
          if left < tree.keySize + tree.valueSize + tree.growth then .error .noMemory
          else .ok () := by
  unfold verdict
  by_cases hkey : key.length = tree.keySize
  · by_cases hvalue : value.length = tree.valueSize
    · rcases hplace : locate tree.comparator.compare key [] s with ⟨path, t⟩
      by_cases hfound : t = absent
      · have hplug := plug_locate tree.comparator.compare key [] s
        rw [hplace, hfound] at hplug
        obtain rfl : plug path absent = s := hplug
        have hcut := cut_of_locate ho hkey h.length_key (h.ordered ho) (hfound ▸ hplace)
        have hnone : ¬ ∃ e ∈ (plug path absent).entries,
            tree.comparator.compare key e.key = .eq := by
          rintro ⟨e, he, hequal⟩
          rw [entries_plug_absent] at he
          exact hcut.ne_eq_of_mem he hequal
        refine Or.inr ⟨path, rfl, hfound ▸ hplace, hkey, hvalue, fun left => ?_⟩
        rw [if_neg (not_not.mpr hkey), if_neg (not_not.mpr hvalue), if_neg hnone]
      · have hfound' : (locate tree.comparator.compare key [] s).2 ≠ absent := by
          rw [hplace]
          exact hfound
        refine Or.inl ⟨.keyExists, _, MapError.noConfusion, fun left => ?_, fun β _ memory =>
          h.insert_of_found memory hkey hvalue hfound'⟩
        rw [if_neg (not_not.mpr hkey), if_neg (not_not.mpr hvalue),
          if_pos (exists_equal_of_locate hfound')]
    · refine Or.inl ⟨.valueSize tree.valueSize value.length, [], MapError.noConfusion,
        fun left => ?_, fun β _ memory => insert_of_badValue tree memory hkey hvalue⟩
      rw [if_neg (not_not.mpr hkey), if_pos hvalue]
  · exact Or.inl ⟨.keySize tree.keySize key.length, [], MapError.noConfusion,
      fun left => if_pos hkey, fun β _ memory => insert_of_badKey tree memory value hkey⟩

/-- An insertion into a reachable tree whose comparator orders its keys, under a budget over a
memory that grants every request, while there is a handle left. Its answer is the verdict. Unless it
is for want of memory, an insertion that fails makes no request, in whatever memory. One that
succeeds makes two requests, or three if the slot table is full, and all of them are granted. -/
theorem Reachable.insert_verdict (hr : Reachable tree) (hsize : tree.size < 2 ^ 32 - 1)
    (ho : OrdersKeys tree.comparator.compare tree.keySize) {budget : Budget α}
    (hg : Allocator.Generous budget.inner) (key value : Blob) :
    ∃ stored answer after calls, ∃ recorded : Recorded (Budget α),
      tree.entries = .ok stored ∧
      tree.insert budget key value = .ok ⟨⟨answer, after, recorded.memory⟩, calls⟩ ∧
      tree.insert (⟨budget, []⟩ : Recorded (Budget α)) key value =
        .ok ⟨⟨answer, after, recorded⟩, calls⟩ ∧
      answer.map (fun _ => ()) =
        tree.verdict stored (budget.limit.toNat - budget.inUse.toNat) key value ∧
      (∀ e, answer = .error e → e ≠ .noMemory → recorded.events = [] ∧
        ∀ (β : Type) [Allocator β] (memory : β),
          tree.insert memory key value = .ok ⟨⟨.error e, tree, memory⟩, calls⟩) ∧
      ∀ x, answer = .ok x → recorded.requests = recorded.granted ∧
        recorded.granted.length = if tree.growth = 0 then 2 else 3 := by
  obtain ⟨s, vacant, h⟩ := hr.sound
  have hentries : tree.entries = .ok s.entries := h.hasShape.entries h.live_eq
  have hmax : tree.size ≤ Handle.maxIndex := by
    rw [Handle.maxIndex]
    omega
  -- The run in the memory itself is read off the run in the recorded one.
  have hplain : ∀ {answer after calls} {recorded : Recorded (Budget α)},
      tree.insert (⟨budget, []⟩ : Recorded (Budget α)) key value =
        .ok ⟨⟨answer, after, recorded⟩, calls⟩ →
      tree.insert budget key value = .ok ⟨⟨answer, after, recorded.memory⟩, calls⟩ := by
    intro answer after calls recorded heq
    have htranslate := insert_translate Recorded.translation.toTranslation tree
      (⟨budget, []⟩ : Recorded (Budget α)) key value
    rw [heq] at htranslate
    exact htranslate
  rcases h.verdict_cases ho key value with
    ⟨e, calls, hne, hverdict, hinsert⟩ | ⟨path, rfl, hplace, hkey, hvalue, hverdict⟩
  · have heq := hinsert _ (⟨budget, []⟩ : Recorded (Budget α))
    refine ⟨s.entries, .error e, tree, calls, _, hentries, hplain heq, heq, (hverdict _).symm, ?_,
      by rintro x ⟨⟩⟩
    rintro e ⟨⟩ -
    exact ⟨rfl, hinsert⟩
  · obtain ⟨hsum, hlength⟩ := h.insertRequests_eq hmax
    have hrefusal : tree.refusal (⟨budget, []⟩ : Recorded (Budget α)) =
        if budget.remaining < tree.keySize + tree.valueSize + tree.growth then some .noMemory
        else none := by
      rw [← hsum, ← refusal_eq hmax hg, refusal, refusal,
        ← Recorded.translation.toTranslation.grantedBefore]
    rcases h.insert_of_place (⟨budget, []⟩ : Recorded (Budget α)) hkey hvalue hplace with
      ⟨cause, recorded, calls, hcause, heq⟩ | ⟨x, after, middle, calls, rs, hnone, heq, hgrants⟩
    · rw [hrefusal] at hcause
      split at hcause
      · next hlt =>
        cases hcause
        refine ⟨_, _, tree, calls, recorded, hentries, hplain heq, heq, ?_, ?_, by rintro x ⟨⟩⟩
        · rw [hverdict]
          exact (if_pos hlt).symm
        · rintro e ⟨⟩ hne
          exact absurd rfl hne
      · cases hcause
    · rw [hrefusal] at hnone
      split at hnone
      · cases hnone
      · next hfits =>
        refine ⟨_, _, after, calls, _, hentries, hplain heq, heq, ?_, by rintro e ⟨⟩, ?_⟩
        · rw [hverdict]
          exact (if_neg hfits).symm
        · intro _ _
          obtain ⟨hrequests, hgranted⟩ := hgrants.lists_eq
          obtain ⟨hrequests', hgranted'⟩ := Recorded.lists_of_releases middle rs
          rw [hrequests', hgranted', hrequests, hgranted]
          exact ⟨rfl, hlength⟩

/-- Four insertions fill a table. Of a budget of 400 bytes 200 are left then, so that a fifth key is
refused, and a stored one without any request. Under a limit of 1000 bytes the fifth key is inserted
by three requests. -/
theorem Reachable.insert_verdict_sample :
    ∃ full, Operation.runAll (sampleRun.take 4) sampleTree sampleMemory =
        .ok (full, ⟨⟨none⟩, 400, 200, 9, 9⟩) ∧ full.growth = 384 ∧
      (∃ after memory' calls, full.insert (⟨⟨none⟩, 400, 200, 9, 9⟩ : Budget Heap) [5] [0] =
        .ok ⟨⟨.error .noMemory, after, memory'⟩, calls⟩) ∧
      (∃ calls, full.insert (⟨⟨⟨none⟩, 400, 200, 9, 9⟩, []⟩ : Recorded (Budget Heap)) [4] [0] =
        .ok ⟨⟨.error .keyExists, full, ⟨⟨⟨none⟩, 400, 200, 9, 9⟩, []⟩⟩, calls⟩) ∧
      ∃ x after recorded calls,
        full.insert (⟨⟨⟨none⟩, 1000, 200, 9, 9⟩, []⟩ : Recorded (Budget Heap)) [5] [0] =
          .ok ⟨⟨.ok x, after, recorded⟩, calls⟩ ∧ recorded.granted.length = 3 := by
  obtain ⟨full, memory', hrun, hfull⟩ := exists_sampleRun_take 4
  have hfacts : (Operation.runAll (sampleRun.take 4) sampleTree sampleMemory).map
      (fun p => (p.1.size, p.1.growth, p.1.comparator, p.2)) =
        .ok (4, 384, .lexicographic, ⟨⟨none⟩, 400, 200, 9, 9⟩) := rfl
  have hverdicts : (Operation.runAll (sampleRun.take 4) sampleTree sampleMemory >>= fun p =>
      p.1.entries.map fun stored => (p.1.verdict stored 200 [5] [0], p.1.verdict stored 200 [4] [0],
        p.1.verdict stored 800 [5] [0])) =
      .ok (.error .noMemory, .error .keyExists, .ok ()) := rfl
  rw [hrun] at hfacts hverdicts
  simp only [Except.map, Except.ok.injEq, Prod.mk.injEq] at hfacts
  obtain ⟨hsize, hgrowth, hcomparator, rfl⟩ := hfacts
  have hroom : full.size < 2 ^ 32 - 1 := by omega
  have ho : OrdersKeys full.comparator.compare full.keySize := by
    rw [hcomparator]
    exact .ofTransCmp Blob.lexCompare full.keySize
  have hnarrow : Allocator.Generous (⟨⟨none⟩, 400, 200, 9, 9⟩ : Budget Heap).inner := Heap.generous
  have hwide : Allocator.Generous (⟨⟨none⟩, 1000, 200, 9, 9⟩ : Budget Heap).inner := Heap.generous
  obtain ⟨stored, answer, after, calls, narrow, hentries, hfifth, -, hfifth', -, -⟩ :=
    Reachable.insert_verdict hfull hroom ho hnarrow [5] [0]
  obtain ⟨stored₂, answer₂, _, calls₂, _, hentries₂, -, -, hfourth', hsilent, -⟩ :=
    Reachable.insert_verdict hfull hroom ho hnarrow [4] [0]
  obtain ⟨stored₃, answer₃, after₃, calls₃, wide, hentries₃, -, hlarger, hlarger', -, hgranted⟩ :=
    Reachable.insert_verdict hfull hroom ho hwide [5] [0]
  obtain rfl := Except.ok.inj (hentries.symm.trans hentries₂)
  obtain rfl := Except.ok.inj (hentries.symm.trans hentries₃)
  rw [ok_bind, hentries] at hverdicts
  simp only [Except.map, Except.ok.injEq, Prod.mk.injEq] at hverdicts
  obtain ⟨hnoMemory, hkeyExists, hroomy⟩ := hverdicts
  rw [show (400 : UInt64).toNat - (200 : UInt64).toNat = 200 from rfl] at hfifth' hfourth'
  rw [show (1000 : UInt64).toNat - (200 : UInt64).toNat = 800 from rfl] at hlarger'
  rw [hnoMemory] at hfifth'
  rw [hkeyExists] at hfourth'
  rw [hroomy] at hlarger'
  refine ⟨full, hrun, hgrowth, ⟨after, narrow.memory, calls, ?_⟩, ⟨calls₂, ?_⟩, ?_⟩
  · cases answer with
    | ok x => cases hfifth'
    | error e =>
      cases hfifth'
      exact hfifth
  · cases answer₂ with
    | ok x => cases hfourth'
    | error e =>
      cases hfourth'
      exact (hsilent _ rfl MapError.noConfusion).2 _ _
  · cases answer₃ with
    | error e => cases hlarger'
    | ok x =>
      obtain ⟨-, hlength⟩ := hgranted x rfl
      rw [hgrowth] at hlength
      exact ⟨x, after₃, wide, calls₃, hlarger, hlength⟩

end Tree

end MeteredMap
