import MeteredMap.Comparator.Orders
import MeteredMap.Proofs.Shape.Search

/-!
# Ascending entries

What a shape gains from a comparator that orders its keys. The comparator then splits ascending
entries into those before a key and those after it, with at most one between them that counts as
equal, and a search finds that very place.

## Main definitions

* `MeteredMap.OrdersKeys` : comparisons that order the keys of a length.
* `MeteredMap.Ascending` : entries in strictly ascending order.
* `MeteredMap.Cut` : entries before a key and entries after it.

## Main results

* `MeteredMap.Ascending.inserted`, `MeteredMap.Ascending.overwritten` : changes of ascending
  entries.
* `MeteredMap.Ascending.cut` : the entries around one that counts as equal.
* `MeteredMap.Shape.cut_of_locate` : the entries around the place where a search failed.
-/

namespace MeteredMap

/-- On keys of `size` bytes, the comparison answers as a total preorder does. Different keys may
count as equal. -/
structure OrdersKeys (compare : Blob → Blob → Ordering) (size : Nat) : Prop where
  lt_iff_gt {a b : Blob} (ha : a.length = size) (hb : b.length = size) :
    compare a b = .lt ↔ compare b a = .gt
  eq_refl {a : Blob} (ha : a.length = size) : compare a a = .eq
  eq_symm {a b : Blob} (ha : a.length = size) (hb : b.length = size) (h : compare a b = .eq) :
    compare b a = .eq
  eq_trans {a b c : Blob} (ha : a.length = size) (hb : b.length = size) (hc : c.length = size)
    (hab : compare a b = .eq) (hbc : compare b c = .eq) : compare a c = .eq
  lt_trans {a b c : Blob} (ha : a.length = size) (hb : b.length = size) (hc : c.length = size)
    (hab : compare a b = .lt) (hbc : compare b c = .lt) : compare a c = .lt
  lt_of_lt_of_eq {a b c : Blob} (ha : a.length = size) (hb : b.length = size)
    (hc : c.length = size) (hab : compare a b = .lt) (hbc : compare b c = .eq) :
    compare a c = .lt
  lt_of_eq_of_lt {a b c : Blob} (ha : a.length = size) (hb : b.length = size)
    (hc : c.length = size) (hab : compare a b = .eq) (hbc : compare b c = .lt) :
    compare a c = .lt

/-- A lawful comparison of images orders the keys of every length. -/
theorem OrdersKeys.ofImage {β : Type} (compare : β → β → Ordering) [Std.TransCmp compare]
    (image : Blob → β) (size : Nat) :
    OrdersKeys (fun a b => compare (image a) (image b)) size where
  lt_iff_gt _ _ := Std.OrientedCmp.gt_iff_lt.symm
  eq_refl _ := Std.ReflCmp.compare_self
  eq_symm _ _ h := Std.OrientedCmp.eq_symm h
  eq_trans _ _ _ hab hbc := Std.TransCmp.eq_trans hab hbc
  lt_trans _ _ _ hab hbc := Std.TransCmp.lt_trans hab hbc
  lt_of_lt_of_eq _ _ _ hab hbc := Std.TransCmp.lt_of_lt_of_eq hab hbc
  lt_of_eq_of_lt _ _ _ hab hbc := Std.TransCmp.lt_of_eq_of_lt hab hbc

/-- Dictionary order that ignores case, under which different keys count as equal. -/
theorem OrdersKeys.caseless (size : Nat) : OrdersKeys Blob.caselessCompare size :=
  .ofImage (List.compareLex compare) (List.map Blob.lowerByte) size

/-- Entries in strictly ascending order of their keys. -/
def Ascending (compare : Blob → Blob → Ordering) (entries : List Entry) : Prop :=
  entries.Pairwise fun d e => compare d.key e.key = .lt

/-- Entries before a key and entries after it. -/
structure Cut (compare : Blob → Blob → Ordering) (key : Blob) (pre post : List Entry) : Prop where
  before (d : Entry) (h : d ∈ pre) : compare key d.key = .gt
  after (d : Entry) (h : d ∈ post) : compare key d.key = .lt

variable {compare : Blob → Blob → Ordering} {size : Nat} {key : Blob} {e e' : Entry}
  {pre post : List Entry}

namespace Ascending

/-- The entries around one that counts as equal to a key. -/
theorem cut (h : Ascending compare (pre ++ e :: post)) (ho : OrdersKeys compare size)
    (hlength : ∀ d ∈ pre ++ e :: post, d.key.length = size) (hkey : key.length = size)
    (hequal : compare key e.key = .eq) : Cut compare key pre post := by
  obtain ⟨-, htail, hcross⟩ := List.pairwise_append.mp h
  have he : e.key.length = size := hlength e (by simp)
  constructor
  · intro d hd
    have hdlength : d.key.length = size := hlength d (by simp [hd])
    have hde : compare d.key e.key = .lt := hcross d hd e List.mem_cons_self
    have hlt : compare d.key key = .lt :=
      ho.lt_of_lt_of_eq hdlength he hkey hde (ho.eq_symm hkey he hequal)
    exact (ho.lt_iff_gt hdlength hkey).mp hlt
  · intro d hd
    have hdlength : d.key.length = size := hlength d (by simp [hd])
    exact ho.lt_of_eq_of_lt hkey he hdlength hequal (List.rel_of_pairwise_cons htail hd)

/-- An entry put where its key belongs. -/
theorem inserted (h : Ascending compare (pre ++ post)) (ho : OrdersKeys compare size)
    (hlength : ∀ d ∈ pre ++ post, d.key.length = size) (he : e.key.length = size)
    (hcut : Cut compare e.key pre post) : Ascending compare (pre ++ e :: post) := by
  obtain ⟨hpre, hpost, hcross⟩ := List.pairwise_append.mp h
  refine List.pairwise_append.mpr ⟨hpre, List.pairwise_cons.mpr ⟨hcut.after, hpost⟩,
    fun d hd d' hd' => ?_⟩
  rcases List.mem_cons.mp hd' with rfl | hd'
  · exact (ho.lt_iff_gt (hlength d (by simp [hd])) he).mpr (hcut.before d hd)
  · exact hcross d hd d' hd'

/-- An entry taken out. -/
theorem removed (h : Ascending compare (pre ++ e :: post)) : Ascending compare (pre ++ post) :=
  h.sublist ((List.sublist_cons_self e post).append_left pre)

/-- An entry replaced by one with the same key. -/
theorem overwritten (h : Ascending compare (pre ++ e :: post)) (hkey : e'.key = e.key) :
    Ascending compare (pre ++ e' :: post) := by
  obtain ⟨hpre, htail, hcross⟩ := List.pairwise_append.mp h
  obtain ⟨hhead, hpost⟩ := List.pairwise_cons.mp htail
  refine List.pairwise_append.mpr ⟨hpre, List.pairwise_cons.mpr ⟨fun d hd => ?_, hpost⟩,
    fun d hd d' hd' => ?_⟩
  · rw [hkey]
    exact hhead d hd
  · rcases List.mem_cons.mp hd' with rfl | hd'
    · rw [hkey]
      exact hcross d hd e List.mem_cons_self
    · exact hcross d hd d' (List.mem_cons_of_mem e hd')

end Ascending

/-! ### Searches -/

namespace Shape

variable {path path' : List Frame} {s : Shape}

/-- A search that fails below a path cuts the entries of the shape it goes through. -/
private theorem exists_cut_of_locate (ho : OrdersKeys compare size) (hkey : key.length = size)
    (hlength : ∀ d ∈ s.entries, d.key.length = size) (hs : Ascending compare s.entries)
    (h : locate compare key path s = (path', absent)) :
    ∃ pre post, Cut compare key pre post ∧
      (pathBefore path').map Prod.snd = (pathBefore path).map Prod.snd ++ pre ∧
      (pathAfter path').map Prod.snd = post ++ (pathAfter path).map Prod.snd := by
  induction s generalizing path with
  | absent =>
    cases h
    exact ⟨[], [], ⟨by simp, by simp⟩, by simp, by simp⟩
  | node c x e l r ihl ihr =>
    have hsplit : (node c x e l r).entries = l.entries ++ e :: r.entries := by
      simp [entries, inorder]
    rw [hsplit] at hlength hs
    obtain ⟨hl, htail, hcross⟩ := List.pairwise_append.mp hs
    obtain ⟨hhead, hr⟩ := List.pairwise_cons.mp htail
    have he : e.key.length = size := hlength e (by simp)
    rw [locate] at h
    cases hcompare : compare key e.key with
    | lt =>
      rw [hcompare] at h
      obtain ⟨pre, post, hcut, hbefore, hafter⟩ :=
        ihl (fun d hd => hlength d (by simp [hd])) hl h
      refine ⟨pre, post ++ e :: r.entries, ⟨hcut.before, fun d hd => ?_⟩, ?_, ?_⟩
      · rcases List.mem_append.mp hd with hd | hd
        · exact hcut.after d hd
        rcases List.mem_cons.mp hd with rfl | hd
        · exact hcompare
        · exact ho.lt_trans hkey he (hlength d (by simp [hd])) hcompare (hhead d hd)
      · rw [hbefore]
        simp [pathBefore, Frame.before]
      · rw [hafter]
        simp [pathAfter, Frame.after, entries]
    | eq =>
      rw [hcompare] at h
      cases h
    | gt =>
      rw [hcompare] at h
      obtain ⟨pre, post, hcut, hbefore, hafter⟩ :=
        ihr (fun d hd => hlength d (by simp [hd])) hr h
      have hkey' : compare e.key key = .lt := (ho.lt_iff_gt he hkey).mpr hcompare
      refine ⟨l.entries ++ e :: pre, post, ⟨fun d hd => ?_, hcut.after⟩, ?_, ?_⟩
      · rcases List.mem_append.mp hd with hd | hd
        · have hdlength : d.key.length = size := hlength d (by simp [hd])
          have hde : compare d.key e.key = .lt := hcross d hd e List.mem_cons_self
          exact (ho.lt_iff_gt hdlength hkey).mp (ho.lt_trans hdlength he hkey hde hkey')
        rcases List.mem_cons.mp hd with rfl | hd
        · exact hcompare
        · exact hcut.before d hd
      · rw [hbefore]
        simp [pathBefore, Frame.before, entries]
      · rw [hafter]
        simp [pathAfter, Frame.after]

/-- The entries around the place where a search failed are those before the key and those
after. -/
theorem cut_of_locate (ho : OrdersKeys compare size) (hkey : key.length = size)
    (hlength : ∀ d ∈ s.entries, d.key.length = size) (hs : Ascending compare s.entries)
    (h : locate compare key [] s = (path, absent)) :
    Cut compare key ((pathBefore path).map Prod.snd) ((pathAfter path).map Prod.snd) := by
  obtain ⟨pre, post, hcut, hbefore, hafter⟩ := exists_cut_of_locate ho hkey hlength hs h
  rw [hbefore, hafter]
  simpa [pathBefore, pathAfter] using hcut

end Shape

end MeteredMap
