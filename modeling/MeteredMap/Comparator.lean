import MeteredMap.Blob

/-!
# Comparators

A map orders its keys by a comparator that its owner supplies. Nothing is required of it: a map
follows whatever answers it gets, and only what it promises depends on them. A comparator also
takes up room in the map that carries it, which the map reports as part of its own size.

## Main definitions

* `MeteredMap.Comparator` : a three-way comparison with the bytes it takes up.
* `MeteredMap.Comparator.lexicographic` : the order of byte strings, which needs no room.
* `MeteredMap.Comparator.supplied` : a comparison supplied by reference, which takes one word.
-/

namespace MeteredMap

/-- A three-way comparison of keys, together with the bytes that carrying it costs a map. -/
structure Comparator where
  /-- How the first key stands to the second. -/
  compare : Blob → Blob → Ordering
  /-- Bytes that the comparator takes up inside a map. -/
  footprint : Nat

/-- Byte strings in dictionary order: the first differing byte decides, read as an unsigned
number, and a proper beginning comes before the whole. -/
def Blob.lexCompare (a b : Blob) : Ordering :=
  List.compareLex compare a b

namespace Comparator

/-- Dictionary order. It has no state, so it takes up no room. -/
def lexicographic : Comparator where
  compare := Blob.lexCompare
  footprint := 0

/-- A comparison that the map reaches through a reference of one word. -/
def supplied (compare : Blob → Blob → Ordering) : Comparator where
  compare
  footprint := 8

end Comparator

end MeteredMap
