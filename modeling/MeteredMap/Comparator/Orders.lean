import MeteredMap.Comparator

/-!
# Further orders on keys

A gallery of comparisons that owners of maps supply. Most of them are total preorders, some with
different keys that count as equal; `Blob.neverEqualCompare` is no order at all, and a map that
uses it keeps several entries of one key.
-/

namespace MeteredMap

namespace Blob

/-- Dictionary order, backwards. -/
def reverseCompare (a b : Blob) : Ordering :=
  lexCompare b a

/-- The last byte decides first, so that equally long blobs are compared as unsigned numbers
whose least significant byte comes first. -/
def littleEndianCompare (a b : Blob) : Ordering :=
  lexCompare a.reverse b.reverse

/-- A byte moved by half the range, so that the unsigned order of the results is the signed
order of the arguments. -/
def signKey (byte : UInt8) : UInt8 :=
  byte ^^^ 0x80

/-- The first byte is compared as a signed number and the rest in dictionary order, so that
equally long blobs are compared as signed numbers whose most significant byte comes first. -/
def signedCompare (a b : Blob) : Ordering :=
  lexCompare (a.modifyHead signKey) (b.modifyHead signKey)

/-- Only the first byte counts. -/
def firstByteCompare (a b : Blob) : Ordering :=
  lexCompare (a.take 1) (b.take 1)

/-- The byte with `A` to `Z` turned into `a` to `z`. -/
def lowerByte (byte : UInt8) : UInt8 :=
  if 0x41 ≤ byte ∧ byte ≤ 0x5a then byte + 0x20 else byte

/-- Dictionary order that ignores the case of the letters `A` to `Z`. -/
def caselessCompare (a b : Blob) : Ordering :=
  lexCompare (a.map lowerByte) (b.map lowerByte)

/-- All blobs count as equal. -/
def allEqualCompare (_ _ : Blob) : Ordering :=
  .eq

/-- Dictionary order, except that equal blobs count as standing after each other. -/
def neverEqualCompare (a b : Blob) : Ordering :=
  match lexCompare a b with
  | .lt => .lt
  | .eq => .gt
  | .gt => .gt

end Blob

end MeteredMap
