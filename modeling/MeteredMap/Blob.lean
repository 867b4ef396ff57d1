/-!
# Blobs

Keys and values are opaque runs of bytes. This module fixes their type and the one way in which
a caller may change a stored value: writing bytes over it in place.

## Main definitions

* `MeteredMap.Blob` : a finite run of bytes.
* `MeteredMap.Blob.overwrite` : bytes written over a blob from an offset on, as far as they fit.
-/

namespace MeteredMap

/-- A key or a value: a finite run of bytes. -/
abbrev Blob := List UInt8

namespace Blob

/-- The blob with `bytes` written over it from `offset` on. What would pass the end is dropped,
so the length stays what it was. -/
def overwrite (old bytes : Blob) (offset : Nat) : Blob :=
  old.take offset ++ (bytes.take (old.length - offset) ++ old.drop (offset + bytes.length))

theorem length_overwrite (old bytes : Blob) (offset : Nat) :
    (overwrite old bytes offset).length = old.length := by
  simp only [overwrite, List.length_append, List.length_take, List.length_drop]
  omega

end Blob

end MeteredMap
