/-!
# Errors

The ways in which an operation of the map can fail, as causes. The wording is in
`MapError.message`, and nothing else depends on it.

## Main definitions

* `MeteredMap.MapError` : why an operation failed.
* `MeteredMap.InvalidArgument` : what was wrong with the arguments of a constructor.
-/

namespace MeteredMap

/-- What was wrong with the arguments of a constructor. -/
inductive InvalidArgument where
  /-- Keys of no bytes were asked for. -/
  | zeroKeySize
  /-- Values of no bytes were asked for. -/
  | zeroValueSize
  /-- A key or value block would be too large to address. -/
  | blockTooLarge
  /-- Room for more entries than there are handles was asked for. -/
  | capacityTooLarge
  deriving DecidableEq, Repr

/-- Why an operation failed. -/
inductive MapError where
  /-- The memory refused a request. -/
  | noMemory
  /-- A constructor was given an unusable argument. -/
  | invalidArgument (what : InvalidArgument)
  /-- A key has the wrong length for its map. -/
  | keySize (expected got : Nat)
  /-- A value, or a buffer for one, has the wrong length for its map. -/
  | valueSize (expected got : Nat)
  /-- The key to insert equals one that is stored. -/
  | keyExists
  /-- No stored key equals the key looked for. -/
  | keyNotFound
  /-- The cursor is at no entry. -/
  | invalidCursor
  /-- There is no handle left for another entry. -/
  | overflow
  deriving DecidableEq, Repr

/-- The complaint in words. -/
def InvalidArgument.message : InvalidArgument → String
  | zeroKeySize => "key size must be non-zero"
  | zeroValueSize => "value size must be non-zero"
  | blockTooLarge => "block size overflows isize::MAX"
  | capacityTooLarge => "capacity exceeds the maximum number of entries"

namespace MapError

/-- The one-word name of the error. -/
def kind : MapError → String
  | noMemory => "NoMemory"
  | invalidArgument _ => "InvalidArgument"
  | keySize .. => "KeySize"
  | valueSize .. => "ValueSize"
  | keyExists => "KeyExists"
  | keyNotFound => "KeyNotFound"
  | invalidCursor => "InvalidCursor"
  | overflow => "Overflow"

/-- The error as a sentence for a reader. -/
def message : MapError → String
  | noMemory => "out of memory"
  | invalidArgument what => "invalid argument: " ++ what.message
  | keySize expected got =>
    "key is " ++ toString got ++ " bytes, expected " ++ toString expected
  | valueSize expected got =>
    "value is " ++ toString got ++ " bytes, expected " ++ toString expected
  | keyExists => "key already exists"
  | keyNotFound => "key not found"
  | invalidCursor => "cursor does not point at an entry"
  | overflow => "node capacity exceeded"

end MapError

end MeteredMap
