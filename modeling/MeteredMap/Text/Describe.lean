import MeteredMap.Iterator
import MeteredMap.Memory.Budget
import MeteredMap.Text.Document

/-!
# Descriptions

How the values of this library are laid out for writing: bytes as lists of decimal numbers, a map
as its keys with their values, an iteration as the items that are left, a cursor as what it is
at, a budget as its counters and an error as its cause.
-/

namespace MeteredMap

/-- The bytes as a list of numbers. -/
def Blob.document (bytes : Blob) : Document :=
  .list (bytes.map fun byte => .number byte.toNat)

/-- The key and the value as a pair. -/
def Entry.document (entry : Entry) : Document :=
  .tuple "" [Blob.document entry.key, Blob.document entry.value]

/-- What an iteration shows of an entry. -/
def Item.document : Item → Document
  | .entry e => e.document
  | .blob bytes => Blob.document bytes

/-- The entries of a map, keys with their values. -/
def Entry.mapDocument (entries : List Entry) : Document :=
  .map (entries.map fun entry => (Blob.document entry.key, Blob.document entry.value))

/-- The items that are left of an iteration. -/
def Item.listDocument (items : List Item) : Document :=
  .list (items.map Item.document)

/-- What a cursor is at, behind the name of its kind. -/
def Entry.cursorDocument (name : String) (entry : Option Entry) : Document :=
  .tuple name [.optional (entry.map Entry.document)]

/-- The limit and the counters of a budget. The inner memory is not shown. -/
def Budget.document {α : Type} (budget : Budget α) : Document :=
  .record "BoundedAllocator"
    [("limit", .number budget.limit.toNat), ("in_use", .number budget.inUse.toNat),
      ("total", .number budget.total.toNat), ("live", .number budget.live.toNat)]
    true

/-- The cause of an error, with its particulars. -/
def MapError.document (e : MapError) : Document :=
  match e with
  | .invalidArgument what => .tuple e.kind [.word ("\"" ++ what.message ++ "\"")]
  | .keySize expected got | .valueSize expected got =>
    .record e.kind [("expected", .number expected), ("got", .number got)] false
  | _ => .word e.kind

end MeteredMap
