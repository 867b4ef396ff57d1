import MeteredMap.Memory.Allocator

/-!
# Budgets

A memory under a byte budget. It passes requests on to an inner memory as long as they fit, and
counts what was granted. Budgets nest: the outer one is asked first, and counts nothing that the
inner one refuses.

## Main definitions

* `MeteredMap.Budget` : an inner memory with a limit and its counters.
* `MeteredMap.Budget.remaining` : the bytes that still fit.
* `MeteredMap.LimitChange` : a new limit, absolute or relative to what is in use.
* `MeteredMap.Usage`, `MeteredMap.Metered` : the counters as a caller sees them, and the memories
  that may have some.
-/

namespace MeteredMap

/-- A memory under a byte budget. The counters are 64-bit words. -/
structure Budget (α : Type) where
  /-- Where granted requests are passed on to. -/
  inner : α
  /-- The largest number of bytes that may be in use after a request. -/
  limit : UInt64
  /-- The sizes of the blocks held, summed. -/
  inUse : UInt64
  /-- How many requests were granted so far. -/
  total : UInt64
  /-- How many blocks are held. -/
  live : UInt64

/-- A new limit for a budget. -/
inductive LimitChange where
  /-- The limit as it is given. -/
  | exactly (limit : UInt64)
  /-- So many bytes above what is in use, or the largest limit if that is beyond it. -/
  | slack (bytes : UInt64)

/-- The counters of a budget: bytes in use, blocks held and requests granted so far. -/
structure Usage where
  inUse : UInt64
  live : UInt64
  total : UInt64
  deriving DecidableEq

namespace Budget

variable {α : Type}

/-- A budget of `limit` bytes over an inner memory, with nothing in use. -/
def ofInner (inner : α) (limit : UInt64) : Budget α :=
  { inner, limit, inUse := 0, total := 0, live := 0 }

/-- The bytes that still fit. It is nothing when the limit has sunk below what is in use. -/
def remaining (budget : Budget α) : Nat :=
  budget.limit.toNat - budget.inUse.toNat

/-- Whether so many more bytes fit. -/
def fits (budget : Budget α) (size : Nat) : Bool :=
  size ≤ budget.remaining

/-- The budget after it granted a block of `size` bytes from the inner memory. -/
def charge (budget : Budget α) (inner : α) (size : Nat) : Budget α :=
  { budget with
    inner
    inUse := budget.inUse + UInt64.ofNat size
    total := budget.total + 1
    live := budget.live + 1 }

/-- The budget after a block of `size` bytes went back to the inner memory. -/
def refund (budget : Budget α) (inner : α) (size : Nat) : Budget α :=
  { budget with
    inner
    inUse := budget.inUse - UInt64.ofNat size
    live := budget.live - 1 }

/-- The budget under a new limit. What is in use stays in use. -/
def setLimit (budget : Budget α) (change : LimitChange) : Budget α :=
  match change with
  | .exactly limit => { budget with limit }
  | .slack bytes =>
    { budget with
      limit := UInt64.ofNat (min (budget.inUse.toNat + bytes.toNat) (UInt64.size - 1)) }

/-- The counters of the budget. -/
def usage (budget : Budget α) : Usage :=
  { inUse := budget.inUse, live := budget.live, total := budget.total }

end Budget

/-- A budget asks its inner memory only for what fits, and counts what the inner memory grants.
Whether it can grant a request is for the budget alone to say. -/
instance {α : Type} [Allocator α] : Allocator (Budget α) where
  allocate budget layout :=
    if budget.fits layout.size then
      match Allocator.allocate budget.inner layout with
      | .granted inner => .granted (budget.charge inner layout.size)
      | .refused inner => .refused { budget with inner }
    else
      .refused budget
  release budget layout := budget.refund (Allocator.release budget.inner layout) layout.size
  canAllocate budget layout := budget.fits layout.size
  footprint := 8

/-- A memory that may have counters to read and a limit to move. -/
class Metered (α : Type) extends Allocator α where
  /-- The counters, where there are some. -/
  usage? : α → Option Usage
  /-- The memory under a new limit, where it has one. -/
  setLimit : α → LimitChange → α

instance : Metered Heap where
  usage? _ := none
  setLimit heap _ := heap

instance {α : Type} [Allocator α] : Metered (Budget α) where
  usage? budget := some budget.usage
  setLimit := Budget.setLimit

end MeteredMap
