import MeteredMap.Memory.Layout

/-!
# Allocators

What a map asks of the memory it lives in. A memory is a value: a request answers with the
memory as it is afterwards, granted or refused. The contents of blocks are not kept here, since
a block belongs to one owner who knows them; what matters is which requests were granted.

## Main definitions

* `MeteredMap.Reply` : the answer to a request.
* `MeteredMap.Allocator` : requests, releases and the question whether a request would be granted.
* `MeteredMap.Heap` : the memory at the bottom, which grants what is not absurdly large.
* `MeteredMap.Outcome` : what an operation that uses memory leaves behind.
-/

namespace MeteredMap

/-- The answer of a memory to a request, with the memory as it is afterwards. A refusal may
change it too: a memory may refuse one request and grant the same request later. -/
inductive Reply (α : Type) where
  | granted (memory : α)
  | refused (memory : α)

/-- The memory after the request, granted or not. -/
def Reply.memory {α : Type} : Reply α → α
  | granted memory => memory
  | refused memory => memory

/-- A memory that blocks and tables are taken from and given back to. -/
class Allocator (α : Type) where
  /-- Asks for one block of the layout. -/
  allocate : α → Layout → Reply α
  /-- Gives back one block of the layout that was granted before. -/
  release : α → Layout → α
  /-- Whether the memory announces that it would grant the request. -/
  canAllocate : α → Layout → Bool
  /-- Bytes that a reference to the memory takes up inside a map. -/
  footprint : Nat

/-- The memory at the bottom. It keeps no account, and announces that it grants everything; with
a ceiling it refuses a single request of that many bytes or more. -/
structure Heap where
  ceiling : Option Nat

instance : Allocator Heap where
  allocate heap layout :=
    match heap.ceiling with
    | none => .granted heap
    | some ceiling => if layout.size < ceiling then .granted heap else .refused heap
  release heap _ := heap
  canAllocate _ _ := true
  footprint := 0

/-- What an operation that uses memory leaves behind: its answer, the object it worked on and the
memory. A failed operation leaves them behind as well. -/
structure Outcome (σ α ρ : Type) where
  answer : ρ
  state : σ
  memory : α

end MeteredMap
