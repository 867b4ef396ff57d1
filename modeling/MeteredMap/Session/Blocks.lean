import MeteredMap.Blob
import MeteredMap.Text.Describe

/-!
# Commands to a budget

Blocks taken from a budget and given back, by the number under which they were granted. No
command can break such a session, so it is a plain fold.

## Main definitions

* `MeteredMap.BlockCommand`, `MeteredMap.BlockAnswer`.
* `MeteredMap.BlockSession` : a budget and the blocks taken from it.
* `MeteredMap.BlockSession.step`, `MeteredMap.BlockSession.finish` : the session.
* `MeteredMap.BlockTrial` : the life of a single block.
-/

namespace MeteredMap

/-- A command to a budget. -/
inductive BlockCommand where
  | allocate (size align : Nat)
  | release (number : Nat)
  /-- Ask the budget whether it would grant a request. -/
  | canAllocate (size align : Nat)
  /-- Ask a memory without a budget whether it would grant a request. -/
  | heapCanAllocate (size align : Nat)
  | setLimit (limit : UInt64)
  | describe (form : Form)

/-- The answer to a command to a budget. -/
inductive BlockAnswer where
  | done
  | failed (e : MapError)
  | block (number : Nat)
  /-- Size and alignment make no layout. -/
  | badLayout
  /-- The block was never granted, or went back already. -/
  | noBlock
  | flag (b : Bool)
  | text (text : String)

/-- A budget, and the blocks taken from it in the order in which they were granted; those that
went back are absent. -/
structure BlockSession (α : Type) where
  budget : Budget α
  blocks : Array (Option Layout)

namespace BlockSession

variable {α : Type}

/-- Carries out a command. -/
def step [Allocator α] (command : BlockCommand) (session : BlockSession α) :
    BlockAnswer × BlockSession α :=
  match command with
  | .allocate size align =>
    match Layout.ofSizeAlign? size align with
    | none => (.badLayout, session)
    | some layout =>
      match Allocator.allocate session.budget layout with
      | .refused budget => (.failed .noMemory, { session with budget })
      | .granted budget =>
        (.block session.blocks.size, { budget, blocks := session.blocks.push (some layout) })
  | .release number =>
    match session.blocks[number]? with
    | some (some layout) =>
      (.done,
        { budget := Allocator.release session.budget layout
          blocks := session.blocks.setIfInBounds number none })
    | _ => (.noBlock, session)
  | .canAllocate size align =>
    match Layout.ofSizeAlign? size align with
    | none => (.badLayout, session)
    | some layout => (.flag (Allocator.canAllocate session.budget layout), session)
  | .heapCanAllocate size align =>
    match Layout.ofSizeAlign? size align with
    | none => (.badLayout, session)
    | some layout => (.flag (Allocator.canAllocate (Heap.mk none) layout), session)
  | .setLimit limit =>
    (.done, { session with budget := session.budget.setLimit (.exactly limit) })
  | .describe form => (.text (session.budget.document.render form), session)

/-- The answers to a list of commands, each with the budget after it, and the last session. -/
def run [Allocator α] :
    List BlockCommand → BlockSession α → List (BlockAnswer × Budget α) × BlockSession α
  | [], session => ([], session)
  | command :: commands, session =>
    let (answer, session) := session.step command
    let (answers, last) := run commands session
    ((answer, session.budget) :: answers, last)

/-- The budget after all blocks still held went back. -/
def finish [Allocator α] (session : BlockSession α) : Budget α :=
  session.blocks.toList.foldl (fun budget block =>
    match block with
    | none => budget
    | some layout => Allocator.release budget layout) session.budget

end BlockSession

/-! ### A single block -/

/-- The bytes with the first changed by one, the second by two and so on, in exclusive-or. -/
def Blob.stamp (bytes : Blob) : Blob :=
  bytes.mapIdx fun i byte => byte ^^^ UInt8.ofNat (i + 1)

/-- The life of a block: what it holds at first and after it was stamped in place, and the
budget's counters while it is held and after it went back. -/
structure BlockTrial where
  contents : Blob
  stamped : Blob
  held : Usage
  released : Usage

/-- Puts bytes into a block from a budget, stamps them and gives the block back. -/
def BlockTrial.run {α : Type} [Allocator α] (budget : Budget α) (bytes : Blob) :
    Except MapError BlockTrial := do
  let layout ← Layout.block bytes.length
  match Allocator.allocate budget layout with
  | .refused _ => throw .noMemory
  | .granted budget =>
    let after : Budget α := Allocator.release budget layout
    return { contents := bytes, stamped := bytes.stamp, held := budget.usage,
             released := after.usage }

end MeteredMap
