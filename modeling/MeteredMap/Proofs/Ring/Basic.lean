import MeteredMap.Proofs.Simulation
import MeteredMap.Session.CursorWalk

/-!
# Rings

What a cursor is specified by: the entries of a map in order, closed to a ring by the ghost, and a
position, which is the index of an entry or the ghost. Nothing here knows of nodes or handles.

## Main definitions

* `MeteredMap.Ring` : entries with a position.
* `MeteredMap.Ring.outermost`, `MeteredMap.Ring.next` : the ends of a ring, and its moves.
* `MeteredMap.Ring.walk` : the answers to commands to a read-only cursor.
* `MeteredMap.Ring.edit` : the answers to commands to a mutable cursor, and the ring after them.
-/

namespace MeteredMap

/-- Entries in order, with a position. -/
structure Ring where
  /-- The length of every key. -/
  keySize : Nat
  /-- The length of every value. -/
  valueSize : Nat
  entries : List Entry
  /-- The index of an entry, or nothing at the ghost. -/
  position : Option Nat

namespace Ring

/-! ### Positions -/

/-- The position of the first or of the last of `count` entries. It is the ghost if there is
none. -/
def outermost (side : Side) (count : Nat) : Option Nat :=
  if count = 0 then none
  else
    match side with
    | .left => some 0
    | .right => some (count - 1)

/-- The position one further toward a side among `count` entries. The ghost is beyond the
outermost entry on either side. -/
def next (side : Side) (count : Nat) : Option Nat → Option Nat
  | none => outermost side.other count
  | some i =>
    match side with
    | .left => if i = 0 then none else some (i - 1)
    | .right => if i + 1 = count then none else some (i + 1)

/-- The ring with its position moved toward a side. -/
def move (ring : Ring) (side : Side) : Ring :=
  { ring with position := next side ring.entries.length ring.position }

/-- The entry at the position. -/
def current (ring : Ring) : Option Entry :=
  ring.position.bind fun i => ring.entries[i]?

/-! ### Operations at the position -/

/-- Refuses a key of the wrong length. -/
def checkKey (ring : Ring) (key : Blob) : Except MapError Unit :=
  if key.length = ring.keySize then .ok () else .error (.keySize ring.keySize key.length)

/-- Refuses a value, or a buffer for one, of the wrong length. -/
def checkValue (ring : Ring) (value : Blob) : Except MapError Unit :=
  if value.length = ring.valueSize then .ok () else .error (.valueSize ring.valueSize value.length)

/-- The entry at the position, read into two buffers. -/
def readInto (ring : Ring) (key value : Blob) : Except MapError Unit × Entry :=
  match ring.current with
  | none => (.error .invalidCursor, ⟨key, value⟩)
  | some entry =>
    match ring.checkKey key, ring.checkValue value with
    | .error e, _ => (.error e, ⟨key, value⟩)
    | .ok (), .error e => (.error e, ⟨key, value⟩)
    | .ok (), .ok () => (.ok (), entry)

/-- The ring with the value at the position changed. -/
def withValue (ring : Ring) (change : Blob → Blob) : Ring :=
  match ring.position with
  | none => ring
  | some i =>
    { ring with entries := ring.entries.modify i fun e => { e with value := change e.value } }

/-- The value at the position replaced by one of the same length. -/
def setValue (ring : Ring) (value : Blob) : Except MapError Unit × Ring :=
  match ring.position with
  | none => (.error .invalidCursor, ring)
  | some _ =>
    match ring.checkValue value with
    | .error e => (.error e, ring)
    | .ok () => (.ok (), ring.withValue fun _ => value)

/-- The entry at the position taken out. The position is then that of the entry that followed. -/
def remove (ring : Ring) : Except MapError Unit × Ring :=
  match ring.position with
  | none => (.error .invalidCursor, ring)
  | some i =>
    let entries := ring.entries.eraseIdx i
    (.ok (), { ring with entries, position := if i < entries.length then some i else none })

/-! ### Commands -/

/-- The answer together with the key at the position. -/
def located {ρ : Type} (ring : Ring) (answer : ρ) : Located ρ :=
  ⟨answer, ring.current.map Entry.key⟩

/-- The answer to a command that both kinds of cursor understand. -/
def look (ring : Ring) (name : String) : LookCommand → LookAnswer × Ring
  | .move side => (.flag (ring.move side).position.isSome, ring.move side)
  | .valid => (.flag ring.position.isSome, ring)
  | .key => (.blob (ring.current.map Entry.key), ring)
  | .value => (.blob (ring.current.map Entry.value), ring)
  | .entry => (.entry ring.current, ring)
  | .describe form => (.text ((Entry.cursorDocument name ring.current).render form), ring)
  | .read key value => (.read (ring.readInto key value).1 (ring.readInto key value).2, ring)

/-- The answer to a command to a read-only cursor. The second position is the one kept. -/
def walkStep (command : WalkCommand) (state : Ring × Option Nat) :
    Located WalkAnswer × (Ring × Option Nat) :=
  let (ring, saved) := state
  match command with
  | .look command =>
    let (answer, ring) := ring.look "Cursor" command
    (ring.located (.look answer), (ring, saved))
  | .save => (ring.located .done, (ring, ring.position))
  | .restore =>
    let ring := { ring with position := saved }
    (ring.located .done, (ring, saved))

/-- The answers to commands to a read-only cursor. -/
def walk (ring : Ring) (commands : List WalkCommand) : List (Located WalkAnswer) :=
  (Transcript.play walkStep commands (ring, ring.position)).1

/-- The answer to a command to a mutable cursor. -/
def editStep (command : EditCommand) (ring : Ring) : Located EditAnswer × Ring :=
  match command with
  | .look command =>
    let (answer, ring) := ring.look "CursorMut" command
    (ring.located (.look answer), ring)
  | .setValue value =>
    let (result, ring) := ring.setValue value
    (ring.located (.result result), ring)
  | .overwrite bytes offset =>
    let old := ring.current.map Entry.value
    let ring := ring.withValue (Blob.overwrite · bytes offset)
    (ring.located (.overwritten old), ring)
  | .remove =>
    let (result, ring) := ring.remove
    (ring.located (.result result), ring)
  | .walk commands => (ring.located (.walk (ring.walk commands)), ring)

/-- The answers to commands to a mutable cursor, and the ring that they leave. -/
def edit (ring : Ring) (commands : List EditCommand) : List (Located EditAnswer) × Ring :=
  Transcript.play editStep commands ring

end Ring

end MeteredMap
