import MeteredMap.Session.OneMap

/-!
# Pools of maps

Several maps that share one memory. A pool has a number of places, eight unless it is said, each
vacant or taken by a map; maps are made, cloned and dropped in their places, and the memory's
counters tell what all of them take up together.

## Main definitions

* `MeteredMap.Pool` : a memory and the maps that live in it.
* `MeteredMap.PoolCommand`, `MeteredMap.PoolAnswer`.
* `MeteredMap.Pool.step` : a command carried out on a pool.
* `MeteredMap.Pool.dropAll` : all maps dropped.
-/

namespace MeteredMap

/-- A place for a map in a pool. -/
abbrev Place (n : Nat := 8) := Fin n

/-- Maps that share one memory. -/
structure Pool (α : Type) (n : Nat := 8) where
  memory : α
  places : Vector (Option Tree) n

/-- A command to a pool. -/
inductive PoolCommand (n : Nat := 8) where
  /-- Make an empty map, with room for `capacity` entries if a capacity is given. -/
  | create (place : Place n) (keySize valueSize : Nat) (capacity : Option Nat)
  | drop (place : Place n)
  /-- Change the memory's limit. -/
  | setLimit (place : Place n) (change : LimitChange)
  /-- Put a clone of the map in one place into another. -/
  | clone (source target : Place n)
  /-- Compare the maps in two places. -/
  | compare (first second : Place n)
  | toMap (place : Place n) (command : MapCommand)

/-- The answer to a command to a pool. -/
inductive PoolAnswer where
  | done
  | result (result : Except MapError Unit)
  /-- The place that the command names is vacant. -/
  | noMap
  | flag (b : Bool)
  | fromMap (answer : MapAnswer)

/-- How far a map extends: entries, levels and the room for entries. -/
structure Extent where
  size : Nat
  height : Nat
  capacity : Nat

/-- The extent of a map. -/
def Tree.extent (tree : Tree) : Except Fault Extent := do
  return { size := tree.size, height := ← tree.height, capacity := tree.capacity }

/-- An answer with what can be seen after it: the map in the place that was named, the memory's
counters and the comparator calls made. -/
structure PoolReport where
  answer : PoolAnswer
  extent : Option Extent
  usage : Option Usage
  calls : List Call

namespace PoolCommand

/-- The place that a command is about. -/
def place {n : Nat} : PoolCommand n → Place n
  | create place .. => place
  | drop place => place
  | setLimit place _ => place
  | clone source _ => source
  | compare first _ => first
  | toMap place _ => place

end PoolCommand

namespace Pool

variable {α : Type} {n : Nat}

/-- A pool whose places are all vacant. -/
def vacant (memory : α) : Pool α n :=
  { memory, places := Vector.replicate n none }

/-- Puts a map into a place, or leaves it vacant. The map that was there is dropped. -/
def put [Allocator α] (pool : Pool α n) (place : Place n) (tree : Option Tree) :
    Except Fault (Pool α n) := do
  let places := pool.places.set place tree
  match pool.places[place] with
  | none => return { pool with places }
  | some old => return { memory := ← old.dispose pool.memory, places }

/-- Makes an empty map in a place. If that fails, the place stays as it was. -/
def create [Allocator α] (pool : Pool α n) (comparator : Comparator) (place : Place n)
    (keySize valueSize : Nat) (capacity : Option Nat) :
    Except Fault (Except MapError Unit × Pool α n) := do
  let (made, memory) :=
    match capacity with
    | none => (Tree.create keySize valueSize comparator, pool.memory)
    | some capacity => Tree.withCapacity keySize valueSize capacity comparator pool.memory
  match made with
  | .error e => return (.error e, { pool with memory })
  | .ok tree => return (.ok (), ← { pool with memory }.put place (some tree))

/-- Carries out a command. Maps made by it follow `comparator`. -/
def perform [Metered α] (comparator : Comparator) (command : PoolCommand n) (pool : Pool α n) :
    Except Fault (Traced PoolAnswer × Pool α n) := do
  match command with
  | .create place keySize valueSize capacity =>
    let (result, pool) ← pool.create comparator place keySize valueSize capacity
    return (⟨.result result, []⟩, pool)
  | .drop place => return (⟨.done, []⟩, ← pool.put place none)
  | .setLimit _ change =>
    return (⟨.done, []⟩, { pool with memory := Metered.setLimit pool.memory change })
  | .clone source target =>
    match pool.places[source] with
    | none => return (⟨.noMap, []⟩, pool)
    | some tree =>
      match ← tree.clone pool.memory with
      | ⟨(.error e, memory), calls⟩ => return (⟨.result (.error e), calls⟩, { pool with memory })
      | ⟨(.ok copy, memory), calls⟩ =>
        return (⟨.result (.ok ()), calls⟩, ← { pool with memory }.put target (some copy))
  | .compare first second =>
    match pool.places[first], pool.places[second] with
    | some tree, some other => return (⟨.flag (← tree.sameEntries other), []⟩, pool)
    | _, _ => return (⟨.noMap, []⟩, pool)
  | .toMap place command =>
    match pool.places[place] with
    | none => return (⟨.noMap, []⟩, pool)
    | some tree =>
      let ⟨⟨answer, tree, memory⟩, calls⟩ ← command.run tree pool.memory
      return (⟨.fromMap answer, calls⟩, { memory, places := pool.places.set place (some tree) })

/-- Carries out a command and reports what can be seen after it. -/
def step [Metered α] (comparator : Comparator) (command : PoolCommand n) (pool : Pool α n) :
    Except Fault (PoolReport × Pool α n) := do
  let (⟨answer, calls⟩, pool) ← pool.perform comparator command
  let extent ← pool.places[command.place].mapM Tree.extent
  return ({ answer, extent, usage := Metered.usage? pool.memory, calls }, pool)

/-- The entries of the maps in all places. -/
def entries (pool : Pool α n) : Except Fault (List (Option (List Entry))) :=
  pool.places.toList.mapM fun place => place.mapM Tree.entries

/-- The memory after all maps were dropped. -/
def dropAll [Allocator α] (pool : Pool α n) : Except Fault α :=
  pool.places.toList.foldlM (fun memory place =>
    match place with
    | none => return memory
    | some tree => tree.dispose memory) pool.memory

end Pool

end MeteredMap
