import Blockwise.Action
import Blockwise.Arena
import Blockwise.Occupancy
import Blockwise.Recency
import Blockwise.Tally

namespace Blockwise

-- A key owns one block from its first store until it is evicted or deleted, and its block is free
-- again the moment the index lets go of it. Every bank has a table of its taken blocks.
structure Engine (K : Type) where
  index : Recency K
  arena : Arena
  slots : List Occupancy

namespace Engine

variable {K : Type} [DecidableEq K]

-- Actions on one engine and the counters it reports to.
abbrev Run (K α : Type) := EStateM Breach (Metered (Engine K)) α

-- The sizing has room for at least two blocks, so the index holds at least one.
def new (sizing : Sizing) (memory : Memory := .ample) : Except Failure (Engine K) := do
  let arena ← Arena.new sizing memory
  let table ← (Occupancy.new arena.blocksPerBank).mapError .breach
  let capacity ← sizing.capacity.mapError .breach
  if capacity = 0 then throw (.error (.invalidConfig .tooFewBlocks))
  let index ← (Recency.withCapacity capacity).mapError .breach
  return { index, arena, slots := arena.banks.map fun _ => table }

def blockSize (e : Engine K) : Nat := e.arena.blockSize

def capacity (e : Engine K) : Nat := e.index.capacity

def len (e : Engine K) : Nat := e.index.len

def isEmpty (e : Engine K) : Bool := e.index.isEmpty

def contains (e : Engine K) (key : K) : Bool := e.index.contains key

def blocksTaken (e : Engine K) : Nat := e.slots.foldr (fun t total => t.occupied + total) 0

-- How often an allocation goes over all banks before it gives up.
def claimPasses : Nat := 10

-- One pass takes the first free block of the first bank that has one.
def claimIn : List Occupancy → Option (Nat × Nat) × List Occupancy
  | [] => (none, [])
  | t :: rest =>
    match (if t.isFull then (none, t) else t.claimFirst t.len) with
    | (some block, t') => (some (0, block), t' :: rest)
    | (none, t') =>
      let (found, rest') := claimIn rest
      (found.map fun (bank, block) => (bank + 1, block), t' :: rest')

def claimFree (slots : List Occupancy) : Nat → Option (Nat × Nat) × List Occupancy
  | 0 => (none, slots)
  | passes + 1 =>
    match claimIn slots with
    | (some spot, slots') => (some spot, slots')
    | (none, slots') => claimFree slots' passes

def modifyEngine (f : Engine K → Engine K) : Run K Unit :=
  modify fun m => { m with part := f m.part }

def modifyTally (f : Tally → Tally) : Run K Unit :=
  modify fun m => { m with tally := f m.tally }

-- Runs a function on the index and keeps what it returns.
def onIndex {α : Type} (f : Recency K → α × Recency K) : Run K α :=
  modifyGet fun m =>
    let (a, index) := f m.part.index
    (a, { m with part := { m.part with index } })

-- Frees the block of a dropped spot, once.
def release (n : Nat) : Run K Unit := do
  if ← onIndex (·.retire n) then
    let e := (← get).part
    let spot := e.index.spot n
    match e.slots[spot.bank]? with
    | none => throw (.indexOutOfBounds e.slots.length spot.bank)
    | some table =>
      modifyEngine fun e => { e with slots := e.slots.set spot.bank (table.release spot.block).2 }
      modifyTally Tally.released

-- Puts a key in front of the index. What that drops is released at once.
def insert (key : K) (n : Nat) : Run K Unit := do
  match ← onIndex (·.insert key n) with
  | .grown => return ()
  | .displaced old => release old
  | .evicted _ old => release old

-- Writes into a spot and, if it was just claimed, enters it into the index.
def writeSpot (key : K) (n : Nat) (isNew : Bool) (offset : Nat) (data : Bytes) : Run K Bool := do
  let e := (← get).part
  let spot := e.index.spot n
  if spot.removed then
    modifyTally Tally.storeFailure
    return false
  let arena ← Act.lift (e.arena.write spot.bank spot.block offset data)
  modifyEngine ({ · with arena })
  if isNew then
    modifyTally Tally.stored
    insert key n
  return true

-- Claims a free block and enters it into the table of spots.
def claim : Run K (Option Nat) := do
  let (found, slots) := claimFree (← get).part.slots claimPasses
  modifyEngine ({ · with slots })
  match found with
  | none => return none
  | some (bank, block) => return some (← onIndex (·.enroll { bank, block }))

-- Stores bytes at an offset of the key's block; false if there is no block to be had.
def store (key : K) (offset : Nat) (data : Bytes) : Run K Bool := do
  let size := (← get).part.blockSize
  Act.lift (Word.within size offset data.size (.storeTooLong size data.size offset))
  match ← onIndex (·.get key) with
  | some n => writeSpot key n false offset data
  | none =>
    match ← claim with
    | some n => writeSpot key n true offset data
    | none =>
      modifyTally Tally.storeFailure
      return false

-- The bytes of a range of the key's block, or none on a miss.
def fetch (key : K) (offset len : Nat) : Run K (Option Bytes) := do
  let size := (← get).part.blockSize
  Act.lift (Word.within size offset len (.fetchTooLong size len offset))
  let found ← onIndex (·.get key)
  let e := (← get).part
  match found.filter fun n => !(e.index.spot n).removed with
  | none =>
    modifyTally Tally.miss
    return none
  | some n =>
    let spot := e.index.spot n
    let bytes ← Act.lift (e.arena.read spot.bank spot.block offset len)
    modifyTally Tally.hit
    return some bytes

-- A whole block, for a buffer of exactly its size.
def fetchWhole (key : K) (len : Nat) : Run K (Option Bytes) := do
  let size := (← get).part.blockSize
  if len ≠ size then throw (.wrongBufferSize size len)
  fetch key 0 len

-- The caller's buffer after a fetch: a hit fills it, a miss leaves it as it was.
def filled (buffer : Bytes) (found : Option Bytes) : Bytes := found.getD buffer

-- Drops a key and frees its block; false if there was none.
def delete (key : K) : Run K Bool := do
  match ← onIndex (·.remove key) with
  | none => return false
  | some n =>
    release n
    return true

inductive Step (K : Type) where
  | store (key : K) (offset : Nat) (data : Bytes)
  | fetch (key : K) (offset len : Nat)
  | fetchWhole (key : K) (len : Nat)
  | delete (key : K)
  | contains (key : K)

inductive Reply where
  | flag (b : Bool)
  | fetched (len : Nat) (bytes : Option Bytes)

def step : Step K → Run K Reply
  | .store key offset data => .flag <$> store key offset data
  | .fetch key offset len => .fetched len <$> fetch key offset len
  | .fetchWhole key len => .fetched len <$> fetchWhole key len
  | .delete key => .flag <$> delete key
  | .contains key => return .flag ((← get).part.contains key)

end Engine

end Blockwise
