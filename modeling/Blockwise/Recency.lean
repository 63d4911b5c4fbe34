import Blockwise.Failure

namespace Blockwise

-- A block of a bank, given to one key. Once removed it stays removed.
structure Spot where
  bank : Nat
  block : Nat
  removed : Bool := false
  touched : Nat := 0
  deriving DecidableEq, Repr, Inhabited

-- Keys from the most recently used to the least, each with the number of its spot. All spots that
-- were ever given stay in a table, so that one spot under two names is one spot.
structure Recency (K : Type) where
  capacity : Nat
  entries : List (K × Nat) := []
  spots : Array Spot := #[]
  clock : Nat := 0

-- What an insert does besides putting its entry in front.
inductive Insertion (K : Type) where
  | grown
  | displaced (spot : Nat)
  | evicted (key : K) (spot : Nat)
  deriving DecidableEq, Repr

namespace Recency

variable {K : Type} [DecidableEq K]

def empty (capacity : Nat) : Recency K := { capacity }

-- Seven entries to eight places, and no more places than can be laid out.
def capacityLimit : Nat := 7 * 0x80000000000000

-- The table for all entries is made at once.
def withCapacity (capacity : Nat) : Except Breach (Recency K) :=
  if capacity ≤ capacityLimit then .ok (empty capacity) else .error .tableOverflow

def len (r : Recency K) : Nat := r.entries.length

def isEmpty (r : Recency K) : Bool := r.entries.isEmpty

def spot (r : Recency K) (n : Nat) : Spot := r.spots[n]?.getD default

-- Enters a spot into the table, under the next number.
def enroll (r : Recency K) (s : Spot) : Nat × Recency K :=
  (r.spots.size, { r with spots := r.spots.push s })

-- Stamps a spot with the next tick of the clock.
def touch (r : Recency K) (n : Nat) : Recency K :=
  { r with clock := r.clock + 1, spots := r.spots.modify n ({ · with touched := r.clock + 1 }) }

-- Marks a spot as removed and tells whether it was not so before.
def retire (r : Recency K) (n : Nat) : Bool × Recency K :=
  (!(r.spot n).removed, { r with spots := r.spots.modify n ({ · with removed := true }) })

def peek (r : Recency K) (key : K) : Option Nat :=
  (r.entries.find? (·.1 = key)).map (·.2)

def contains (r : Recency K) (key : K) : Bool := (r.peek key).isSome

def others (r : Recency K) (key : K) : List (K × Nat) := r.entries.filter (·.1 ≠ key)

-- Looks a key up; one that is there moves to the front.
def get (r : Recency K) (key : K) : Option Nat × Recency K :=
  match r.peek key with
  | none => (none, r)
  | some n => (some n, { r.touch n with entries := (key, n) :: r.others key })

-- The same key gives up its old spot; a new key on a full index pushes out the last one.
def insert (r : Recency K) (key : K) (n : Nat) : Insertion K × Recency K :=
  let r := r.touch n
  match r.peek key with
  | some old => (.displaced old, { r with entries := (key, n) :: r.others key })
  | none =>
    if r.entries.length < r.capacity then (.grown, { r with entries := (key, n) :: r.entries })
    else match r.entries.getLast? with
      | none => (.grown, { r with entries := (key, n) :: r.entries })
      | some (last, old) =>
        (.evicted last old, { r with entries := (key, n) :: r.entries.dropLast })

def remove (r : Recency K) (key : K) : Option Nat × Recency K :=
  match r.peek key with
  | none => (none, r)
  | some n => (some n, { r with entries := r.others key })

end Recency

end Blockwise
