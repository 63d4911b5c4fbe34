import Blockwise.Word

namespace Blockwise

-- A bit for every block in words of 64, the last one padded, and a counter of the set bits. Bits
-- past the last block are never set, counted or reported.
structure Occupancy where
  len : Nat
  words : Vector (BitVec 64) ((len + 63) / 64)
  occupied : Nat

namespace Occupancy

def empty (len : Nat) : Occupancy := ⟨len, Vector.replicate _ 0, 0⟩

-- The words are counted with a sum that has to be a word itself.
def new (len : Nat) : Except Breach Occupancy := do
  let _ ← Word.sum len 63
  return empty len

def isFull (t : Occupancy) : Bool := decide (t.len ≤ t.occupied)

-- The one bit of its word that stands for a block.
def mask (bit : Nat) : BitVec 64 := 1#64 <<< (bit % 64)

def isTaken (t : Occupancy) (bit : Nat) : Bool :=
  if h : bit < t.len then t.words[bit / 64] &&& mask bit != 0 else false

-- Takes a block, and refuses one that is taken or out of range.
def claim (t : Occupancy) (bit : Nat) : Bool × Occupancy :=
  if h : bit < t.len then
    let word := t.words[bit / 64]
    if word &&& mask bit != 0 then (false, t)
    else (true, { t with
      words := t.words.set (bit / 64) (word ||| mask bit)
      occupied := t.occupied + 1 })
  else (false, t)

-- Frees a block, and refuses one that is free or out of range.
def release (t : Occupancy) (bit : Nat) : Bool × Occupancy :=
  if h : bit < t.len then
    let word := t.words[bit / 64]
    if word &&& mask bit = 0 then (false, t)
    else (true, { t with
      words := t.words.set (bit / 64) (word &&& ~~~mask bit)
      occupied := t.occupied - 1 })
  else (false, t)

def lowestSet (word : BitVec 64) : Option Nat :=
  (List.range 64).find? word.getLsbD

def popCount (word : BitVec 64) : Nat :=
  (List.range 64).countP word.getLsbD

-- Bits to ignore count as taken. A free bit past the end means that every block is taken.
def scan (t : Occupancy) (ignore : BitVec 64) (index : Nat) : Option Nat :=
  if h : index < (t.len + 63) / 64 then
    match lowestSet (~~~(t.words[index] ||| ignore)) with
    | some bit => if index * 64 + bit < t.len then some (index * 64 + bit) else none
    | none => scan t 0 (index + 1)
  else none
termination_by (t.len + 63) / 64 - index

-- The first free block at or after a given one.
def firstFree (t : Occupancy) (bit : Nat) : Option Nat :=
  if bit < t.len then scan t (mask bit - 1) (bit / 64) else none

def countTaken (t : Occupancy) : Nat :=
  t.words.toList.foldr (fun word total => popCount word + total) 0

-- Takes the first free block. A claim that is lost restarts the search at the first block.
def claimFirst (t : Occupancy) : Nat → Option Nat × Occupancy
  | 0 => (none, t)
  | attempts + 1 =>
    match t.firstFree 0 with
    | none => (none, t)
    | some bit =>
      match t.claim bit with
      | (true, t') => (some bit, t')
      | (false, t') => claimFirst t' attempts

inductive Step where
  | claim (bit : Nat)
  | release (bit : Nat)
  | isTaken (bit : Nat)
  | firstFree (bit : Nat)
  | claimRange (first last : Nat)
  | releaseRange (first last : Nat)
  deriving DecidableEq, Repr

inductive Reply where
  | flag (b : Bool)
  | found (bit : Option Nat)
  | count (n : Nat)
  deriving DecidableEq, Repr

-- Tries a change on each block of a range and counts those that succeed.
def countOver (change : Occupancy → Nat → Bool × Occupancy) (t : Occupancy) (first last : Nat) :
    Nat × Occupancy :=
  (List.range' first (last - first)).foldl (fun (n, t) bit =>
    match change t bit with
    | (true, t') => (n + 1, t')
    | (false, t') => (n, t')) (0, t)

def step (t : Occupancy) : Step → Reply × Occupancy
  | .claim bit => let (b, t') := t.claim bit; (.flag b, t')
  | .release bit => let (b, t') := t.release bit; (.flag b, t')
  | .isTaken bit => (.flag (t.isTaken bit), t)
  | .firstFree bit => (.found (t.firstFree bit), t)
  | .claimRange first last => let (n, t') := countOver claim t first last; (.count n, t')
  | .releaseRange first last => let (n, t') := countOver release t first last; (.count n, t')

end Occupancy

end Blockwise
