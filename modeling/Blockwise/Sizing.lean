import Blockwise.Failure

namespace Blockwise

-- How much memory a cache takes and how it is cut: banks of slabSize bytes, each of whole blocks.
-- Direct banks live in mappings of their own and not on the heap.
structure Sizing where
  slabSize : Nat
  blockSize : Nat
  totalMemory : Nat
  direct : Bool
  deriving DecidableEq, Repr

namespace Sizing

def defaultSlabSize : Nat := 128 * 1024 * 1024

def defaultBlockSize : Nat := 32 * 1024

def standard : Sizing := ⟨defaultSlabSize, defaultBlockSize, defaultSlabSize, true⟩

instance : Inhabited Sizing := ⟨standard⟩

def ofTotal (totalMemory : Nat) : Sizing := { standard with totalMemory }

-- Exactly this many banks of this many blocks, for a layout no longer than a word can say.
def ofLayout (banks blocksPerBank blockSize : Nat) : Sizing :=
  let slabSize := blocksPerBank * blockSize
  ⟨slabSize, blockSize, banks * slabSize, false⟩

def quotient (a b : Nat) : Except Breach Nat :=
  if b = 0 then .error .divisionByZero else .ok (a / b)

def blocksPerBank (s : Sizing) : Except Breach Nat := quotient s.slabSize s.blockSize

def bankCount (s : Sizing) : Except Breach Nat := quotient s.totalMemory s.slabSize

-- One block is held back, so that a store finds a free one before it evicts.
def capacity (s : Sizing) : Except Breach Nat := do
  let blocks ← s.blocksPerBank
  let banks ← s.bankCount
  return blocks * banks - 1

-- The fields that are zero, by name.
def zeroFields (s : Sizing) : List String :=
  [("block_size", s.blockSize), ("slab_size", s.slabSize), ("total_memory", s.totalMemory)].filterMap
    fun (name, value) => if value = 0 then some name else none

def reject (fault : SizingFault) : Except Failure Unit :=
  .error (.error (.invalidConfig fault))

-- Zero fields are reported first and all together, then the relations one by one.
def check (s : Sizing) : Except Failure Unit :=
  if s.zeroFields ≠ [] then reject (.zeroFields s.zeroFields)
  else if s.slabSize < s.blockSize then reject (.blockAboveSlab s.blockSize s.slabSize)
  else if s.totalMemory < s.slabSize then reject (.totalBelowSlab s.totalMemory s.slabSize)
  else match s.capacity with
    | .error b => .error (.breach b)
    | .ok 0 => reject .tooFewBlocks
    | .ok _ => .ok ()

end Sizing

end Blockwise
