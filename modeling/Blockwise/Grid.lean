import Blockwise.Bytes
import Blockwise.Word

namespace Blockwise

namespace Grid

-- Every file is cut into blocks of 8 KiB.
def blockSize : Nat := 8192

def block (position : Nat) : Nat := position / blockSize

def offset (position : Nat) : Nat := position % blockSize

-- The position at which a block starts.
def start (block : Nat) : Nat := block * blockSize

-- Positions as machine words: bits shifted past the top of a word are lost, a sum past it is
-- refused.
namespace Word

def block (position : UInt64) : UInt64 := position >>> 13

def offset (position : UInt64) : UInt64 := position &&& 0x1FFF

def position (block offset : UInt64) : Except Breach UInt64 :=
  (Blockwise.Word.sum (block <<< 13).toNat offset.toNat).map (·.toUInt64)

end Word

-- The part of a range that lies in one block.
structure Span where
  block : Nat
  offset : Nat
  length : Nat
  deriving DecidableEq, Repr

-- From position on, each span takes what is left of its block.
def spans (position length : Nat) : List Span :=
  if length = 0 then []
  else
    let n := min length (blockSize - offset position)
    ⟨block position, offset position, n⟩ :: spans (position + n) (length - n)
termination_by length
decreasing_by
  have : offset position < blockSize := Nat.mod_lt _ (by decide)
  omega

-- Cuts a string into whole blocks and a last part.
def cut (data : Bytes) : List Bytes :=
  if data.size = 0 then []
  else Bytes.slice data 0 blockSize :: cut (Bytes.slice data blockSize (data.size - blockSize))
termination_by data.size
decreasing_by
  have : 0 < blockSize := by decide
  rw [Bytes.size_slice]
  omega

-- Cuts a string when the block under way has only room bytes left, which may be none.
def cutAfter (room : Nat) (data : Bytes) : List Bytes :=
  if data.size = 0 then []
  else Bytes.slice data 0 room :: cut (Bytes.slice data room (data.size - room))

-- The lengths of the parts into which a length falls when it is copied block by block.
def parts (length : Nat) : List Nat :=
  if length = 0 then []
  else min length blockSize :: parts (length - min length blockSize)
termination_by length
decreasing_by
  have : 0 < blockSize := by decide
  omega

end Grid

end Blockwise
