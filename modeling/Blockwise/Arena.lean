import Blockwise.Bytes
import Blockwise.Sizing
import Blockwise.Word

namespace Blockwise

-- Why the system refuses to map so many banks of such a length, if it does.
abbrev Memory := Nat → Nat → Option IoCause

-- All that is asked for is there.
def Memory.ample : Memory := fun _ _ => none

-- Only the bytes up to the last one written are kept; all after them are zero.
structure Bank where
  len : Nat
  direct : Bool
  written : Bytes

namespace Bank

def mappingTooLong : IoCause := .other "memory map length overflows isize"

-- A direct bank is a mapping, any other one buffer. A mapping as long as no buffer may be is not
-- asked for; one below that may still be refused by the system.
def new (len : Nat) (direct : Bool) (memory : Memory := .ample) : Except Failure Bank :=
  if Bytes.sizeLimit ≤ len then
    .error (if direct then .error (.io mappingTooLong) else .breach .capacityOverflow)
  else match if direct then memory 1 len else none with
    | some cause => .error (.error (.io cause))
    | none => .ok ⟨len, direct, ByteArray.empty⟩

def write (b : Bank) (offset : Nat) (data : Bytes) : Except Breach Bank :=
  if offset + data.size ≤ b.len then
    .ok { b with written := Bytes.overlay (Bytes.padTo b.written (offset + data.size)) offset data }
  else .error (.bankWrite offset data.size b.len)

def read (b : Bank) (offset len : Nat) : Except Breach Bytes :=
  if offset + len ≤ b.len then .ok (Bytes.padTo (Bytes.slice b.written offset len) len)
  else .error (.bankRead offset len b.len)

def describe (b : Bank) : String :=
  "Bank \x7b len: " ++ toString b.len ++ ", direct: " ++ toString b.direct ++ " \x7d"

end Bank

-- Banks of one length, in which a range is addressed by bank, block and offset. Every access is
-- checked against its bank.
structure Arena where
  banks : List Bank
  blockSize : Nat
  blocksPerBank : Nat

namespace Arena

-- A sizing that passes its check is laid out as it says. Where one mapping is granted, all of them
-- together may still be refused.
def new (s : Sizing) (memory : Memory := .ample) : Except Failure Arena := do
  s.check
  let blocks ← s.blocksPerBank.mapError .breach
  let banks ← s.bankCount.mapError .breach
  let bank ← Bank.new (blocks * s.blockSize) s.direct memory
  match if s.direct then memory banks bank.len else none with
  | some cause => throw (.error (.io cause))
  | none => return ⟨List.replicate banks bank, s.blockSize, blocks⟩

def totalBytes (a : Arena) : Nat := a.banks.foldr (fun b total => b.len + total) 0

def bank (a : Arena) (id : Nat) : Except Breach Bank := Breach.elementAt a.banks id

-- The bank of a block and the position of a range in it, for a range that lies in its block.
def locate (a : Arena) (bankId block offset len : Nat) (past : Breach) :
    Except Breach (Bank × Nat) := do
  if a.blocksPerBank ≤ block then throw .blockOutOfBank
  Word.within a.blockSize offset len past
  let b ← a.bank bankId
  return (b, ← Word.sum (← Word.product block a.blockSize) offset)

def write (a : Arena) (bankId block offset : Nat) (data : Bytes) : Except Breach Arena := do
  let (b, position) ← a.locate bankId block offset data.size .writePastBlock
  let b' ← b.write position data
  return { a with banks := a.banks.set bankId b' }

def read (a : Arena) (bankId block offset len : Nat) : Except Breach Bytes := do
  let (b, position) ← a.locate bankId block offset len .readPastBlock
  b.read position len

end Arena

end Blockwise
