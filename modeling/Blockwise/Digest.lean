import Blockwise.Bytes

namespace Blockwise

namespace Digest

-- The 64-bit FNV-1a hash.
def fnv1a (b : Bytes) : UInt64 :=
  b.foldl (fun h byte => (h ^^^ byte.toUInt64) * 0x100000001b3) 0xcbf29ce484222325

def hexDigits : List Char :=
  ['0', '1', '2', '3', '4', '5', '6', '7', '8', '9', 'a', 'b', 'c', 'd', 'e', 'f']

def hexDigit (n : Nat) : Char := hexDigits[n]?.getD '0'

-- Two digits a byte.
def hex (b : Bytes) : String :=
  String.ofList (b.data.toList.flatMap fun byte =>
    [hexDigit (byte.toNat / 16), hexDigit (byte.toNat % 16)])

-- Sixteen digits, the highest first.
def hexWord (w : UInt64) : String :=
  String.ofList ((List.range 16).map fun i => hexDigit (w.toNat >>> (4 * (15 - i)) % 16))

end Digest

end Blockwise
