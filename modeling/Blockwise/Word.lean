import Blockwise.Failure

namespace Blockwise

namespace Word

-- Positions and lengths are machine words of 64 bits. Arithmetic on them is checked: what is no
-- word is a breach and does not wrap around.
def limit : Nat := 0x10000000000000000

def sum (a b : Nat) : Except Breach Nat :=
  if a + b < limit then .ok (a + b) else .error .additionOverflow

def product (a b : Nat) : Except Breach Nat :=
  if a * b < limit then .ok (a * b) else .error .multiplicationOverflow

-- Asks a range to end within a size. Where it ends has to be a word before it can be compared.
def within (size offset len : Nat) (b : Breach) : Except Breach Unit := do
  if size < (← sum offset len) then throw b

end Word

end Blockwise
