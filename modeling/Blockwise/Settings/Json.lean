import Blockwise.Settings.Value

namespace Blockwise

namespace Json

abbrev Reader (α : Type) := List Char → Option (α × List Char)

def skipSpace (cs : List Char) : List Char :=
  cs.dropWhile fun c => c = ' ' || c = '\t' || c = '\n' || c = '\r'

def hexDigit (c : Char) : Option Nat :=
  if '0' ≤ c ∧ c ≤ '9' then some (c.toNat - '0'.toNat)
  else if 'a' ≤ c ∧ c ≤ 'f' then some (c.toNat - 'a'.toNat + 10)
  else if 'A' ≤ c ∧ c ≤ 'F' then some (c.toNat - 'A'.toNat + 10)
  else none

def hex4 : Reader Nat
  | a :: b :: c :: d :: rest => do
    let a ← hexDigit a
    let b ← hexDigit b
    let c ← hexDigit c
    let d ← hexDigit d
    some (((a * 16 + b) * 16 + c) * 16 + d, rest)
  | _ => none

-- A character written by its number. One above the first plane takes a pair of surrogates.
def unicodeEscape (cs : List Char) : Option (Char × List Char) := do
  let (high, rest) ← hex4 cs
  if 0xD800 ≤ high ∧ high < 0xDC00 then
    match rest with
    | '\\' :: 'u' :: rest =>
      let (low, rest) ← hex4 rest
      if 0xDC00 ≤ low ∧ low < 0xE000 then
        some (Char.ofNat (0x10000 + (high - 0xD800) * 0x400 + (low - 0xDC00)), rest)
      else none
    | _ => none
  else if 0xDC00 ≤ high ∧ high < 0xE000 then none
  else some (Char.ofNat high, rest)

def escape : Reader Char
  | '"' :: rest => some ('"', rest)
  | '\\' :: rest => some ('\\', rest)
  | '/' :: rest => some ('/', rest)
  | 'b' :: rest => some ('\x08', rest)
  | 'f' :: rest => some ('\x0c', rest)
  | 'n' :: rest => some ('\n', rest)
  | 'r' :: rest => some ('\r', rest)
  | 't' :: rest => some ('\t', rest)
  | 'u' :: rest => unicodeEscape rest
  | _ => none

-- The rest of a string after its opening quote; what was read so far is kept in reverse.
def stringBody : Nat → List Char → Reader String
  | 0, _, _ => none
  | _ + 1, got, '"' :: rest => some (String.ofList got.reverse, rest)
  | fuel + 1, got, '\\' :: rest => do
    let (c, rest) ← escape rest
    stringBody fuel (c :: got) rest
  | fuel + 1, got, c :: rest => if c < ' ' then none else stringBody fuel (c :: got) rest
  | _ + 1, _, [] => none

def string (cs : List Char) : Option (String × List Char) := stringBody (cs.length + 1) [] cs

def isDigit (c : Char) : Bool := decide ('0' ≤ c) && decide (c ≤ '9')

def natOf (digits : List Char) : Nat :=
  digits.foldl (fun n c => n * 10 + (c.toNat - '0'.toNat)) 0

-- At least one digit.
def digits (cs : List Char) : Option (List Char × List Char) :=
  match cs.takeWhile isDigit with
  | [] => none
  | ds => some (ds, cs.dropWhile isDigit)

def integerPart (cs : List Char) : Option (Nat × List Char) := do
  let (ds, rest) ← digits cs
  if ds.length > 1 ∧ ds.head? = some '0' then none else some (natOf ds, rest)

def fraction : Reader Bool
  | '.' :: rest => do let (_, rest) ← digits rest; some (true, rest)
  | cs => some (false, cs)

def skipSign : List Char → List Char
  | '+' :: rest => rest
  | '-' :: rest => rest
  | cs => cs

def exponent : Reader Bool
  | c :: rest =>
    if c = 'e' ∨ c = 'E' then do let (_, rest) ← digits (skipSign rest); some (true, rest)
    else some (false, c :: rest)
  | [] => some (false, [])

def integer (negative : Bool) (n : Nat) : Value :=
  if negative then (if 0 < n ∧ n ≤ Nat.pow 2 63 then .int (-n) else .float)
  else if n < Nat.pow 2 64 then .int n else .float

def number (cs : List Char) : Option (Value × List Char) := do
  let negative := cs.head? = some '-'
  let (n, rest) ← integerPart (if negative then cs.tail else cs)
  let (hasFraction, rest) ← fraction rest
  let (hasExponent, rest) ← exponent rest
  some (if hasFraction || hasExponent then .float else integer negative n, rest)

mutual

def value : Nat → Reader Value
  | 0, _ => none
  | fuel + 1, cs =>
    match skipSpace cs with
    | '\x7b' :: rest =>
      match skipSpace rest with
      | '\x7d' :: rest => some (.table [], rest)
      | rest => do let (entries, rest) ← members fuel rest; some (.table entries, rest)
    | '[' :: rest =>
      match skipSpace rest with
      | ']' :: rest => some (.array [], rest)
      | rest => do let (items, rest) ← elements fuel rest; some (.array items, rest)
    | '"' :: rest => do let (s, rest) ← string rest; some (.string s, rest)
    | 't' :: 'r' :: 'u' :: 'e' :: rest => some (.bool true, rest)
    | 'f' :: 'a' :: 'l' :: 's' :: 'e' :: rest => some (.bool false, rest)
    | 'n' :: 'u' :: 'l' :: 'l' :: rest => some (.null, rest)
    | rest => number rest

def elements : Nat → Reader (List Value)
  | 0, _ => none
  | fuel + 1, cs => do
    let (item, rest) ← value fuel cs
    match skipSpace rest with
    | ',' :: rest => do let (items, rest) ← elements fuel rest; some (item :: items, rest)
    | ']' :: rest => some ([item], rest)
    | _ => none

def members : Nat → Reader (List (String × Value))
  | 0, _ => none
  | fuel + 1, cs =>
    match skipSpace cs with
    | '"' :: rest => do
      let (key, rest) ← string rest
      match skipSpace rest with
      | ':' :: rest => do
        let (item, rest) ← value fuel rest
        match skipSpace rest with
        | ',' :: rest => do
          let (entries, rest) ← members fuel rest
          some ((key, item) :: entries, rest)
        | '\x7d' :: rest => some ([(key, item)], rest)
        | _ => none
      | _ => none
    | _ => none

end

-- A whole text is one value with nothing after it.
def parse? (text : String) : Option Value := do
  let cs := text.toList
  let (v, rest) ← value (2 * cs.length + 2) cs
  if (skipSpace rest).isEmpty then some v else none

end Json

end Blockwise
