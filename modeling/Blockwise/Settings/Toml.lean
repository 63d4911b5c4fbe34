import Blockwise.Settings.Json
import Blockwise.Settings.Toml.Node

namespace Blockwise

namespace Toml

abbrev Reader (α : Type) := List Char → Option (α × List Char)

-- Tables and arrays nest, and keys are dotted, less than this many deep.
def depthLimit : Nat := 80

def isSpace (c : Char) : Bool := c = ' ' || c = '\t'

def skipSpace (cs : List Char) : List Char := cs.dropWhile isSpace

-- Control characters other than the tab have no place in a text.
def isText (c : Char) : Bool := c = '\t' || (decide (' ' ≤ c) && c != '\x7f')

def newline? : List Char → Option (List Char)
  | '\n' :: rest => some rest
  | '\r' :: '\n' :: rest => some rest
  | _ => none

def skipComment : List Char → List Char
  | '#' :: rest => rest.dropWhile isText
  | cs => cs

-- Blanks and a comment up to the end of the line or of the text.
def endLine (cs : List Char) : Option (List Char) :=
  match skipComment (skipSpace cs) with
  | [] => some []
  | cs => newline? cs

-- Blanks, comments and line ends, as they may stand between the items of an array.
def skipLines : Nat → List Char → Option (List Char)
  | 0, _ => none
  | fuel + 1, cs =>
    match skipSpace cs with
    | '#' :: rest => (newline? (rest.dropWhile isText)).bind (skipLines fuel)
    | cs =>
      match newline? cs with
      | some rest => skipLines fuel rest
      | none => some cs

def skipBetween (cs : List Char) : Option (List Char) := skipLines (cs.length + 1) cs

-- The number of hexadecimal digits that must stand here.
def hexDigits : Nat → Nat → Reader Nat
  | 0, n, cs => some (n, cs)
  | count + 1, n, c :: rest => do
    let d ← Json.hexDigit c
    hexDigits count (n * 16 + d) rest
  | _ + 1, _, [] => none

def scalar (n : Nat) : Option Char :=
  if n < 0xD800 ∨ (0xE000 ≤ n ∧ n < 0x110000) then some (Char.ofNat n) else none

def codePoint (count : Nat) (cs : List Char) : Option (Char × List Char) := do
  let (n, rest) ← hexDigits count 0 cs
  let c ← scalar n
  some (c, rest)

def escape : Reader Char
  | 'b' :: rest => some ('\x08', rest)
  | 't' :: rest => some ('\t', rest)
  | 'n' :: rest => some ('\n', rest)
  | 'f' :: rest => some ('\x0c', rest)
  | 'r' :: rest => some ('\r', rest)
  | '"' :: rest => some ('"', rest)
  | '\\' :: rest => some ('\\', rest)
  | 'u' :: rest => codePoint 4 rest
  | 'U' :: rest => codePoint 8 rest
  | _ => none

def basicBody : Nat → List Char → Reader String
  | 0, _, _ => none
  | _ + 1, got, '"' :: rest => some (String.ofList got.reverse, rest)
  | fuel + 1, got, '\\' :: rest => do
    let (c, rest) ← escape rest
    basicBody fuel (c :: got) rest
  | fuel + 1, got, c :: rest => if isText c then basicBody fuel (c :: got) rest else none
  | _ + 1, _, [] => none

def literalBody (cs : List Char) : Option (String × List Char) :=
  match cs.dropWhile fun c => isText c && c != '\'' with
  | '\'' :: rest => some (String.ofList (cs.takeWhile fun c => isText c && c != '\''), rest)
  | _ => none

-- Three quotes end a long string, and up to two more before them belong to it.
def closing (quote : Char) (cs : List Char) : Option (Nat × List Char) :=
  let n := min 5 (cs.takeWhile (· = quote)).length
  if n < 3 then none else some (n - 3, cs.drop n)

def skipBlank : List Char → List Char
  | ' ' :: rest => skipBlank rest
  | '\t' :: rest => skipBlank rest
  | '\n' :: rest => skipBlank rest
  | '\r' :: '\n' :: rest => skipBlank rest
  | cs => cs

-- A backslash at the end of a line takes the blanks and line ends after it away.
def foldLine (cs : List Char) : Option (List Char) := (newline? (skipSpace cs)).map skipBlank

def longBasicBody : Nat → List Char → Reader String
  | 0, _, _ => none
  | fuel + 1, got, cs =>
    match closing '"' cs with
    | some (extra, rest) => some (String.ofList (List.replicate extra '"' ++ got).reverse, rest)
    | none =>
      match newline? cs with
      | some rest => longBasicBody fuel ('\n' :: got) rest
      | none =>
        match cs with
        | '\\' :: rest =>
          match foldLine rest with
          | some rest => longBasicBody fuel got rest
          | none => do
            let (c, rest) ← escape rest
            longBasicBody fuel (c :: got) rest
        | c :: rest => if isText c then longBasicBody fuel (c :: got) rest else none
        | [] => none

def longLiteralBody : Nat → List Char → Reader String
  | 0, _, _ => none
  | fuel + 1, got, cs =>
    match closing '\'' cs with
    | some (extra, rest) => some (String.ofList (List.replicate extra '\'' ++ got).reverse, rest)
    | none =>
      match newline? cs with
      | some rest => longLiteralBody fuel ('\n' :: got) rest
      | none =>
        match cs with
        | c :: rest => if isText c then longLiteralBody fuel (c :: got) rest else none
        | [] => none

-- A line end right after the opening quotes does not count.
def skipFirstNewline (cs : List Char) : List Char := (newline? cs).getD cs

def string : Reader String
  | '"' :: '"' :: '"' :: rest => longBasicBody (rest.length + 1) [] (skipFirstNewline rest)
  | '\'' :: '\'' :: '\'' :: rest => longLiteralBody (rest.length + 1) [] (skipFirstNewline rest)
  | '"' :: rest => basicBody (rest.length + 1) [] rest
  | '\'' :: rest => literalBody rest
  | _ => none

def isBare (c : Char) : Bool := c.isAlphanum || c = '_' || c = '-'

def simpleKey : Reader String
  | '"' :: rest => basicBody (rest.length + 1) [] rest
  | '\'' :: rest => literalBody rest
  | cs =>
    match cs.takeWhile isBare with
    | [] => none
    | name => some (String.ofList name, cs.dropWhile isBare)

-- A key of parts set apart by dots, with blanks around each part.
def dottedKey : Nat → Reader (List String)
  | 0, _ => none
  | fuel + 1, cs => do
    let (part, rest) ← simpleKey (skipSpace cs)
    match skipSpace rest with
    | '.' :: rest => do
      let (parts, rest) ← dottedKey fuel rest
      some (part :: parts, rest)
    | rest => some ([part], rest)

def key (cs : List Char) : Option (List String × List Char) := do
  let (parts, rest) ← dottedKey (cs.length + 1) cs
  if parts.length < depthLimit then some (parts, rest) else none

-- Digits of a class, the later ones set apart by single underscores.
def digitRun (ok : Char → Bool) : Nat → Reader (List Char)
  | 0, _ => none
  | fuel + 1, c :: rest =>
    if !ok c then none
    else match rest with
      | '_' :: rest => (digitRun ok fuel rest).map fun (ds, rest) => (c :: ds, rest)
      | d :: more =>
        if ok d then (digitRun ok fuel (d :: more)).map fun (ds, rest) => (c :: ds, rest)
        else some ([c], d :: more)
      | [] => some ([c], [])
  | _ + 1, [] => none

def digits (ok : Char → Bool) (cs : List Char) : Option (List Char × List Char) :=
  digitRun ok (cs.length + 1) cs

def sign : List Char → Bool × List Char
  | '+' :: rest => (false, rest)
  | '-' :: rest => (true, rest)
  | cs => (false, cs)

-- A decimal number may begin with zero only if it is zero.
def decimal : Reader (List Char)
  | '0' :: rest => some (['0'], rest)
  | cs => digits Json.isDigit cs

def natIn (base : Nat) (ds : List Char) : Nat :=
  ds.foldl (fun n c => n * base + (Json.hexDigit c).getD 0) 0

def based (base : Nat) (cs : List Char) : Option (Value × List Char) := do
  let (ds, rest) ← digits (fun c => (Json.hexDigit c).any (· < base)) cs
  let n := natIn base ds
  if n < Nat.pow 2 63 then some (.int n, rest) else none

def integer : Reader Value
  | '0' :: 'x' :: rest => based 16 rest
  | '0' :: 'o' :: rest => based 8 rest
  | '0' :: 'b' :: rest => based 2 rest
  | cs => do
    let (negative, rest) := sign cs
    let (ds, rest) ← decimal rest
    let n := natIn 10 ds
    if negative then (if n ≤ Nat.pow 2 63 then some (.int (-n), rest) else none)
    else if n < Nat.pow 2 63 then some (.int n, rest) else none

-- Whether digits times a power of ten round to infinity: they reach half a step past the largest
-- double.
def overflows (mantissa : List Char) (exponent : Int) : Bool :=
  let ds := mantissa.dropWhile (· = '0')
  let magnitude : Int := ds.length + exponent
  if ds.isEmpty ∨ magnitude ≤ 308 then false
  else if 310 ≤ magnitude then true
  else
    let limit := (Nat.pow 2 54 - 1) * Nat.pow 2 970
    if 0 ≤ exponent then decide (limit ≤ natIn 10 ds * Nat.pow 10 exponent.toNat)
    else decide (limit * Nat.pow 10 (-exponent).toNat ≤ natIn 10 ds)

def fraction : Reader (Option (List Char))
  | '.' :: rest => (digits Json.isDigit rest).map fun (ds, rest) => (some ds, rest)
  | cs => some (none, cs)

def exponent : Reader (Option Int)
  | c :: rest =>
    if c = 'e' ∨ c = 'E' then do
      let (negative, rest) := sign rest
      let (ds, rest) ← digits Json.isDigit rest
      let n : Int := natIn 10 ds
      some (some (if negative then -n else n), rest)
    else some (none, c :: rest)
  | [] => some (none, [])

-- A number too large for a double is refused; one too small to be above minus infinity is not.
def decimalFloat (cs : List Char) : Option (Value × List Char) := do
  let (negative, rest) := sign cs
  let (whole, rest) ← decimal rest
  let (part, rest) ← fraction rest
  let (power, rest) ← exponent rest
  if part.isNone && power.isNone then none
  else
    let part := part.getD []
    if !negative && overflows (whole ++ part) (power.getD 0 - part.length) then none
    else some (.float, rest)

def specialFloat (cs : List Char) : Option (Value × List Char) :=
  match (sign cs).2 with
  | 'i' :: 'n' :: 'f' :: rest => some (.float, rest)
  | 'n' :: 'a' :: 'n' :: rest => some (.float, rest)
  | _ => none

-- A number of exactly so many digits.
def fixedDigits (count : Nat) (cs : List Char) : Option (Nat × List Char) :=
  let ds := cs.take count
  if ds.length = count ∧ ds.all Json.isDigit then some (natIn 10 ds, cs.drop count) else none

def expect (c : Char) : List Char → Option (List Char)
  | d :: rest => if d = c then some rest else none
  | [] => none

def daysIn (year month : Nat) : Nat :=
  if month = 2 then
    if year % 4 = 0 ∧ (year % 100 ≠ 0 ∨ year % 400 = 0) then 29 else 28
  else if month = 4 ∨ month = 6 ∨ month = 9 ∨ month = 11 then 30
  else 31

def date (cs : List Char) : Option (List Char) := do
  let (year, rest) ← fixedDigits 4 cs
  let rest ← expect '-' rest
  let (month, rest) ← fixedDigits 2 rest
  let rest ← expect '-' rest
  let (day, rest) ← fixedDigits 2 rest
  if 1 ≤ month ∧ month ≤ 12 ∧ 1 ≤ day ∧ day ≤ daysIn year month then some rest else none

def hourMinute (cs : List Char) : Option (List Char) := do
  let (hour, rest) ← fixedDigits 2 cs
  let rest ← expect ':' rest
  let (minute, rest) ← fixedDigits 2 rest
  if hour ≤ 23 ∧ minute ≤ 59 then some rest else none

-- A minute may have a leap second.
def time (cs : List Char) : Option (List Char) := do
  let rest ← hourMinute cs
  let rest ← expect ':' rest
  let (second, rest) ← fixedDigits 2 rest
  if 60 < second then none
  else match rest with
    | '.' :: more =>
      match more.takeWhile Json.isDigit with
      | [] => some rest
      | _ => some (more.dropWhile Json.isDigit)
    | _ => some rest

def offset : List Char → List Char
  | 'Z' :: rest => rest
  | 'z' :: rest => rest
  | '+' :: rest => (hourMinute rest).getD ('+' :: rest)
  | '-' :: rest => (hourMinute rest).getD ('-' :: rest)
  | cs => cs

-- A date alone, or with a time, which may be shifted against universal time.
def dateTime (cs : List Char) : Option (List Char) := do
  let rest ← date cs
  match rest with
  | c :: more =>
    if c = 'T' ∨ c = 't' ∨ c = ' ' then
      match time more with
      | some after => some (offset after)
      | none => some rest
    else some rest
  | [] => some []

def moment (cs : List Char) : Option (Value × List Char) :=
  ((dateTime cs).orElse fun _ => time cs).map fun rest => (.datetime, rest)

def number (cs : List Char) : Option (Value × List Char) :=
  (moment cs).orElse fun _ => (decimalFloat cs).orElse fun _ =>
    (specialFloat cs).orElse fun _ => integer cs

-- Adds a pair of an inline table, whose key may be dotted.
def addPair (n : Node) (parts : List String) (v : Value) : Option Node := do
  let last ← parts.getLast?
  n.addValue parts.dropLast last v

mutual

-- The second number is how deep the value may nest.
def value : Nat → Nat → Reader Value
  | 0, _, _ => none
  | fuel + 1, depth, cs =>
    match cs with
    | '"' :: _ => (string cs).map fun (s, rest) => (.string s, rest)
    | '\'' :: _ => (string cs).map fun (s, rest) => (.string s, rest)
    | '[' :: rest =>
      if depth = 0 then none
      else do
        let (items, rest) ← elements fuel (depth - 1) rest
        some (.array items, rest)
    | '\x7b' :: rest =>
      if depth = 0 then none
      else match skipSpace rest with
        | '\x7d' :: rest => some (.table [], rest)
        | rest => do
          let (n, rest) ← pairs fuel (depth - 1) .empty rest
          some (n.toValue, rest)
    | 't' :: 'r' :: 'u' :: 'e' :: rest => some (.bool true, rest)
    | 'f' :: 'a' :: 'l' :: 's' :: 'e' :: rest => some (.bool false, rest)
    | _ => number cs

-- The items of an array after its bracket or a comma. The last comma may be followed by nothing.
def elements : Nat → Nat → Reader (List Value)
  | 0, _, _ => none
  | fuel + 1, depth, cs => do
    let cs ← skipBetween cs
    match cs with
    | ']' :: rest => some ([], rest)
    | cs => do
      let (item, rest) ← value fuel depth cs
      let rest ← skipBetween rest
      match rest with
      | ',' :: rest => do
        let (items, rest) ← elements fuel depth rest
        some (item :: items, rest)
      | ']' :: rest => some ([item], rest)
      | _ => none

-- The pairs of an inline table, which ends on its line and not in a comma.
def pairs : Nat → Nat → Node → Reader Node
  | 0, _, _, _ => none
  | fuel + 1, depth, n, cs => do
    let (parts, rest) ← key cs
    let rest ← expect '=' rest
    let (item, rest) ← value fuel depth (skipSpace rest)
    let n ← addPair n parts item
    match skipSpace rest with
    | ',' :: rest => pairs fuel depth n rest
    | '\x7d' :: rest => some (n, rest)
    | _ => none

end

def pair (cs : List Char) : Option ((List String × Value) × List Char) := do
  let (parts, rest) ← key cs
  let rest ← expect '=' rest
  let (item, rest) ← value (2 * rest.length + 2) (depthLimit - 1) (skipSpace rest)
  let rest ← endLine rest
  some ((parts, item), rest)

-- One line of a document: a header, a pair, or nothing but a comment.
def line (d : Draft) (cs : List Char) : Option (Draft × List Char) :=
  match cs with
  | '[' :: '[' :: rest => do
    let (parts, rest) ← key rest
    let rest ← expect ']' rest
    let rest ← expect ']' rest
    let rest ← endLine rest
    let d ← d.beginListed parts
    some (d, rest)
  | '[' :: rest => do
    let (parts, rest) ← key rest
    let rest ← expect ']' rest
    let rest ← endLine rest
    let d ← d.beginTable parts
    some (d, rest)
  | '#' :: _ => (endLine cs).map fun rest => (d, rest)
  | '\n' :: _ => (endLine cs).map fun rest => (d, rest)
  | '\r' :: _ => (endLine cs).map fun rest => (d, rest)
  | _ => do
    let ((parts, item), rest) ← pair cs
    let last ← parts.getLast?
    let d ← d.addValue parts.dropLast last item
    some (d, rest)

def lines : Nat → Draft → List Char → Option Draft
  | 0, _, _ => none
  | fuel + 1, d, cs =>
    match skipSpace cs with
    | [] => some d
    | cs => do
      let (d, rest) ← line d cs
      lines fuel d rest

-- A byte order mark at the start is passed over.
def skipMark : List Char → List Char
  | '\uFEFF' :: rest => rest
  | cs => cs

-- A document of version 1.0 as a table of values, or nothing if the text is not one.
def parse? (text : String) : Option Value := do
  let cs := skipMark text.toList
  let d ← lines (cs.length + 1) {} cs
  let root ← d.finish
  some root.toValue

end Toml

end Blockwise
