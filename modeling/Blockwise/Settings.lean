import Blockwise.Policy
import Blockwise.Settings.Toml
import Blockwise.Sizing

namespace Blockwise

-- In a document a missing field takes its default, an unknown one is passed over, and a group of
-- fields may also be written as an array of them in order.
structure Settings where
  sizing : Sizing := .standard
  policy : Policy := {}

namespace Settings

instance : BEq Settings where
  beq a b := decide (a.sizing = b.sizing) && a.policy == b.policy

-- The fields of a group by name, or by place if it is an array. A strict reader takes no array with
-- more items than fields. A date has no field that any group knows.
def fields (strict : Bool) (names : List String) : Value → Option (List (Option Value))
  | .table entries => some (names.map (Value.table entries).get?)
  | .array items =>
    if strict ∧ names.length < items.length then none
    else some ((List.range names.length).map (items[·]?))
  | .datetime => some (names.map fun _ => none)
  | _ => none

-- A field that is not there keeps its default.
def orDefault {α : Type} (default : α) (read : Value → Option α) : Option Value → Option α
  | none => some default
  | some v => read v

def readNat : Value → Option Nat
  | .int n => if 0 ≤ n then some n.toNat else none
  | _ => none

def readBool : Value → Option Bool
  | .bool b => some b
  | _ => none

def readString : Value → Option String
  | .string s => some s
  | _ => none

def readEndings : Value → Option (Option (Std.TreeSet String))
  | .null => some none
  | .array items => (items.mapM readString).map fun names => some (Std.TreeSet.ofList names)
  | _ => none

def readSizing (strict : Bool) (v : Value) : Option Sizing := do
  let d := Sizing.standard
  match ← fields strict ["slab_size", "block_size", "total_memory", "direct_allocation"] v with
  | [slab, block, total, direct] =>
    let slabSize ← orDefault d.slabSize readNat slab
    let blockSize ← orDefault d.blockSize readNat block
    let totalMemory ← orDefault d.totalMemory readNat total
    let direct ← orDefault d.direct readBool direct
    some { slabSize, blockSize, totalMemory, direct }
  | _ => none

def readPolicy (strict : Bool) (v : Value) : Option Policy := do
  let d : Policy := {}
  match ← fields strict ["cacheable_extensions", "read_cache_enabled", "write_cache_enabled"] v with
  | [endings, read, write] =>
    let endings ← orDefault d.endings readEndings endings
    let readCache ← orDefault d.readCache readBool read
    let writeCache ← orDefault d.writeCache readBool write
    some { endings, readCache, writeCache }
  | _ => none

def read (strict : Bool) (v : Value) : Option Settings := do
  let d : Settings := {}
  match ← fields strict ["block_cache", "directory"] v with
  | [sizing, policy] =>
    let sizing ← orDefault d.sizing (readSizing strict) sizing
    let policy ← orDefault d.policy (readPolicy strict) policy
    some { sizing, policy }
  | _ => none

-- Settings of a JSON document, as they are written.
def ofJson? (v : Value) : Option Settings := read true v

-- Settings of a TOML document, with a normal policy and a sizing that can be used.
def ofToml (text : String) : Except Failure Settings :=
  match (Toml.parse? text).bind (read false) with
  | none => .error (.error (.configParse "not a settings document"))
  | some s => do
    s.sizing.check
    return { s with policy := s.policy.normalized }

-- Settings of a file, given by its bytes if it is there.
def load (file : Option ByteArray) : Except Failure Settings :=
  match file with
  | none => .error (.error (.io (.os 2)))
  | some bytes =>
    match String.fromUTF8? bytes with
    | none => .error (.error (.io (.other "stream did not contain valid UTF-8")))
    | some text => ofToml text

end Settings

end Blockwise
