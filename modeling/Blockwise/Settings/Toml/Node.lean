import Blockwise.Settings.Value

namespace Blockwise

namespace Toml

-- A table remembers whether it was only named on the way to another one, and whether by a dotted
-- key, which decides what may still be added to it.
inductive Node where
  | leaf (v : Value)
  | table (implied dotted : Bool) (entries : List (String × Node))
  | list (tables : List Node)
  deriving Inhabited

namespace Node

variable {α : Type}

abbrev Entries := List (String × Node)

def empty : Node := .table false false []

def put (key : String) (n : Node) : Entries → Entries
  | [] => [(key, n)]
  | (k, old) :: rest => if k = key then (k, n) :: rest else (k, old) :: put key n rest

-- Changes the entries of a table and returns what the change finds out.
abbrev Change (α : Type) := Bool → Entries → Option (α × Entries)

-- Changes the table at a path. Missing tables on the way are implied, and a list of tables stands
-- for its last one. A dotted path passes implied tables only. The change is told whether the table
-- itself came from a dotted key.
def descend (dotted : Bool) (change : Change α) : List String → Node → Option (α × Node)
  | [], .table i d entries => (change d entries).map fun (a, entries) => (a, .table i d entries)
  | key :: path, .table i d entries =>
    let place (a : α) (child : Node) : α × Node := (a, .table i d (put key child entries))
    match (entries.lookup key).getD (.table true dotted []) with
    | .leaf _ => none
    | .list tables =>
      match tables.getLast? with
      | none => none
      | some last =>
        (descend dotted change path last).map fun (a, last) =>
          place a (.list (tables.dropLast ++ [last]))
    | .table i' d' entries' =>
      if dotted && !i' then none
      else (descend dotted change path (.table i' d' entries')).map fun (a, child) => place a child
  | _, _ => none

-- Adds a value under a key that is not there yet. A dotted key adds to dotted tables only.
def addValue (n : Node) (path : List String) (key : String) (v : Value) : Option Node :=
  let add : Change Unit := fun fromDotted entries =>
    if fromDotted = path.isEmpty ∨ (entries.lookup key).isSome then none
    else some ((), put key (.leaf v) entries)
  (descend (!path.isEmpty) add path n).map (·.2)

mutual

def toValue : Node → Value
  | .leaf v => v
  | .table _ _ entries => .table (entryValues entries)
  | .list tables => .array (values tables)

def entryValues : List (String × Node) → List (String × Value)
  | [] => []
  | (key, n) :: rest => (key, toValue n) :: entryValues rest

def values : List Node → List Value
  | [] => []
  | n :: rest => toValue n :: values rest

end

end Node

-- The tables read so far, and the one under way, which is put in its place when it ends.
structure Draft where
  root : Node := .empty
  current : Node.Entries := []
  path : List String := []
  inList : Bool := false

namespace Draft

open Node (Change Entries)

-- The tables in the list under a key, none if there is nothing yet.
def listed (key : String) (entries : Entries) : Option (List Node) :=
  match entries.lookup key with
  | none => some []
  | some (.list tables) => some tables
  | some _ => none

-- Puts the table under way in its place.
def finish (d : Draft) : Option Node :=
  let table := Node.table false false d.current
  match d.path.getLast? with
  | none => some table
  | some key =>
    let place : Change Unit := fun _ entries =>
      if d.inList then
        (listed key entries).map fun tables => ((), Node.put key (.list (tables ++ [table])) entries)
      else if (entries.lookup key).isSome then none
      else some ((), Node.put key table entries)
    (d.root.descend false place d.path.dropLast).map (·.2)

-- Begins a table. One that was only implied by the header of another is taken over as it is.
def beginTable (d : Draft) (path : List String) : Option Draft := do
  let root ← d.finish
  let key ← path.getLast?
  let takeOver : Change Entries := fun _ entries =>
    match entries.lookup key with
    | none => some ([], entries)
    | some (.table true false inner) => some (inner, entries.filter (·.1 ≠ key))
    | some _ => none
  let (current, root) ← root.descend false takeOver path.dropLast
  some { root, current, path }

-- Begins the next table of a list.
def beginListed (d : Draft) (path : List String) : Option Draft := do
  let root ← d.finish
  let key ← path.getLast?
  let enlist : Change Unit := fun _ entries =>
    (listed key entries).map fun tables => ((), Node.put key (.list tables) entries)
  let (_, root) ← root.descend false enlist path.dropLast
  some { root, path, inList := true }

def addValue (d : Draft) (path : List String) (key : String) (v : Value) : Option Draft :=
  match (Node.table false false d.current).addValue path key v with
  | some (.table _ _ current) => some { d with current }
  | _ => none

end Draft

end Toml

end Blockwise
