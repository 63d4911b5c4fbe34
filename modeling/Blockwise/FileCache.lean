import Blockwise.Engine
import Blockwise.Grid
import Std.Data.TreeMap.Basic
import Std.Data.TreeSet.Basic

namespace Blockwise

structure BlockKey where
  file : Nat
  block : Nat
  deriving DecidableEq, Repr

-- Every name gets a number that is never given out again, and blocks are kept under number and
-- block, so that dropping a name needs no look at the blocks of others. The tracked blocks of a
-- number may include some that were evicted since.
structure FileCache where
  engine : Engine BlockKey
  names : Std.TreeMap String Nat := ∅
  tracked : Std.TreeMap Nat (Std.TreeSet Nat) := ∅
  nextFile : Nat := 0

namespace FileCache

abbrev Run (α : Type) := EStateM Breach (Metered FileCache) α

-- A block of the engine must hold a block of the grid.
def new (engine : Engine BlockKey) : Except StorageError FileCache :=
  if engine.blockSize < Grid.blockSize then
    .error (.invalidConfig (.blockBelowGrid engine.blockSize Grid.blockSize))
  else .ok { engine }

def ofSizing (sizing : Sizing) (memory : Memory := .ample) : Except Failure FileCache := do
  let engine ← Engine.new sizing memory
  (new engine).mapError .error

def size (c : FileCache) : Nat := c.engine.len

def nameCount (c : FileCache) : Nat := c.names.size

def onEngine {α : Type} (x : Engine.Run BlockKey α) : Run α :=
  Act.onPart (fun m => ⟨m.part.engine, m.tally⟩)
    (fun m e => ⟨{ m.part with engine := e.part }, e.tally⟩) x

def modifyFiles (f : FileCache → FileCache) : Run Unit :=
  modify fun m => { m with part := f m.part }

-- The number of a name, a new one if it has none.
def fileOf (name : String) : Run Nat := do
  let c := (← get).part
  match c.names[name]? with
  | some file => return file
  | none =>
    let file := c.nextFile
    modifyFiles fun c => { c with names := c.names.insert name file, nextFile := file + 1 }
    return file

def track (file block : Nat) : Run Unit :=
  modifyFiles fun c => { c with
    tracked := c.tracked.insert file ((c.tracked[file]?.getD ∅).insert block) }

-- Writes a range of a block of the named file. The name is mapped before the store.
def update (name : String) (block offset : Nat) (data : Bytes) : Run Unit := do
  let file ← fileOf name
  if ← onEngine (Engine.store ⟨file, block⟩ offset data) then track file block

-- An unknown name counts as a miss.
def fetch (name : String) (block offset len : Nat) : Run (Option Bytes) := do
  match (← get).part.names[name]? with
  | some file => onEngine (Engine.fetch ⟨file, block⟩ offset len)
  | none =>
    modify fun m => { m with tally := m.tally.miss }
    return none

-- Frees the tracked blocks of a number, lowest first.
def dropBlocks (file : Nat) : Run Unit := do
  match (← get).part.tracked[file]? with
  | none => return ()
  | some blocks =>
    modifyFiles fun c => { c with tracked := c.tracked.erase file }
    blocks.toList.forM fun block => do
      let _ ← onEngine (Engine.delete ⟨file, block⟩)

def delete (name : String) : Run Unit := do
  match (← get).part.names[name]? with
  | none => return ()
  | some file =>
    modifyFiles fun c => { c with names := c.names.erase name }
    dropBlocks file

-- Moves the blocks of one name to another and drops what that one had.
def rename (source dest : String) : Run Unit := do
  match (← get).part.names[source]? with
  | none => return ()
  | some file =>
    modifyFiles fun c => { c with names := c.names.erase source }
    let replaced := (← get).part.names[dest]?
    modifyFiles fun c => { c with names := c.names.insert dest file }
    match replaced with
    | none => return ()
    | some old => dropBlocks old

inductive Step where
  | update (name : String) (block offset : Nat) (data : Bytes)
  | fetch (name : String) (block offset len : Nat)
  | delete (name : String)
  | rename (source dest : String)

inductive Reply where
  | done
  | fetched (len : Nat) (bytes : Option Bytes)

def step : Step → Run Reply
  | .update name block offset data => do update name block offset data; return .done
  | .fetch name block offset len => .fetched len <$> fetch name block offset len
  | .delete name => do delete name; return .done
  | .rename source dest => do rename source dest; return .done

end FileCache

end Blockwise
