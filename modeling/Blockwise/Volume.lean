import Blockwise.Grid
import Blockwise.Stream

namespace Blockwise

-- What a file is opened for.
inductive Purpose where
  | general
  | readOnce
  | flush
  | merge
  deriving DecidableEq, Repr

-- A flat directory of named files over a world of any kind, given by what it can do. Inputs are
-- made by open, outputs by create, and locks by lock. A volume with stamps gives a file another
-- stamp whenever it is replaced.
structure Volume (σ ι δ κ : Type) where
  openInput : String → Purpose → Act σ ι
  create : String → Purpose → Act σ δ
  list : Act σ (List String)
  delete : String → Act σ Unit
  hasFile : String → Act σ Bool
  length : String → Act σ Nat
  stamp : String → Act σ Nat
  stamped : Bool
  sync : List String → Act σ Unit
  lock : String → Act σ κ
  close : Act σ Unit

-- How locks are given back: by a release, or by dropping a lock that is still held.
structure Keeper (κ σ : Type) where
  name : κ → String
  release : Act (κ × σ) Unit
  drop : κ → σ → σ

namespace Volume

variable {σ τ ι δ κ ι' δ' κ' : Type}

-- A volume of a part of a larger world, its handles made into handles of that world.
def lift (v : Volume τ ι δ κ) (run : {α : Type} → Act τ α → Act σ α) (input : ι → ι') (out : δ → δ')
    (lock : κ → κ') : Volume σ ι' δ' κ' where
  openInput name purpose := input <$> run (v.openInput name purpose)
  create name purpose := out <$> run (v.create name purpose)
  list := run v.list
  delete name := run (v.delete name)
  hasFile name := run (v.hasFile name)
  length name := run (v.length name)
  stamp name := run (v.stamp name)
  stamped := v.stamped
  sync names := run (v.sync names)
  lock name := lock <$> run (v.lock name)
  close := run v.close

-- A volume without stamps and locks of its own.
def minimal (v : Volume σ ι δ κ) : Volume σ ι δ κ :=
  { v with
    stamp := fun name => Act.fail (.unsupported (.stampUnknown name))
    stamped := false
    lock := fun name => Act.fail (.unsupported (.locking name)) }

-- Reads a whole file in one read.
def readWhole (v : Volume σ ι δ κ) (feed : Feed ι σ) (name : String) (purpose : Purpose) :
    Act σ Bytes := do
  let input ← v.openInput name purpose
  let delivery ← modifyGet (feed.read input 0 (feed.length input))
  match delivery.failure with
  | none => return delivery.bytes
  | some e => throw e

-- Writes a whole file in one write.
def writeWhole (v : Volume σ ι δ κ) (sink : Sink δ σ) (name : String) (purpose : Purpose)
    (data : Bytes) : Act σ Unit := do
  let out ← v.create name purpose
  sink.during out do
    sink.write data
    sink.close

-- Reads the next part of an input and appends it to an output.
def copyPart (feed : Feed ι σ) (sink : Sink δ' σ) (input : ι) (position len : Nat) :
    Act (δ' × σ) Unit := fun (out, s) =>
  match feed.read input position len s with
  | (⟨_, some e⟩, s') => .error e (out, s')
  | (⟨bytes, none⟩, s') => sink.write bytes (out, s')

def copyParts (feed : Feed ι σ) (sink : Sink δ' σ) (input : ι) :
    Nat → List Nat → Act (δ' × σ) Unit
  | _, [] => return ()
  | position, len :: rest => do
    copyPart feed sink input position len
    copyParts feed sink input (position + len) rest

-- Copies a file block by block to a file of a volume of the same world.
def copy (v : Volume σ ι δ κ) (feed : Feed ι σ) (dest : Volume σ ι' δ' κ') (sink : Sink δ' σ)
    (name destName : String) (purpose : Purpose) : Act σ Unit := do
  let input ← v.openInput name purpose
  let out ← dest.create destName purpose
  sink.during out do
    copyParts feed sink input 0 (Grid.parts (feed.length input))
    sink.close

end Volume

end Blockwise
