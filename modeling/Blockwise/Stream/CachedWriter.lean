import Blockwise.Grid
import Blockwise.Stream
import Blockwise.Tier

namespace Blockwise

-- Bytes are staged block by block. Every block handed on is also published under the location of
-- the file, and a close moves the location to its final name; without a way to settle that name the
-- writer is closed. The first flushed bytes of the staged block have reached the stream below.
structure CachedWriter (δ σ : Type) where
  below : δ
  location : String
  staged : Bytes := ByteArray.empty
  blockStart : Nat := 0
  flushed : Nat := 0
  settle : Option (Act σ String)

namespace CachedWriter

variable {δ β α : Type}

abbrev Run (δ β α : Type) := Act (CachedWriter δ (Site β) × Site β) α

def position (w : CachedWriter δ (Site β)) : Nat := w.blockStart + w.staged.size

def modifyWriter (f : CachedWriter δ (Site β) → CachedWriter δ (Site β)) : Run δ β Unit :=
  modify fun (w, s) => (f w, s)

def onTier (x : Act Tier α) : Run δ β α :=
  Act.onPart Prod.snd (fun (w, _) s => (w, s)) (Site.onTier x)

def onBelow (x : Act (δ × Site β) α) : Run δ β α :=
  Act.onPart (fun (w, s) => (w.below, s)) (fun (w, _) (below, s) => ({ w with below }, s)) x

variable (sink : Sink δ (Site β))

def requireOpen : Run δ β Unit := do
  let (w, _) ← get
  if w.settle.isNone then Act.fail (.closed (sink.name w.below))

-- Hands on what is staged and not yet flushed, then publishes the whole staged block.
def passStaged : Run δ β Unit := do
  let (w, _) ← get
  if w.staged.size = w.flushed then return ()
  let fresh ← Act.lift (Bytes.part w.staged w.flushed w.staged.size)
  onBelow (sink.write fresh)
  modifyWriter fun w => { w with flushed := w.staged.size }
  onTier (Tier.update w.location (Grid.block w.blockStart) 0 w.staged)

-- Stages bytes that fit the block under way. A full block is flushed, and the next one begins.
def stage (data : Bytes) : Run δ β Unit := do
  modifyWriter fun w => { w with staged := w.staged ++ data }
  let (w, _) ← get
  if w.staged.size = Grid.blockSize then
    passStaged sink
    modifyWriter fun w => { w with
      blockStart := w.blockStart + Grid.blockSize, staged := ByteArray.empty, flushed := 0 }

def write (data : Bytes) : Run δ β Unit := do
  requireOpen sink
  let (w, _) ← get
  if Grid.blockSize < w.staged.size then Act.breach .subtractionOverflow
  (Grid.cutAfter (Grid.blockSize - w.staged.size) data).forM (stage sink)

def flush : Run δ β Unit := do
  requireOpen sink
  passStaged sink
  onBelow sink.flush

-- Blocks without a final name can be reached by nobody, so they are dropped.
def settleName (location : String) (name : Except StorageError String) : Run δ β Unit :=
  match name with
  | .ok final => onTier (Tier.rename location final)
  | .error e => do
    onTier (Tier.delete location)
    Act.fail e

-- A writer is closed from the moment its close begins; closing it again does nothing.
def close : Run δ β Unit := do
  let (w, _) ← get
  match w.settle with
  | none => return ()
  | some settle =>
    modifyWriter fun w => { w with settle := none }
    passStaged sink
    onBelow sink.close
    let name ← Act.onPart Prod.snd (fun (w, _) s => (w, s)) (Act.attempt settle)
    settleName w.location name

def asSink : Sink (CachedWriter δ (Site β)) (Site β) where
  name w := sink.name w.below
  position := position
  write := write sink
  flush := flush sink
  close := close sink
  drop w s := sink.drop w.below s

end CachedWriter

-- A stream under a number of caching writers.
def Layered (ο σ : Type) : Nat → Type
  | 0 => ο
  | n + 1 => CachedWriter (Layered ο σ n) σ

-- An output, plain or written through any number of caching layers.
structure Output (ο β : Type) where
  layers : Nat
  stream : Layered ο (Site β) layers

namespace Output

variable {ο β α : Type}

def plain (handle : ο) : Output ο β := ⟨0, handle⟩

-- Puts a caching writer on top.
def cached (o : Output ο β) (location : String) (settle : Act (Site β) String) : Output ο β :=
  ⟨o.layers + 1,
    ({ below := o.stream, location, settle := some settle } :
      CachedWriter (Layered ο (Site β) o.layers) (Site β))⟩

-- A sink of the store is a sink of the site that leaves the cache alone.
def plainSink (sink : Sink ο β) : Sink ο (Site β) :=
  let raise (x : Act (ο × β) Unit) : Act (ο × Site β) Unit :=
    Act.onPart (fun (o, s) => (o, s.store)) (fun (_, s) (o, store) => (o, { s with store })) x
  { name := sink.name
    position := sink.position
    write := fun data => raise (sink.write data)
    flush := raise sink.flush
    close := raise sink.close
    drop := fun o s => { s with store := sink.drop o s.store } }

def layeredSink (sink : Sink ο β) : (n : Nat) → Sink (Layered ο (Site β) n) (Site β)
  | 0 => plainSink sink
  | n + 1 => CachedWriter.asSink (layeredSink sink n)

-- Runs an action of the top stream.
def onStream (x : (n : Nat) → Act (Layered ο (Site β) n × Site β) α) :
    Act (Output ο β × Site β) α := fun (o, s) =>
  match x o.layers (o.stream, s) with
  | .ok a (stream, s') => .ok a (⟨o.layers, stream⟩, s')
  | .error e (stream, s') => .error e (⟨o.layers, stream⟩, s')

def sink (plainSink : Sink ο β) : Sink (Output ο β) (Site β) where
  name o := (layeredSink plainSink o.layers).name o.stream
  position o := (layeredSink plainSink o.layers).position o.stream
  write data := onStream fun n => (layeredSink plainSink n).write data
  flush := onStream fun n => (layeredSink plainSink n).flush
  close := onStream fun n => (layeredSink plainSink n).close
  drop o s := (layeredSink plainSink o.layers).drop o.stream s

end Output

end Blockwise
