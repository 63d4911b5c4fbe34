import Blockwise.Volume.Directory
import Blockwise.Volume.Disk
import Blockwise.Volume.Guard
import Blockwise.Volume.Memory

namespace Blockwise

-- Any number of guarded stores of both kinds side by side.
structure World where
  memories : Array (Guarded Faults MemoryStore) := #[]
  disks : Array (Guarded Faults DiskStore) := #[]

-- A value of one of two types, with the number of its store among those of the kind.
inductive Sited (α β : Type) where
  | memory (store : Nat) (a : α)
  | disk (store : Nat) (b : β)

namespace Sited

variable {α β γ : Type}

def fold (f : α → γ) (g : β → γ) : Sited α β → γ
  | memory _ a => f a
  | disk _ b => g b

end Sited

namespace World

variable {α τ δ ε : Type}

abbrev Input := Sited MemoryInput DiskInput
abbrev Out := Sited MemoryOutput DiskOutput
abbrev Lock := Sited MemoryLock DiskLock

def onMemory (i : Nat) (x : Act (Guarded Faults MemoryStore) α) : Act World α :=
  Act.onPart World.memories (fun w memories => { w with memories }) (Act.element i x)

def onDisk (i : Nat) (x : Act (Guarded Faults DiskStore) α) : Act World α :=
  Act.onPart World.disks (fun w disks => { w with disks }) (Act.element i x)

-- The volume of a store in the world, its handles marked with the store.
def memoryVolume (i : Nat) (v : Volume MemoryStore MemoryInput MemoryOutput MemoryLock) :
    Volume World Input Out Lock :=
  (Guarded.volume Faults.verdict v).lift (onMemory i) (.memory i) (.memory i) (.memory i)

def diskVolume (i : Nat) (v : Volume DiskStore DiskInput DiskOutput DiskLock) :
    Volume World Input Out Lock :=
  (Guarded.volume Faults.verdict v).lift (onDisk i) (.disk i) (.disk i) (.disk i)

def memoryFeed : Feed MemoryInput (Guarded Faults MemoryStore) :=
  Guarded.feed Faults.verdict MemoryStore.feed

def diskFeed : Feed DiskInput (Guarded Faults DiskStore) :=
  Guarded.feed Faults.verdict DiskStore.feed

def memorySink : Sink MemoryOutput (Guarded Faults MemoryStore) :=
  Guarded.sink Faults.verdict MemoryStore.sink

def diskSink : Sink DiskOutput (Guarded Faults DiskStore) :=
  Guarded.sink Faults.verdict DiskStore.sink

def memoryKeeper : Keeper MemoryLock (Guarded Faults MemoryStore) :=
  Guarded.keeper MemoryStore.keeper

def diskKeeper : Keeper DiskLock (Guarded Faults DiskStore) :=
  Guarded.keeper DiskStore.keeper

-- A read of one store of an array.
def readElement (i : Nat) (read : τ → Delivery × τ) (stores : Array τ) : Delivery × Array τ :=
  match stores[i]? with
  | none => (⟨ByteArray.empty, some (.breach (.indexOutOfBounds stores.size i))⟩, stores)
  | some t =>
    let (delivery, t') := read t
    (delivery, stores.setIfInBounds i t')

def feed : Feed Input World where
  name := Sited.fold memoryFeed.name diskFeed.name
  length := Sited.fold memoryFeed.length diskFeed.length
  seek
    | .memory i input, position => onMemory i (memoryFeed.seek input position)
    | .disk i input, position => onDisk i (diskFeed.seek input position)
  read
    | .memory i input, position, len, w =>
      let (delivery, memories) := readElement i (memoryFeed.read input position len) w.memories
      (delivery, { w with memories })
    | .disk i input, position, len, w =>
      let (delivery, disks) := readElement i (diskFeed.read input position len) w.disks
      (delivery, { w with disks })
  clone
    | .memory i input => .memory i <$> onMemory i (memoryFeed.clone input)
    | .disk i input => .disk i <$> onDisk i (diskFeed.clone input)

-- Runs an action on a handle and one store of an array.
def withElement (i : Nat) (x : Act (δ × τ) α) : Act (δ × Array τ) α := fun (h, stores) =>
  match stores[i]? with
  | none => .error (.breach (.indexOutOfBounds stores.size i)) (h, stores)
  | some t =>
    match x (h, t) with
    | .ok a (h', t') => .ok a (h', stores.setIfInBounds i t')
    | .error e (h', t') => .error e (h', stores.setIfInBounds i t')

-- Runs an action on a handle of either kind.
def onHandle (x : Act (δ × Guarded Faults MemoryStore) Unit)
    (y : Act (ε × Guarded Faults DiskStore) Unit) : Act (Sited δ ε × World) Unit := fun (h, w) =>
  match h with
  | .memory i m =>
    Act.onPart (fun (_, w) => (m, w.memories))
      (fun (_, w) (m, memories) => (.memory i m, { w with memories })) (withElement i x) (h, w)
  | .disk i d =>
    Act.onPart (fun (_, w) => (d, w.disks))
      (fun (_, w) (d, disks) => (.disk i d, { w with disks })) (withElement i y) (h, w)

def dropHandle (f : δ → Guarded Faults MemoryStore → Guarded Faults MemoryStore)
    (g : ε → Guarded Faults DiskStore → Guarded Faults DiskStore) : Sited δ ε → World → World
  | .memory i m, w => { w with memories := w.memories.modify i (f m) }
  | .disk i d, w => { w with disks := w.disks.modify i (g d) }

def sink : Sink Out World where
  name := Sited.fold memorySink.name diskSink.name
  position := Sited.fold memorySink.position diskSink.position
  write data := onHandle (memorySink.write data) (diskSink.write data)
  flush := onHandle memorySink.flush diskSink.flush
  close := onHandle memorySink.close diskSink.close
  drop := dropHandle memorySink.drop diskSink.drop

def keeper : Keeper Lock World where
  name := Sited.fold memoryKeeper.name diskKeeper.name
  release := onHandle memoryKeeper.release diskKeeper.release
  drop := dropHandle memoryKeeper.drop diskKeeper.drop

end World

end Blockwise
