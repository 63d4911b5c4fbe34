import Blockwise.Volume
import Std.Data.TreeMap.Basic
import Std.Data.TreeSet.Basic

namespace Blockwise

structure MemoryFile where
  data : Bytes
  stamp : Nat

-- Every publication takes the next stamp of one clock, so a name and a stamp never mean two
-- contents. The reads counted are those that succeeded.
structure MemoryStore where
  files : Std.TreeMap String MemoryFile := ∅
  locks : Std.TreeSet String := ∅
  clock : Nat := 0
  reads : Nat := 0
  closed : Bool := false

-- An input keeps the bytes of the moment it was opened.
structure MemoryInput where
  name : String
  data : Bytes

structure MemoryOutput where
  name : String
  buffer : Bytes := ByteArray.empty
  dirty : Bool := false
  closed : Bool := false

structure MemoryLock where
  name : String
  held : Bool := true

namespace MemoryStore

def publish (s : MemoryStore) (name : String) (data : Bytes) : MemoryStore :=
  { s with clock := s.clock + 1, files := s.files.insert name ⟨data, s.clock + 1⟩ }

def requireOpen : Act MemoryStore Unit := do
  if (← get).closed then Act.fail (.closed "memory storage")

def find (name : String) : Act MemoryStore MemoryFile := do
  match (← get).files[name]? with
  | some file => return file
  | none => Act.fail (.fileNotFound name)

def delete (name : String) : Act MemoryStore Unit := do
  requireOpen
  let _ ← find name
  modify fun s => { s with files := s.files.erase name }

def lock (name : String) : Act MemoryStore MemoryLock := do
  requireOpen
  if (← get).locks.contains name then Act.fail (.lockHeld name)
  modify fun s => { s with locks := s.locks.insert name }
  return { name }

-- Lookups, unlike all that opens or changes something, still work on a closed store.
def volume (stamped : Bool) : Volume MemoryStore MemoryInput MemoryOutput MemoryLock where
  openInput name _ := do
    requireOpen
    return { name, data := (← find name).data }
  create name _ := do
    requireOpen
    modify (·.publish name ByteArray.empty)
    return { name }
  list := do
    requireOpen
    return (← get).files.keys
  delete := delete
  hasFile name := return (← get).files.contains name
  length name := return (← find name).data.size
  stamp name := do
    if !stamped then Act.fail (.unsupported (.stampSwitchedOff name))
    return (← find name).stamp
  stamped := stamped
  sync names := names.forM fun name => do let _ ← find name
  lock := lock
  close := modify fun s => { s with closed := true }

def readAt (input : MemoryInput) (position len : Nat) (s : MemoryStore) : Delivery × MemoryStore :=
  match readPastEof input.name position len input.data.size with
  | some e => (.refused e, s)
  | none => (⟨Bytes.slice input.data position len, none⟩, { s with reads := s.reads + 1 })

def feed : Feed MemoryInput MemoryStore where
  name := MemoryInput.name
  length input := input.data.size
  seek _ _ := return ()
  read := readAt
  clone input := return input

-- Publishes what was written since the last time, together with all before it.
def flush : Act (MemoryOutput × MemoryStore) Unit :=
  modify fun (out, s) =>
    if out.dirty then ({ out with dirty := false }, s.publish out.name out.buffer) else (out, s)

-- A dropped output publishes nothing.
def sink : Sink MemoryOutput MemoryStore where
  name := MemoryOutput.name
  position out := out.buffer.size
  write data := do
    let (out, s) ← get
    if out.closed then Act.fail (.closed out.name)
    set ({ out with buffer := out.buffer ++ data, dirty := true }, s)
  flush := flush
  close := do
    let (out, _) ← get
    if out.closed then return ()
    flush
    modify fun (out, s) => ({ out with closed := true }, s)
  drop _ s := s

def free (name : String) (s : MemoryStore) : MemoryStore :=
  { s with locks := s.locks.erase name }

-- A lock that was released no longer holds anything, so dropping it frees nobody else's.
def keeper : Keeper MemoryLock MemoryStore where
  name := MemoryLock.name
  release := modify fun (lock, s) => ({ lock with held := false }, s.free lock.name)
  drop lock s := if lock.held then s.free lock.name else s

end MemoryStore

end Blockwise
