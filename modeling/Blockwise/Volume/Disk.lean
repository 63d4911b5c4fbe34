import Blockwise.Volume
import Blockwise.Volume.Disk.Tree

namespace Blockwise

-- The root is kept in parts as it was given and looked up anew for every name. It is shown by its
-- label.
structure DiskStore where
  tree : Disk.Tree := {}
  root : List String := Disk.top
  label : String
  closed : Bool := false

-- An input on a directory has no file number.
structure DiskInput where
  name : String
  number : Option Nat
  length : Nat

structure DiskOutput where
  name : String
  number : Nat
  buffer : Bytes := ByteArray.empty
  offset : Nat := 0
  written : Nat := 0
  closed : Bool := false

structure DiskLock where
  name : String
  held : Bool := true

namespace DiskStore

variable {α : Type}

-- Opens a directory below the top of a tree, making it if it is not there.
def openAt (tree : Disk.Tree) (label below : String) : Except StorageError DiskStore :=
  let root := Disk.join Disk.top below
  match tree.makeDirectories root with
  | (none, tree) => .ok { tree, root, label }
  | (some cause, _) => .error (.io cause)

-- The path of a name.
def path (s : DiskStore) (name : String) : List String := Disk.join s.root name

def requireOpen : Act DiskStore Unit := do
  let s ← get
  if s.closed then Act.fail (.closed s.label)

-- A missing file has an error of its own; all else is an I/O error.
def missing (name : String) (cause : IoCause) : StorageError :=
  if cause.isNotFound then .fileNotFound name else .io cause

-- Runs a question about the tree.
def ask (blame : IoCause → StorageError) (f : DiskStore → Except IoCause α) : Act DiskStore α := do
  match f (← get) with
  | .ok a => return a
  | .error cause => Act.fail (blame cause)

def setTree (tree : Disk.Tree) : Act DiskStore Unit :=
  modify fun s => { s with tree }

-- The length that directories show.
def directoryLength : Nat := 4096

def lengthOf (s : DiskStore) : Disk.Node → Nat
  | .file number => (s.tree.content number).data.size
  | .directory => directoryLength

def find (name : String) : Act DiskStore Disk.Node :=
  ask (missing name) fun s => s.tree.find (s.path name)

def openFile (name : String) : Act DiskStore DiskInput := do
  match ← find name with
  | .file number => return { name, number := some number, length := (← get).lengthOf (.file number) }
  | .directory => return { name, number := none, length := directoryLength }

def create (name : String) : Act DiskStore DiskOutput := do
  requireOpen
  let (number, tree) ← ask .io fun s => s.tree.create (s.path name)
  setTree tree
  return { name, number }

def delete (name : String) : Act DiskStore Unit := do
  requireOpen
  setTree (← ask (missing name) fun s => s.tree.unlink (s.path name))

def stampOf (name : String) : Act DiskStore Nat := do
  match ← find name with
  | .file number => return ((← get).tree.content number).stamp
  | .directory => return 0

-- A lock is an empty file that nobody else may have made.
def lock (name : String) : Act DiskStore DiskLock := do
  requireOpen
  let held (cause : IoCause) : StorageError :=
    if cause = .os Disk.Errno.fileExists then .lockHeld name else .io cause
  setTree (← ask held fun s => s.tree.createNew (s.path name))
  return { name }

def hasFile (s : DiskStore) (name : String) : Bool :=
  match s.tree.find (s.path name) with
  | .ok (.file _) => true
  | _ => false

def volume : Volume DiskStore DiskInput DiskOutput DiskLock where
  openInput name _ := do requireOpen; openFile name
  create name _ := create name
  list := do requireOpen; ask .io fun s => s.tree.fileNames s.root
  delete := delete
  hasFile name := return (← get).hasFile name
  length name := return (← get).lengthOf (← find name)
  stamp := stampOf
  stamped := true
  sync names := names.forM fun name => do let _ ← find name
  lock := lock
  close := modify fun s => { s with closed := true }

-- A file cut off behind an open input is read as far as it goes.
def deliver (data : Bytes) (position len : Nat) : Delivery :=
  let bytes := Bytes.slice data position len
  if bytes.size < len then ⟨bytes, some (.error (.io (.other "failed to fill whole buffer")))⟩
  else ⟨bytes, none⟩

def readAt (input : DiskInput) (position len : Nat) (s : DiskStore) : Delivery × DiskStore :=
  match readPastEof input.name position len input.length with
  | some e => (.refused e, s)
  | none =>
    match input.number with
    | some number => (deliver (s.tree.content number).data position len, s)
    | none =>
      if len = 0 then (⟨ByteArray.empty, none⟩, s)
      else (.refused (.io (.os Disk.Errno.isDirectory)), s)

-- A clone opens the file again by its name.
def feed : Feed DiskInput DiskStore where
  name := DiskInput.name
  length := DiskInput.length
  seek _ _ := return ()
  read := readAt
  clone input := openFile input.name

def bufferSize : Nat := 8192

-- Writes past the buffer, at the output's own offset.
def writeDirect (data : Bytes) (out : DiskOutput) (s : DiskStore) : DiskOutput × DiskStore :=
  ({ out with offset := out.offset + data.size },
    { s with tree := s.tree.writeAt out.number out.offset data })

def flushBuffer (out : DiskOutput) (s : DiskStore) : DiskOutput × DiskStore :=
  let (out, s) := writeDirect out.buffer out s
  ({ out with buffer := ByteArray.empty }, s)

-- What does not fit pushes the buffer out; what fills a whole buffer goes past it.
def writeBuffered (data : Bytes) (out : DiskOutput) (s : DiskStore) : DiskOutput × DiskStore :=
  let (out, s) :=
    if bufferSize < out.buffer.size + data.size then flushBuffer out s else (out, s)
  if bufferSize ≤ data.size then writeDirect data out s
  else ({ out with buffer := out.buffer ++ data }, s)

def flush : Act (DiskOutput × DiskStore) Unit := do
  let (out, s) ← get
  if out.closed then Act.fail (.closed out.name)
  set (flushBuffer out s)

-- A dropped output still writes out its buffer.
def sink : Sink DiskOutput DiskStore where
  name := DiskOutput.name
  position := DiskOutput.written
  write data := do
    let (out, s) ← get
    if out.closed then Act.fail (.closed out.name)
    let (out, s) := writeBuffered data out s
    set ({ out with written := out.written + data.size }, s)
  flush := flush
  close := modify fun (out, s) =>
    if out.closed then (out, s)
    else
      let (out, s) := flushBuffer out s
      ({ out with closed := true }, s)
  drop out s := if out.closed then s else (flushBuffer out s).2

-- A lock that is released or dropped takes its file away; one that was released does so once.
def keeper : Keeper DiskLock DiskStore where
  name := DiskLock.name
  release := do
    let (lock, s) ← get
    set ({ lock with held := false }, s)
    match s.tree.unlink (s.path lock.name) with
    | .ok tree => modify fun (lock, s) => (lock, { s with tree })
    | .error cause => Act.fail (missing lock.name cause)
  drop lock s :=
    if lock.held then
      match s.tree.unlink (s.path lock.name) with
      | .ok tree => { s with tree }
      | .error _ => s
    else s

end DiskStore

end Blockwise
