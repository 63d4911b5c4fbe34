import Blockwise.Bytes
import Blockwise.Failure
import Std.Data.TreeMap.Basic

namespace Blockwise

namespace Disk

-- The names on the way down to something in the tree.
abbrev Path := List String

inductive Node where
  | file (number : Nat)
  | directory
  deriving DecidableEq, Repr

-- A file's stamp changes whenever its bytes may have changed.
structure Content where
  data : Bytes
  stamp : Nat

-- The directory that a tree starts with. No part of a name can spell it, so it is reached from
-- outside only by those who were given it.
def top : Path := ["/"]

-- Everything that has a name, what the top directory lies in included, and the contents of all
-- files ever made.
structure Tree where
  nodes : Std.TreeMap Path Node :=
    ((∅ : Std.TreeMap Path Node).insert [] .directory).insert top .directory
  contents : Std.TreeMap Nat Content := ∅
  nextNumber : Nat := 0
  clock : Nat := 0

-- The error numbers that names can give rise to.
namespace Errno

def noEntry : Nat := 2
def fileExists : Nat := 17
def notDirectory : Nat := 20
def isDirectory : Nat := 21
def nameTooLong : Nat := 36

end Errno

-- What a path leads to once all directories on the way are found: a directory reached by
-- itself, or an entry of one, which need not exist.
inductive Place where
  | itself (path : Path)
  | entry (parent : Path) (name : String) (slash : Bool)
  deriving DecidableEq, Repr

-- The path of what is in a place, or would be.
def Place.path : Place → Path
  | .itself path => path
  | .entry parent name _ => parent ++ [name]

def addChar (c : Char) : List (List Char) → List (List Char)
  | [] => [[c]]
  | part :: rest => if c = '/' then [] :: part :: rest else (c :: part) :: rest

-- The parts of a name between slashes, empty ones included.
def components (name : String) : List String :=
  (name.toList.foldr addChar [[]]).map String.ofList

-- A part that leads nowhere else.
def staysPut (part : String) : Bool := part = "" || part = "."

-- The parts with those left out at the end that stay put.
def trimmed (parts : List String) : List String := (parts.reverse.dropWhile staysPut).reverse

-- The parts of the directory that a name lies in.
def above (parts : List String) : List String := trimmed (trimmed parts).dropLast

theorem length_trimmed_le (parts : List String) : (trimmed parts).length ≤ parts.length := by
  simpa [trimmed] using (List.dropWhile_suffix staysPut (l := parts.reverse)).length_le

theorem length_above_lt {parts : List String} (h : parts ≠ []) :
    (above parts).length < parts.length := by
  have hpos := List.length_pos_iff.2 h
  have hin := length_trimmed_le parts
  have hout := length_trimmed_le (trimmed parts).dropLast
  rw [List.length_dropLast] at hout
  unfold above
  omega

-- The path of a name below a root. An absolute name starts anew.
def join (root : List String) (name : String) : List String :=
  if name.toList.head? = some '/' then components name else root ++ components name

def maxNameBytes : Nat := 255

def maxPathBytes : Nat := 4096

-- The bytes of a path, with one more after every part for the slash or the end.
def pathBytes (parts : List String) : Nat :=
  parts.foldr (fun part total => part.utf8ByteSize + 1 + total) 0

-- What a path is refused for before anything is looked up.
def refused (parts : List String) : Option IoCause :=
  if parts.any (·.toList.contains '\x00') then
    some (.other "file name contained an unexpected NUL byte")
  else if maxPathBytes < pathBytes parts then some (.os Errno.nameTooLong)
  else none

namespace Tree

variable {α : Type}

def fail (code : Nat) : Except IoCause α := .error (.os code)

-- One entry of a directory. A name that is too long is refused before it is looked for.
def entry? (t : Tree) (parent : Path) (name : String) : Except IoCause (Option Node) :=
  if maxNameBytes < name.utf8ByteSize then fail Errno.nameTooLong
  else .ok t.nodes[parent ++ [name]]?

-- Walks from a directory. Only the last part may be missing or be a file; slashes after it are
-- remembered.
def walk (t : Tree) : Path → List String → Except IoCause Place
  | path, [] => .ok (.itself path)
  | path, part :: rest =>
    if staysPut part then walk t path rest
    else if part = ".." then walk t path.dropLast rest
    else if rest.all (· = "") then .ok (.entry path part !rest.isEmpty)
    else do
      match ← t.entry? path part with
      | none => fail Errno.noEntry
      | some (.file _) => fail Errno.notDirectory
      | some .directory => walk t (path ++ [part]) rest

-- The place of a path. All of it is looked up, so the path of the top directory stands for an entry
-- of the directory that it lies in.
def locate (t : Tree) (parts : List String) : Except IoCause Place :=
  match refused parts with
  | some cause => .error cause
  | none => t.walk [] parts

-- What is there in a place.
def nodeAt (t : Tree) : Place → Except IoCause Node
  | .itself _ => .ok .directory
  | .entry parent last slash => do
    match ← t.entry? parent last with
    | none => fail Errno.noEntry
    | some (.file number) => if slash then fail Errno.notDirectory else return .file number
    | some .directory => return .directory

def find (t : Tree) (parts : List String) : Except IoCause Node := do
  t.nodeAt (← t.locate parts)

def isDirectory (t : Tree) (parts : List String) : Bool :=
  match t.find parts with
  | .ok .directory => true
  | _ => false

def content (t : Tree) (number : Nat) : Content := t.contents[number]?.getD ⟨ByteArray.empty, 0⟩

-- Gives a file new bytes and the next stamp.
def setData (t : Tree) (number : Nat) (data : Bytes) : Tree :=
  { t with clock := t.clock + 1, contents := t.contents.insert number ⟨data, t.clock + 1⟩ }

-- Writes at an offset of a file; a gap before it is filled with zeros.
def writeAt (t : Tree) (number offset : Nat) (data : Bytes) : Tree :=
  if data.size = 0 then t
  else
    let old := (t.content number).data
    t.setData number (Bytes.overlay (Bytes.padTo old (offset + data.size)) offset data)

def addFile (t : Tree) (path : Path) (data : Bytes) : Nat × Tree :=
  let number := t.nextNumber
  (number, { t with nextNumber := number + 1, nodes := t.nodes.insert path (.file number) }.setData
    number data)

-- Makes a file, or empties the one that is there.
def create (t : Tree) (parts : List String) : Except IoCause (Nat × Tree) := do
  match ← t.locate parts with
  | .itself _ => fail Errno.isDirectory
  | .entry parent last slash =>
    if slash then fail Errno.isDirectory
    else match ← t.entry? parent last with
      | some .directory => fail Errno.isDirectory
      | some (.file number) => return (number, t.setData number ByteArray.empty)
      | none => return t.addFile (parent ++ [last]) ByteArray.empty

-- Makes an empty file that must not be there yet.
def createNew (t : Tree) (parts : List String) : Except IoCause Tree := do
  match ← t.locate parts with
  | .itself _ => fail Errno.fileExists
  | .entry parent last slash =>
    if slash then fail Errno.isDirectory
    else match ← t.entry? parent last with
      | some _ => fail Errno.fileExists
      | none => return (t.addFile (parent ++ [last]) ByteArray.empty).2

-- Takes the name off a file.
def unlink (t : Tree) (parts : List String) : Except IoCause Tree := do
  match ← t.locate parts with
  | .itself _ => fail Errno.isDirectory
  | .entry parent last slash =>
    match ← t.entry? parent last with
    | none => fail Errno.noEntry
    | some .directory => fail Errno.isDirectory
    | some (.file _) =>
      if slash then fail Errno.notDirectory
      else return { t with nodes := t.nodes.erase (parent ++ [last]) }

-- Makes one directory. A directory that is there already cannot be made.
def makeDirectory (t : Tree) (parts : List String) : Except IoCause Tree := do
  match ← t.locate parts with
  | .itself _ => fail Errno.fileExists
  | .entry parent last _ =>
    match ← t.entry? parent last with
    | some _ => fail Errno.fileExists
    | none => return { t with nodes := t.nodes.insert (parent ++ [last]) .directory }

-- Makes one directory unless it is there.
def ensureDirectory (t : Tree) (parts : List String) : Except IoCause Tree :=
  match t.makeDirectory parts with
  | .ok t' => .ok t'
  | .error cause => if t.isDirectory parts then .ok t else .error cause

-- Makes a directory and, if something on the way is missing, first the directory it lies in. The
-- directories that were made before a failure stay.
def makeDirectories (t : Tree) (parts : List String) : Option IoCause × Tree :=
  match t.ensureDirectory parts with
  | .ok t => (none, t)
  | .error cause =>
    if _ : parts ≠ [] ∧ cause.isNotFound then
      match makeDirectories t (above parts) with
      | (some cause, t) => (some cause, t)
      | (none, t) =>
        match t.ensureDirectory parts with
        | .ok t => (none, t)
        | .error cause => (some cause, t)
    else (some cause, t)
termination_by parts.length
decreasing_by exact length_above_lt (And.left ‹_›)

-- The files right below a directory, in order of name.
def fileNames (t : Tree) (parts : List String) : Except IoCause (List String) := do
  let place ← t.locate parts
  match ← t.nodeAt place with
  | .file _ => fail Errno.notDirectory
  | .directory =>
    return t.nodes.toList.filterMap fun
      | (path, .file _) => if path.dropLast = place.path then path.getLast? else none
      | (_, .directory) => none

-- Takes away all below a directory, and the directory if it is reached as an entry of another.
def removeAll (t : Tree) (parts : List String) : Tree :=
  if t.isDirectory parts then
    match t.locate parts with
    | .error _ => t
    | .ok (.itself path) =>
      { t with nodes := t.nodes.filter fun other _ => other = path || !path.isPrefixOf other }
    | .ok (.entry parent last _) =>
      { t with nodes := t.nodes.filter fun other _ => !(parent ++ [last]).isPrefixOf other }
  else t

end Tree

end Disk

end Blockwise
