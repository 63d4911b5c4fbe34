import Std.Data.TreeSet.Basic

namespace Blockwise

-- Which files are cached, and in which direction. No set of endings means every file.
structure Policy where
  endings : Option (Std.TreeSet String) := none
  readCache : Bool := true
  writeCache : Bool := true

namespace Policy

def disabled : Policy := { readCache := false, writeCache := false }

-- An empty set of endings means every file, like no set at all.
def normalized (p : Policy) : Policy :=
  if p.endings.any (·.isEmpty) then { p with endings := none } else p

def withEndings (p : Policy) (endings : List String) : Policy :=
  { p with endings := some (Std.TreeSet.ofList endings) }.normalized

def admits (p : Policy) (name : String) : Bool :=
  match p.endings with
  | none => true
  | some endings => endings.toList.any fun ending => name.endsWith ending

def enabled (p : Policy) : Bool := p.readCache || p.writeCache

-- The endings in order, as they are written.
def endingList (p : Policy) : Option (List String) := p.endings.map (·.toList)

instance : BEq Policy where
  beq p q := p.endingList == q.endingList && p.readCache == q.readCache &&
    p.writeCache == q.writeCache

end Policy

end Blockwise
