import Blockwise.Proofs.Maps
import Blockwise.Proofs.Matching
import Blockwise.Proofs.Ranges
import Blockwise.Session

namespace Blockwise

open Act
open Session (Answer)

abbrev Files := Std.TreeMap String Bytes

namespace Files

def find (name : String) : Act Files Bytes := do
  match (← get)[name]? with
  | some data => return data
  | none => Act.fail (.fileNotFound name)

def length (name : String) : Act Files Nat := do
  return (← find name).size

theorem find_none {files : Files} {name : String} (h : files[name]? = none) :
    find name files = .error (.error (.fileNotFound name)) files := by
  rw [find, get_bind, h]
  rfl

theorem find_some {files : Files} {name : String} {data : Bytes} (h : files[name]? = some data) :
    find name files = .ok data files := by
  rw [find, get_bind, h]
  rfl

def write (name : String) (data : Bytes) : Act Files Unit := modify (·.insert name data)

def delete (name : String) : Act Files Unit := do
  let _ ← find name
  modify (·.erase name)

def hasFile (name : String) : Act Files Bool := do
  return (← get)[name]?.isSome

def list : Act Files (List String) := do
  return (← get).keys

def sync (names : List String) : Act Files Unit :=
  names.forM fun name => do let _ ← find name

end Files

-- What is done with whole files.
inductive Use where
  | write (name : String) (purpose : Purpose) (data : Bytes)
  | read (name : String) (purpose : Purpose)
  | delete (name : String)
  | hasFile (name : String)
  | length (name : String)
  | list
  | sync (names : List String)

namespace Use

variable {σ ι δ κ : Type}

def names : Use → List String
  | write name _ _ | read name _ | delete name | hasFile name | length name => [name]
  | list => []
  | sync names => names

def run (v : Volume σ ι δ κ) (feed : Feed ι σ) (sink : Sink δ σ) : Use → Act σ Answer
  | write name purpose data => (fun _ => .done) <$> v.writeWhole sink name purpose data
  | read name purpose => .bytes <$> v.readWhole feed name purpose
  | delete name => (fun _ => .done) <$> v.delete name
  | hasFile name => .flag <$> v.hasFile name
  | length name => .number <$> v.length name
  | list => .names <$> v.list
  | sync names => (fun _ => .done) <$> v.sync names

-- The answer that files give, and what becomes of them.
def expected : Use → Act Files Answer
  | write name _ data => (fun _ => .done) <$> Files.write name data
  | read name _ => .bytes <$> Files.find name
  | delete name => (fun _ => .done) <$> Files.delete name
  | hasFile name => .flag <$> Files.hasFile name
  | length name => .number <$> Files.length name
  | list => .names <$> Files.list
  | sync names => (fun _ => .done) <$> Files.sync names

end Use

-- Calls on a volume that keeps files go side by side with what becomes of the files.
structure Volume.Stores {σ ι δ κ : Type} (v : Volume σ ι δ κ) (feed : Feed ι σ) (sink : Sink δ σ)
    (R : σ → Files → Prop) (good : String → Prop) : Prop where
  write : ∀ name purpose data, good name →
    Matches R Eq (v.writeWhole sink name purpose data) (Files.write name data)
  read : ∀ name purpose, good name → Matches R Eq (v.readWhole feed name purpose) (Files.find name)
  delete : ∀ name, good name → Matches R Eq (v.delete name) (Files.delete name)
  hasFile : ∀ name, good name → Matches R Eq (v.hasFile name) (Files.hasFile name)
  length : ∀ name, good name → Matches R Eq (v.length name) (Files.length name)
  list : Matches R Eq v.list Files.list
  sync : ∀ names, (∀ name ∈ names, good name) → Matches R Eq (v.sync names) (Files.sync names)

theorem Volume.Stores.matches {σ ι δ κ : Type} {v : Volume σ ι δ κ} {feed : Feed ι σ}
    {sink : Sink δ σ} {R : σ → Files → Prop} {good : String → Prop} (h : v.Stores feed sink R good)
    (use : Use) (hgood : ∀ name ∈ use.names, good name) :
    Matches R Eq (use.run v feed sink) use.expected := by
  have hfirst {name : String} {rest : List String} (h : ∀ other ∈ name :: rest, good other) :
      good name := h name List.mem_cons_self
  cases use with
  | write name purpose data => exact (h.write name purpose data (hfirst hgood)).map fun _ _ _ => rfl
  | read name purpose => exact (h.read name purpose (hfirst hgood)).map fun _ _ => congrArg _
  | delete name => exact (h.delete name (hfirst hgood)).map fun _ _ _ => rfl
  | hasFile name => exact (h.hasFile name (hfirst hgood)).map fun _ _ => congrArg _
  | length name => exact (h.length name (hfirst hgood)).map fun _ _ => congrArg _
  | list => exact h.list.map fun _ _ => congrArg _
  | sync names => exact (h.sync names hgood).map fun _ _ _ => rfl

namespace MemoryStore

-- An open store with the given files.
structure Holds (m : MemoryStore) (files : Files) : Prop where
  still_open : m.closed = false
  data : ∀ name : String, m.files[name]?.map MemoryFile.data = files[name]?

theorem requireOpen_ok {m : MemoryStore} (h : m.closed = false) : requireOpen m = .ok () m := by
  rw [requireOpen, get_bind, h]
  rfl

theorem find_matches (name : String) :
    Matches Holds (fun file data => file.data = data) (find name) (Files.find name) := by
  refine .get fun m files h => ?_
  rw [← h.data name]
  cases m.files[name]? with
  | none => exact .error h
  | some file => exact .ok rfl h

theorem Holds.keys {m : MemoryStore} {files : Files} (h : m.Holds files) :
    m.files.keys = files.keys := by
  refine Maps.eq_keys Std.TreeMap.ordered_keys fun name => ?_
  rw [Std.TreeMap.mem_keys, Std.TreeMap.mem_iff_isSome_getElem?, ← h.data name, Option.isSome_map]

theorem delete_matches (name : String) :
    Matches Holds Eq (delete name) (Files.delete name) := by
  refine .skip (fun m files h => requireOpen_ok h.still_open) ?_
  refine (find_matches name).bind fun _ _ _ => .modify fun m files h => ?_
  refine ⟨h.still_open, fun other => ?_⟩
  rw [Maps.getElem?_erase, Maps.getElem?_erase, ← h.data other]
  split <;> rfl

theorem writeWhole_ok {m : MemoryStore} (h : m.closed = false) (stamped : Bool) (name : String)
    (purpose : Purpose) (data : Bytes) : (volume stamped).writeWhole sink name purpose data m =
      .ok () ((m.publish name ByteArray.empty).publish name data) := by
  obtain ⟨files, locks, clock, reads, closed⟩ := m
  obtain rfl : closed = false := h
  have hwritten : ByteArray.empty ++ data = data := ByteArray.empty_append
  conv_rhs => rw [← hwritten]
  rfl

theorem writeWhole_matches (stamped : Bool) (name : String) (purpose : Purpose) (data : Bytes) :
    Matches Holds Eq ((volume stamped).writeWhole sink name purpose data) (Files.write name data) := by
  intro m files h
  rw [writeWhole_ok h.still_open]
  refine .ok rfl ⟨h.still_open, fun other => ?_⟩
  simp only [publish, Maps.getElem?_insert]
  split
  · rfl
  · exact h.data other

theorem readAt_whole (name : String) (data : Bytes) (m : MemoryStore) :
    readAt ⟨name, data⟩ 0 data.size m = (⟨data, none⟩, { m with reads := m.reads + 1 }) := by
  have hin : readPastEof name 0 data.size data.size = none := by
    rw [readPastEof, if_neg (by omega)]
  simp only [readAt, hin, Bytes.slice_whole]

theorem readWhole_matches (stamped : Bool) (name : String) (purpose : Purpose) :
    Matches Holds Eq ((volume stamped).readWhole feed name purpose) (Files.find name) := by
  have hopen : Matches Holds (fun input data => input = ⟨name, data⟩)
      ((volume stamped).openInput name purpose) (Files.find name) := by
    refine .skip (fun m files h => requireOpen_ok h.still_open) ?_
    rw [← bind_pure (Files.find name)]
    refine (find_matches name).bind ?_
    rintro file _ rfl
    exact .pure rfl
  rw [← bind_pure (Files.find name)]
  refine hopen.bind ?_
  rintro _ data rfl m files h
  have hread := readAt_whole name data m
  rw [bind_ok (modifyGet_apply _)]
  simp only [feed, hread]
  exact .ok rfl ⟨h.still_open, h.data⟩

theorem volume_stores (stamped : Bool) :
    (volume stamped).Stores feed sink Holds fun _ => True where
  write name purpose data _ := writeWhole_matches stamped name purpose data
  read name purpose _ := readWhole_matches stamped name purpose
  delete name _ := delete_matches name
  hasFile name _ := .get fun m files h => by
    rw [Std.TreeMap.contains_eq_isSome_getElem?, ← h.data name, Option.isSome_map]
    exact .ok rfl h
  length name _ := (find_matches name).bind fun _ _ h => .pure (congrArg ByteArray.size h)
  list := .skip (fun m files h => requireOpen_ok h.still_open) (.get fun m files h => .ok h.keys h)
  sync names _ := .forM fun name _ => (find_matches name).bind fun _ _ _ => .pure rfl

end MemoryStore

end Blockwise
