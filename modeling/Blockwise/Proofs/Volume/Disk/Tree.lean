import Blockwise.Proofs.Maps
import Blockwise.Proofs.Ranges
import Blockwise.Volume.Disk.Tree
import Mathlib.Data.List.Basic
import Mathlib.Tactic.Common

namespace Blockwise

namespace Disk

variable {name : String} {root parts : List String} {path base : Path} {place : Place}
  {t t' : Tree}

-- A name that an entry of a directory can have.
structure Plain (name : String) : Prop where
  nonempty : name ≠ ""
  short : name.utf8ByteSize ≤ maxNameBytes
  slashless : '/' ∉ name.toList
  nulless : '\x00' ∉ name.toList
  not_itself : name ≠ "."
  not_above : name ≠ ".."

instance (name : String) : Decidable (Plain name) :=
  decidable_of_iff (name ≠ "" ∧ name.utf8ByteSize ≤ maxNameBytes ∧ '/' ∉ name.toList ∧
      '\x00' ∉ name.toList ∧ name ≠ "." ∧ name ≠ "..")
    ⟨fun ⟨h₁, h₂, h₃, h₄, h₅, h₆⟩ => ⟨h₁, h₂, h₃, h₄, h₅, h₆⟩,
      fun ⟨h₁, h₂, h₃, h₄, h₅, h₆⟩ => ⟨h₁, h₂, h₃, h₄, h₅, h₆⟩⟩

-- The path of a root has room for the name.
def Fits (root : List String) (name : String) : Prop :=
  pathBytes (root ++ [name]) ≤ maxPathBytes

instance (root : List String) (name : String) : Decidable (Fits root name) :=
  inferInstanceAs (Decidable (_ ≤ _))

theorem foldr_addChar {chars : List Char} (h : '/' ∉ chars) :
    chars.foldr addChar [[]] = [chars] := by
  induction chars with
  | nil => rfl
  | cons c rest ih =>
    obtain ⟨hc, hrest⟩ := not_or.mp (List.mem_cons.not.mp h)
    rw [List.foldr_cons, ih hrest, addChar, if_neg (Ne.symm hc)]

namespace Plain

theorem components (h : Plain name) : components name = [name] := by
  rw [Disk.components, foldr_addChar h.slashless, List.map_singleton, String.ofList_toList]

theorem join (h : Plain name) (root : List String) : join root name = root ++ [name] := by
  unfold Disk.join
  have hhead : name.toList.head? ≠ some '/' := fun hhead => h.slashless (List.mem_of_mem_head? hhead)
  rw [if_neg hhead, h.components]

theorem not_staysPut (h : Plain name) : ¬staysPut name = true := by
  simp [staysPut, h.nonempty, h.not_itself]

end Plain

namespace Tree

theorem walk_plain (t : Tree) (path : Path) (h : Plain name) :
    t.walk path [name] = .ok (.entry path name false) := by
  rw [walk, if_neg h.not_staysPut, if_neg h.not_above]
  rfl

-- Slashes after a directory change nothing about its entries.
theorem walk_blanks (h : Plain name) (hblank : parts.all (· = "") = true) :
    t.walk path (parts ++ [name]) = .ok (.entry path name false) := by
  induction parts with
  | nil => exact t.walk_plain path h
  | cons part rest ih =>
    obtain ⟨hpart, hrest⟩ := Bool.and_eq_true_iff.mp hblank
    have hstays : staysPut part = true := by simp [staysPut, of_decide_eq_true hpart]
    rw [List.cons_append, walk, if_pos hstays, ih hrest]

-- The one way to walk on past a part.
theorem directory_of_walk {part : String} {rest : List String} (hput : ¬staysPut part = true)
    (hup : part ≠ "..") (hrest : ¬rest.all (· = "") = true)
    (h : t.walk path (part :: rest) = .ok place) :
    t.entry? path part = .ok (some .directory) ∧ t.walk (path ++ [part]) rest = .ok place := by
  rw [walk, if_neg hput, if_neg hup, if_neg hrest] at h
  cases hentry : t.entry? path part with
  | error cause =>
    rw [hentry] at h
    cases h
  | ok found =>
    rw [hentry] at h
    match found with
    | none => cases h
    | some (.file _) => cases h
    | some .directory => exact ⟨rfl, h⟩

theorem directory_of_nodeAt {parent : Path} {last : String} {slash : Bool}
    (h : t.nodeAt (.entry parent last slash) = .ok .directory) :
    t.entry? parent last = .ok (some .directory) := by
  simp only [nodeAt] at h
  cases hentry : t.entry? parent last with
  | error cause =>
    rw [hentry] at h
    cases h
  | ok found =>
    rw [hentry] at h
    match found with
    | none => cases h
    | some (.file _) => cases slash <;> cases h
    | some .directory => rfl

theorem walk_directory {part : String} {rest : List String} (hput : ¬staysPut part = true)
    (hup : part ≠ "..") (hrest : ¬rest.all (· = "") = true)
    (hentry : t.entry? path part = .ok (some .directory)) :
    t.walk path (part :: rest) = t.walk (path ++ [part]) rest := by
  rw [walk, if_neg hput, if_neg hup, if_neg hrest, hentry]
  rfl

theorem walk_append (hname : Plain name) (h : t.walk path parts = .ok place)
    (hnode : t.nodeAt place = .ok .directory) :
    t.walk path (parts ++ [name]) = .ok (.entry place.path name false) := by
  induction path, parts using Tree.walk.induct with
  | case1 path =>
    obtain rfl := Except.ok.inj h
    exact t.walk_plain path hname
  | case2 path part rest hput ih =>
    rw [walk, if_pos hput] at h
    rw [List.cons_append, walk, if_pos hput]
    exact ih h
  | case3 path rest hput ih =>
    rw [walk, if_neg hput, if_pos rfl] at h
    rw [List.cons_append, walk, if_neg hput, if_pos rfl]
    exact ih h
  | case4 path part rest hput hup hblank =>
    rw [walk, if_neg hput, if_neg hup, if_pos hblank] at h
    obtain rfl := Except.ok.inj h
    rw [List.cons_append, walk_directory hput hup ?_ (directory_of_nodeAt hnode)]
    · exact walk_blanks hname hblank
    · simp [hname.nonempty]
  | case5 path part rest hput hup hrest ih =>
    obtain ⟨hentry, hwalk⟩ := directory_of_walk hput hup hrest h
    rw [List.cons_append, walk_directory hput hup ?_ hentry]
    · exact ih hwalk
    · simp [hname.nonempty]

-- All directories stay where they are.
def Keeps (t t' : Tree) : Prop :=
  ∀ path : Path, t.nodes[path]? = some .directory → t'.nodes[path]? = some .directory

theorem Keeps.entry (h : t.Keeps t') (hentry : t.entry? path name = .ok (some .directory)) :
    t'.entry? path name = .ok (some .directory) := by
  unfold entry? at hentry ⊢
  split at hentry
  · cases hentry
  · next hshort => rw [if_neg hshort, h _ (Except.ok.inj hentry)]

theorem Keeps.walk (h : t.Keeps t') (hwalk : t.walk path parts = .ok place) :
    t'.walk path parts = .ok place := by
  induction path, parts using Tree.walk.induct with
  | case1 path => exact hwalk
  | case2 path part rest hput ih =>
    rw [Tree.walk, if_pos hput] at hwalk ⊢
    exact ih hwalk
  | case3 path rest hput ih =>
    rw [Tree.walk, if_neg hput, if_pos rfl] at hwalk ⊢
    exact ih hwalk
  | case4 path part rest hput hup hblank =>
    rw [Tree.walk, if_neg hput, if_neg hup, if_pos hblank] at hwalk ⊢
    exact hwalk
  | case5 path part rest hput hup hrest ih =>
    obtain ⟨hentry, hwalk⟩ := directory_of_walk hput hup hrest hwalk
    rw [walk_directory hput hup hrest (h.entry hentry)]
    exact ih hwalk

-- An entry with the bytes of a file, or none.
inductive Entry (t : Tree) (path : Path) : Option Bytes → Prop where
  | none (hnode : t.nodes[path]? = .none) : Entry t path .none
  | file {number : Nat} {data : Bytes} (hnode : t.nodes[path]? = some (.file number))
    (hold : number < t.nextNumber) (hdata : (t.content number).data = data) :
    Entry t path (some data)

-- The path of a root leads to the directory at a base, in which there are the given files and
-- nothing else. No two of them share their bytes.
structure Shows (t : Tree) (root : List String) (base : Path)
    (files : Std.TreeMap String Bytes) : Prop where
  located : ∃ place, t.locate root = .ok place ∧ place.path = base ∧ t.nodeAt place = .ok .directory
  entries : ∀ name, t.Entry (base ++ [name]) files[name]?
  apart : ∀ a b number, t.nodes[base ++ [a]]? = some (.file number) →
    t.nodes[base ++ [b]]? = some (.file number) → a = b

variable {files files' : Std.TreeMap String Bytes} {number : Nat} {data : Bytes}

theorem Shows.congr (h : t.Shows root base files)
    (hsame : ∀ name : String, files'[name]? = files[name]?) : t.Shows root base files' :=
  ⟨h.located, fun name => hsame name ▸ h.entries name, h.apart⟩

theorem refused_append (hname : Plain name) (h : refused root = none) :
    refused (root ++ [name]) = if Fits root name then none else some (.os Errno.nameTooLong) := by
  unfold refused at h ⊢
  split at h
  · cases h
  · next hnul =>
    have hlast : ¬(root ++ [name]).any (·.toList.contains '\x00') = true := by
      simpa [hname.nulless] using hnul
    rw [if_neg hlast]
    by_cases hfits : Fits root name
    · rw [if_pos hfits, if_neg (Nat.not_lt.mpr hfits)]
    · rw [if_neg hfits, if_pos (Nat.not_le.mp hfits)]

theorem locate_iff :
    t.locate root = .ok place ↔ refused root = none ∧ t.walk [] root = .ok place := by
  unfold Tree.locate
  cases refused root <;> simp

theorem Shows.locate (h : t.Shows root base files) (hname : Plain name) (hfits : Fits root name) :
    t.locate (root ++ [name]) = .ok (.entry base name false) := by
  obtain ⟨place, hplace, rfl, hnode⟩ := h.located
  obtain ⟨hrefused, hwalk⟩ := locate_iff.mp hplace
  refine locate_iff.mpr ⟨?_, walk_append hname hwalk hnode⟩
  rw [refused_append hname hrefused, if_pos hfits]

theorem entry?_plain (t : Tree) (base : Path) (hname : Plain name) :
    t.entry? base name = .ok t.nodes[base ++ [name]]? := by
  unfold entry?
  rw [if_neg (Nat.not_lt.mpr hname.short)]

-- Whatever is left of an old tree or put in its place, the directories stay.
theorem Shows.located_of_keeps (h : t.Shows root base files) (hkeeps : t.Keeps t') :
    ∃ place, t'.locate root = .ok place ∧ place.path = base ∧ t'.nodeAt place = .ok .directory := by
  obtain ⟨place, hplace, hbase, hnode⟩ := h.located
  obtain ⟨hrefused, hwalk⟩ := locate_iff.mp hplace
  refine ⟨place, locate_iff.mpr ⟨hrefused, hkeeps.walk hwalk⟩, hbase, ?_⟩
  cases place with
  | itself path => rfl
  | entry parent last slash =>
    have hentry := hkeeps.entry (directory_of_nodeAt hnode)
    simp only [nodeAt, hentry]
    rfl

theorem content_setData (t : Tree) (number other : Nat) (data : Bytes) :
    ((t.setData number data).content other).data =
      if number = other then data else (t.content other).data := by
  simp only [content, setData, Maps.getElem?_insert]
  split <;> rfl

theorem Shows.find (h : t.Shows root base files) (hname : Plain name) (hfits : Fits root name) :
    (files[name]? = none ∧ t.find (root ++ [name]) = fail Errno.noEntry) ∨
      ∃ number, t.find (root ++ [name]) = .ok (.file number) ∧
        files[name]? = some (t.content number).data := by
  have hentry := h.entries name
  simp only [Tree.find, h.locate hname hfits, nodeAt, bind, Except.bind, entry?_plain t base hname]
  generalize files[name]? = found at hentry ⊢
  cases hentry with
  | none hnone => exact .inl ⟨rfl, by rw [hnone]⟩
  | file hfile hold hdata => exact .inr ⟨_, by rw [hfile]; rfl, congrArg some hdata.symm⟩

theorem Entry.of_file {found : Option Bytes} (h : t.Entry path found)
    (hnode : t.nodes[path]? = some (.file number)) :
    number < t.nextNumber ∧ found = some (t.content number).data := by
  cases h with
  | none hnone => cases hnone.symm.trans hnode
  | file hfile hold hdata =>
    obtain rfl := Node.file.inj (Option.some.inj (hfile.symm.trans hnode))
    exact ⟨hold, congrArg some hdata.symm⟩

theorem Entry.frame {found : Option Bytes} (h : t.Entry path found)
    (hnode : t'.nodes[path]? = t.nodes[path]?) (hnext : t.nextNumber ≤ t'.nextNumber)
    (hdata : ∀ number, t.nodes[path]? = some (.file number) →
      (t'.content number).data = (t.content number).data) : t'.Entry path found := by
  cases h with
  | none hnone => exact .none (hnode.trans hnone)
  | file hfile hold hsame =>
    exact .file (hnode.trans hfile) (Nat.lt_of_lt_of_le hold hnext) ((hdata _ hfile).trans hsame)

-- New bytes for one file leave the others as they are.
theorem Shows.setData (h : t.Shows root base files)
    (hnode : t.nodes[base ++ [name]]? = some (.file number)) (data : Bytes) :
    (t.setData number data).Shows root base (files.insert name data) := by
  refine ⟨h.located_of_keeps fun _ => id, fun other => ?_, h.apart⟩
  rw [Maps.getElem?_insert]
  split
  · next hsame =>
    subst hsame
    refine .file hnode ((h.entries name).of_file hnode).1 ?_
    rw [content_setData, if_pos rfl]
  · next hne =>
    refine (h.entries other).frame rfl (Nat.le_refl _) fun number' hother => ?_
    rw [content_setData, if_neg]
    rintro rfl
    exact hne (h.apart name other number hnode hother)

theorem writeAt_empty (t : Tree) (number offset : Nat) :
    t.writeAt number offset ByteArray.empty = t := if_pos rfl

-- A write to an empty file makes it what was written.
theorem Shows.writeAt (h : t.Shows root base (files.insert name ByteArray.empty))
    (hnode : t.nodes[base ++ [name]]? = some (.file number)) (data : Bytes) :
    (t.writeAt number 0 data).Shows root base (files.insert name data) := by
  have hentry := ((h.entries name).of_file hnode).2
  rw [Maps.getElem?_insert, if_pos rfl] at hentry
  have hempty : (t.content number).data = ByteArray.empty := (Option.some.inj hentry).symm
  unfold Tree.writeAt
  split
  · next hsize =>
    rw [ByteArray.size_eq_zero_iff.mp hsize]
    exact h
  · simp only [hempty, Nat.zero_add, Bytes.overlay_padTo_empty]
    refine (h.setData hnode data).congr fun other => ?_
    simp only [Maps.getElem?_insert]
    split <;> rfl

theorem getElem?_insert_entry (t : Tree) (base : Path) (name other : String) (node : Node) :
    (t.nodes.insert (base ++ [name]) node)[base ++ [other]]? =
      if name = other then some node else t.nodes[base ++ [other]]? := by
  rw [Maps.getElem?_insert]
  simp only [List.append_cancel_left_eq, List.cons.injEq, and_true]

-- A new file has a number that no other file has.
theorem Shows.addFile (h : t.Shows root base files) (hnode : t.nodes[base ++ [name]]? = none)
    (data : Bytes) : (t.addFile (base ++ [name]) data).2.Shows root base (files.insert name data) := by
  have hkeeps : t.Keeps (t.addFile (base ++ [name]) data).2 := by
    intro path hpath
    refine (Maps.getElem?_insert t.nodes (base ++ [name]) path _).trans ?_
    split
    · next hsame => cases hnode.symm.trans (hsame ▸ hpath)
    · exact hpath
  have hlookup (other : String) : (t.addFile (base ++ [name]) data).2.nodes[base ++ [other]]? =
      if name = other then some (.file t.nextNumber) else t.nodes[base ++ [other]]? :=
    t.getElem?_insert_entry base name other _
  have hcontent (number : Nat) : ((t.addFile (base ++ [name]) data).2.content number).data =
      if t.nextNumber = number then data else (t.content number).data :=
    content_setData _ _ _ _
  have hold {other : String} {number : Nat}
      (hother : t.nodes[base ++ [other]]? = some (.file number)) : number < t.nextNumber :=
    ((h.entries other).of_file hother).1
  refine ⟨h.located_of_keeps hkeeps, fun other => ?_, fun a b number ha hb => ?_⟩
  · rw [Maps.getElem?_insert]
    split
    · next hsame =>
      subst hsame
      refine .file ((hlookup name).trans (if_pos rfl)) (Nat.lt_succ_self _) ?_
      rw [hcontent, if_pos rfl]
    · next hne =>
      refine (h.entries other).frame ((hlookup other).trans (if_neg hne)) (Nat.le_succ _) ?_
      intro number hother
      rw [hcontent, if_neg (Nat.ne_of_gt (hold hother))]
  · rw [hlookup] at ha hb
    by_cases hna : name = a <;> by_cases hnb : name = b
    · exact hna.symm.trans hnb
    · rw [if_pos hna] at ha
      rw [if_neg hnb] at hb
      cases ha
      exact absurd (hold hb) (Nat.lt_irrefl _)
    · rw [if_neg hna] at ha
      rw [if_pos hnb] at hb
      cases hb
      exact absurd (hold ha) (Nat.lt_irrefl _)
    · rw [if_neg hna] at ha
      rw [if_neg hnb] at hb
      exact h.apart a b number ha hb

-- A file is there, under a number of its own, and empty, whether it was there before or not.
theorem Shows.create (h : t.Shows root base files) (hname : Plain name) (hfits : Fits root name) :
    ∃ number t', t.create (root ++ [name]) = .ok (number, t') ∧
      t'.nodes[base ++ [name]]? = some (.file number) ∧
      t'.Shows root base (files.insert name ByteArray.empty) := by
  have hentry := h.entries name
  generalize files[name]? = found at hentry
  simp only [Tree.create, h.locate hname hfits, bind, Except.bind, entry?_plain t base hname]
  cases hentry with
  | none hnone =>
    rw [hnone]
    refine ⟨_, _, rfl, ?_, h.addFile hnone ByteArray.empty⟩
    exact (t.getElem?_insert_entry base name name _).trans (if_pos rfl)
  | file hfile hold hdata =>
    rw [hfile]
    exact ⟨_, _, rfl, hfile, h.setData hfile ByteArray.empty⟩

-- A file that lost its name is not found again.
theorem Shows.erase (h : t.Shows root base files)
    (hnode : t.nodes[base ++ [name]]? = some (.file number)) :
    Shows { t with nodes := t.nodes.erase (base ++ [name]) } root base (files.erase name) := by
  have hlookup (other : String) : (t.nodes.erase (base ++ [name]))[base ++ [other]]? =
      if name = other then none else t.nodes[base ++ [other]]? := by
    rw [Maps.getElem?_erase]
    simp only [List.append_cancel_left_eq, List.cons.injEq, and_true]
  have hleft {other : String} {node : Node}
      (hother : (t.nodes.erase (base ++ [name]))[base ++ [other]]? = some node) :
      t.nodes[base ++ [other]]? = some node := by
    rw [hlookup] at hother
    split at hother
    · cases hother
    · exact hother
  refine ⟨h.located_of_keeps ?_, fun other => ?_, fun a b number ha hb =>
    h.apart a b number (hleft ha) (hleft hb)⟩
  · intro path hpath
    refine (Maps.getElem?_erase t.nodes (base ++ [name]) path).trans ?_
    split
    · next hsame => cases hnode.symm.trans (hsame ▸ hpath)
    · exact hpath
  · rw [Maps.getElem?_erase]
    split
    · next hsame => exact .none ((hlookup other).trans (if_pos hsame))
    · next hne =>
      exact (h.entries other).frame ((hlookup other).trans (if_neg hne)) (Nat.le_refl _)
        fun _ _ => rfl

theorem Shows.unlink (h : t.Shows root base files) (hname : Plain name) (hfits : Fits root name) :
    (files[name]? = none ∧ t.unlink (root ++ [name]) = fail Errno.noEntry) ∨
      ∃ t', t.unlink (root ++ [name]) = .ok t' ∧ files[name]? ≠ none ∧
        t'.Shows root base (files.erase name) := by
  have hentry := h.entries name
  simp only [Tree.unlink, h.locate hname hfits, bind, Except.bind, entry?_plain t base hname]
  generalize files[name]? = found at hentry ⊢
  cases hentry with
  | none hnone => exact .inl ⟨rfl, by rw [hnone]⟩
  | file hfile hold hdata => exact .inr ⟨_, by rw [hfile]; rfl, nofun, h.erase hfile⟩

theorem compare_append (base path path' : Path) :
    compare (base ++ path) (base ++ path') = compare path path' := by
  induction base with
  | nil => rfl
  | cons part rest ih =>
    refine List.compareLex_cons_cons.trans ?_
    have hsame : compare part part = .eq := Std.ReflCmp.compare_self
    rw [hsame]
    exact ih

theorem compare_names (base : Path) (a b : String) :
    compare (base ++ [a]) (base ++ [b]) = compare a b := by
  rw [compare_append]
  exact List.compareLex_cons_cons.trans Ordering.then_eq

theorem named_iff : (if path.dropLast = base then path.getLast? else none) = some name ↔
    path = base ++ [name] := by
  constructor
  · split
    · next hbelow =>
      intro hlast
      exact hbelow ▸ (List.dropLast_append_getLast? name hlast).symm
    · exact nofun
  · rintro rfl
    rw [if_pos List.dropLast_concat, List.getLast?_concat]

-- The names are found in order of their paths, which below one directory is their own.
theorem Shows.fileNames (h : t.Shows root base files) : t.fileNames root = .ok files.keys := by
  obtain ⟨place, hplace, hbase, hnode⟩ := h.located
  simp only [Tree.fileNames, hplace, hnode, bind, Except.bind, hbase]
  refine congrArg Except.ok (Maps.eq_keys ?_ fun name => ?_)
  · refine Std.TreeMap.ordered_keys_toList.filterMap _ ?_
    rintro ⟨path, node⟩ ⟨path', node'⟩ hlt a ha b hb
    cases node with
    | directory => cases ha
    | file number =>
      cases node' with
      | directory => cases hb
      | file number' =>
        rw [← compare_names base, ← named_iff.mp ha, ← named_iff.mp hb]
        exact hlt
  · rw [List.mem_filterMap]
    constructor
    · rintro ⟨⟨path, node⟩, hmem, hname⟩
      cases node with
      | directory => cases hname
      | file number =>
        obtain rfl := named_iff.mp hname
        have hnode := Std.TreeMap.mem_toList_iff_getElem?_eq_some.mp hmem
        rw [((h.entries name).of_file hnode).2]
        rfl
    · intro hsome
      have hentry := h.entries name
      generalize files[name]? = found at hentry hsome
      cases hentry with
      | none _ => cases hsome
      | @file number _ hfile _ _ =>
        exact ⟨(base ++ [name], .file number), Std.TreeMap.mem_toList_iff_getElem?_eq_some.mpr hfile,
          named_iff.mpr rfl⟩

end Tree

end Disk

end Blockwise
