import Blockwise.Proofs.FileCache.Orphans
import Mathlib.Data.Finset.Basic

namespace Blockwise

-- A block under a name, and those of its bytes that were written since it came in.
structure Held where
  name : String
  block : Nat
  known : Nat → Option UInt8

-- A file cache as its user sees it. A block that is updated or found comes to the front, and an
-- update that makes them too many pushes out the last.
structure BlockMap where
  capacity : Nat
  blockSize : Nat
  names : Finset String := ∅
  blocks : List Held := []

namespace BlockMap

def find (r : BlockMap) (name : String) (block : Nat) : Option Held :=
  r.blocks.find? fun h => h.name = name ∧ h.block = block

def Holds (r : BlockMap) (name : String) (block : Nat) : Prop :=
  ∃ h ∈ r.blocks, h.name = name ∧ h.block = block

def others (r : BlockMap) (name : String) (block : Nat) : List Held :=
  r.blocks.filter fun h => ¬(h.name = name ∧ h.block = block)

-- A range of a block is written. What was known of the rest of it still is.
def overwritten (r : BlockMap) (name : String) (block offset : Nat) (data : Bytes) : Held where
  name := name
  block := block
  known i := if offset ≤ i ∧ i < offset + data.size then data[i - offset]?
    else (r.find name block).bind (·.known i)

def evict (r : BlockMap) : BlockMap :=
  { r with blocks := if r.capacity < r.blocks.length then r.blocks.dropLast else r.blocks }

def Fits (r : BlockMap) : FileCache.Step → Prop
  | .update _ _ offset data => offset + data.size ≤ r.blockSize
  | .fetch _ _ offset len => offset + len ≤ r.blockSize
  | _ => True

instance (r : BlockMap) : DecidablePred r.Fits := fun s =>
  match s with
  | .update _ _ offset data => inferInstanceAs (Decidable (offset + data.size ≤ r.blockSize))
  | .fetch _ _ offset len => inferInstanceAs (Decidable (offset + len ≤ r.blockSize))
  | .delete _ => inferInstanceAs (Decidable True)
  | .rename _ _ => inferInstanceAs (Decidable True)

def update (r : BlockMap) (name : String) (block offset : Nat) (data : Bytes) : BlockMap :=
  evict { r with
    names := insert name r.names
    blocks := r.overwritten name block offset data :: r.others name block }

def moveToFront (r : BlockMap) (name : String) (block : Nat) : BlockMap :=
  match r.find name block with
  | none => r
  | some h => { r with blocks := h :: r.others name block }

def delete (r : BlockMap) (name : String) : BlockMap :=
  { r with names := r.names.erase name, blocks := r.blocks.filter (·.name ≠ name) }

def rename (r : BlockMap) (source dest : String) : BlockMap :=
  if source ∉ r.names ∨ source = dest then r
  else { r with
    names := insert dest (r.names.erase source)
    blocks := (r.blocks.filter (·.name ≠ dest)).map fun h =>
      if h.name = source then { h with name := dest } else h }

-- A refused update has mapped its name by then; a refused fetch changes nothing.
def step (r : BlockMap) (s : FileCache.Step) : BlockMap :=
  match s with
  | .update name block offset data =>
    if r.Fits s then r.update name block offset data else { r with names := insert name r.names }
  | .fetch name block _ _ => if r.Fits s then r.moveToFront name block else r
  | .delete name => r.delete name
  | .rename source dest => r.rename source dest

def after (r : BlockMap) (steps : List FileCache.Step) : BlockMap := steps.foldl step r

-- A fetch finds what is held, with every byte that is known.
def Answers (r : BlockMap) : FileCache.Step → FileCache.Reply → Prop
  | .fetch name block offset len, reply => ∃ found, reply = .fetched len found ∧
    match r.find name block with
    | none => found = none
    | some h => ∃ bytes, found = some bytes ∧ bytes.size = len ∧
      ∀ i < len, ∀ x, h.known (offset + i) = some x → bytes[i]? = some x
  | _, reply => reply = .done

variable {r : BlockMap} {name : String} {block : Nat} {h : Held}

theorem find_eq_some (hfind : r.find name block = some h) :
    h ∈ r.blocks ∧ h.name = name ∧ h.block = block := by
  have hsome := List.find?_some hfind
  rw [decide_eq_true_eq] at hsome
  exact ⟨List.mem_of_find?_eq_some hfind, hsome⟩

theorem find_eq_none : r.find name block = none ↔ ¬r.Holds name block := by
  simp only [find, List.find?_eq_none, decide_eq_true_eq, Holds, not_exists, not_and]

theorem mem_others : h ∈ r.others name block ↔ h ∈ r.blocks ∧ ¬(h.name = name ∧ h.block = block) := by
  rw [others, List.mem_filter, decide_eq_true_eq]

theorem evict_blocks (hlen : r.blocks.length ≤ r.capacity + 1) :
    r.evict.blocks = r.blocks.take r.capacity := by
  rw [evict]
  split
  · next hfull =>
    have hcapacity : r.capacity = r.blocks.length - 1 := by omega
    rw [List.dropLast_eq_take, hcapacity]
  · next hroom => rw [List.take_of_length_le (Nat.not_lt.mp hroom)]

end BlockMap

namespace FileCache

open Act

variable {c c' : FileCache} {m m' : Metered FileCache} {r : BlockMap}
  {name source dest : String} {file block offset len : Nat} {data : Bytes}

-- The key of a block whose name is mapped.
def keyOf (c : FileCache) (h : Held) : BlockKey := ⟨c.names[h.name]?.getD 0, h.block⟩

structure Mirrors (c : FileCache) (r : BlockMap) : Prop where
  tidy : c.Tidy
  capacity : c.engine.capacity = r.capacity
  blockSize : c.engine.blockSize = r.blockSize
  names : ∀ a, a ∈ r.names ↔ c.names[a]? ≠ none
  mapped : ∀ h ∈ r.blocks, h.name ∈ r.names
  keys : c.engine.keys = r.blocks.map c.keyOf
  known : ∀ h ∈ r.blocks, ∀ i < r.blockSize, ∀ x, h.known i = some x →
    c.byteAt h.name h.block i = some x

theorem Mirrors.number (hm : Mirrors c r) {h : Held} (hmem : h ∈ r.blocks) :
    ∃ file, c.names[h.name]? = some file :=
  Option.ne_none_iff_exists'.mp ((hm.names _).mp (hm.mapped h hmem))

theorem Mirrors.keyOf_eq (hm : Mirrors c r) (hname : c.names[name]? = some file) {h : Held}
    (hmem : h ∈ r.blocks) : c.keyOf h = ⟨file, block⟩ ↔ h.name = name ∧ h.block = block := by
  obtain ⟨file', hfile'⟩ := hm.number hmem
  rw [keyOf, hfile', Option.getD_some]
  exact hm.tidy.sound.key_eq hname hfile' block h.block

theorem Mirrors.file_eq (hm : Mirrors c r) (hname : c.names[name]? = some file) {h : Held}
    (hmem : h ∈ r.blocks) : (c.keyOf h).file = file ↔ h.name = name := by
  obtain ⟨file', hfile'⟩ := hm.number hmem
  rw [keyOf, hfile', Option.getD_some]
  constructor
  · rintro rfl
    exact hm.tidy.sound.names_inj _ _ _ hfile' hname
  · intro hsame
    rw [hsame, hname] at hfile'
    exact (Option.some.inj hfile').symm

theorem Mirrors.holds_iff (hm : Mirrors c r) (name : String) (block : Nat) :
    c.Holds name block ↔ r.Holds name block := by
  constructor
  · intro hholds
    obtain ⟨file, hname, hmem⟩ := hholds
    rw [hm.keys] at hmem
    obtain ⟨h, hh, hkey⟩ := List.mem_map.mp hmem
    exact ⟨h, hh, (hm.keyOf_eq hname hh).mp hkey⟩
  · intro hholds
    obtain ⟨h, hh, hname, hblock⟩ := hholds
    obtain ⟨file, hfile⟩ := hm.number hh
    rw [hname] at hfile
    refine ⟨file, hfile, ?_⟩
    rw [hm.keys, ← (hm.keyOf_eq hfile hh).mpr ⟨hname, hblock⟩]
    exact List.mem_map_of_mem hh

theorem Mirrors.keys_others (hm : Mirrors c r) (hname : c.names[name]? = some file) (block : Nat) :
    c.engine.keys.filter (· ≠ ⟨file, block⟩) = (r.others name block).map c.keyOf := by
  rw [hm.keys, BlockMap.others, List.filter_map]
  refine congrArg _ (List.filter_congr fun h hmem => ?_)
  simp only [Function.comp_apply, ne_eq, hm.keyOf_eq hname hmem]

theorem Mirrors.length_le (hm : Mirrors c r) : r.blocks.length ≤ r.capacity := by
  have hlen := hm.tidy.sound.engine.len_le
  have hkeys : c.engine.keys.length = r.blocks.length := by rw [hm.keys, List.length_map]
  have hsize : c.engine.len = c.engine.keys.length := hm.tidy.sound.taken_eq.1
  rw [← hm.capacity, ← hkeys, ← hsize]
  exact hlen

-- A name gets its number, and the blocks are those they were.
theorem Mirrors.numbered (hm : Mirrors c r) (hnumbered : Numbered name file c c') :
    Mirrors c' { r with names := insert name r.names } := by
  have hkeyOf : ∀ h ∈ r.blocks, c'.keyOf h = c.keyOf h := by
    intro h hmem
    obtain ⟨file', hfile'⟩ := hm.number hmem
    rw [keyOf, keyOf, hnumbered.names]
    split
    · next hsame =>
      rw [← hsame] at hfile' ⊢
      rw [hfile', hnumbered.kept _ hfile']
    · rfl
  refine ⟨hm.tidy.numbered hnumbered, ?_, ?_, ?_, ?_, ?_, ?_⟩
  · rw [hnumbered.engine, hm.capacity]
  · rw [hnumbered.engine, hm.blockSize]
  · intro a
    rw [Finset.mem_insert, hm.names, hnumbered.names]
    grind
  · exact fun h hmem => Finset.mem_insert_of_mem (hm.mapped h hmem)
  · rw [hnumbered.engine, hm.keys]
    exact (List.map_congr_left hkeyOf).symm
  · intro h hmem i hi x hx
    rw [hnumbered.byteAt]
    exact hm.known h hmem i hi x hx

theorem Mirrors.filed (hm : Mirrors m.part r) (hfiled : Filed name file block offset data m m') :
    Mirrors m'.part (r.update name block offset data) := by
  have htidy := hm.tidy.filed hfiled
  obtain ⟨⟨c, hnumbered, hpart⟩, hfits, hstored⟩ := hfiled
  have hm₁ := hm.numbered hnumbered
  rw [← hnumbered.engine] at hstored
  have hname := hnumbered.named
  have hnames : m'.part.names = c.names := by rw [hpart]; rfl
  have hkeyOf : m'.part.keyOf = c.keyOf := by funext h; rw [keyOf, keyOf, hnames]
  have hbyteAt : ∀ a block' i, m'.part.byteAt a block' i =
      c.names[a]?.bind fun file => m'.part.engine.byteAt ⟨file, block'⟩ i := by
    intro a block' i
    rw [byteAt, hnames]
  let new := r.overwritten name block offset data
  have hnew : c.keyOf new = ⟨file, block⟩ := by
    show BlockKey.mk (c.names[name]?.getD 0) block = _
    rw [hname, Option.getD_some]
  have hblocks : (r.update name block offset data).blocks =
      (new :: r.others name block).take r.capacity := by
    refine BlockMap.evict_blocks ?_
    have hless : (r.others name block).length ≤ r.blocks.length := List.length_filter_le _ _
    exact Nat.succ_le_succ (hless.trans hm.length_le)
  have hkeys : m'.part.engine.keys = (r.update name block offset data).blocks.map m'.part.keyOf := by
    have hothers := hm₁.keys_others hname block
    rw [hstored.keys, hblocks, hkeyOf, List.map_take, List.map_cons, hnew, hothers, hm₁.capacity]
    rfl
  have hmem : ∀ h ∈ (r.update name block offset data).blocks, h = new ∨
      (h ∈ r.blocks ∧ ¬(h.name = name ∧ h.block = block)) := by
    intro h hh
    rw [hblocks] at hh
    exact (List.mem_cons.mp (List.mem_of_mem_take hh)).imp id BlockMap.mem_others.mp
  refine ⟨htidy, hstored.frame.capacity.trans hm₁.capacity,
    hstored.frame.blockSize.trans hm₁.blockSize, ?_, ?_, hkeys, ?_⟩
  · intro a
    rw [hnames]
    exact hm₁.names a
  · intro h hh
    rcases hmem h hh with rfl | ⟨hold, _⟩
    · exact Finset.mem_insert_self _ _
    · exact hm₁.mapped h hold
  · -- what is known of a block that was there before was seen before, and is still
    have hkept : ∀ h ∈ (r.update name block offset data).blocks, ∀ i < r.blockSize,
        ¬((h.name = name ∧ h.block = block) ∧ offset ≤ i ∧ i < offset + data.size) → ∀ x,
        c.byteAt h.name h.block i = some x → m'.part.byteAt h.name h.block i = some x := by
      intro h hh i hi hout x hx
      obtain ⟨file', hfile', hx⟩ := Option.bind_eq_some_iff.mp hx
      have hkey : c.keyOf h = ⟨file', h.block⟩ := by rw [keyOf, hfile', Option.getD_some]
      have hin : (⟨file', h.block⟩ : BlockKey) ∈ m'.part.engine.keys := by
        rw [hkeys, ← hkey, hkeyOf]
        exact List.mem_map_of_mem hh
      have hsize : i < c.engine.blockSize := hi.trans_eq hm₁.blockSize.symm
      rw [hbyteAt, hfile', Option.bind_some,
        hstored.kept _ hin i hsize (Engine.mem_keys_of_byteAt hx), hx]
      rw [hm₁.tidy.sound.key_eq hname hfile' block h.block]
      exact hout
    intro h hh i hi x hx
    rcases hmem h hh with rfl | ⟨hold, hne⟩
    · have hx : (if offset ≤ i ∧ i < offset + data.size then data[i - offset]?
          else (r.find name block).bind (·.known i)) = some x := hx
      split at hx
      · next hin =>
        show m'.part.byteAt name block i = some x
        rw [hbyteAt, hname, Option.bind_some, hstored.written i hin.1 hin.2, hx]
      · next hout =>
        obtain ⟨h, hfind, hx⟩ := Option.bind_eq_some_iff.mp hx
        obtain ⟨hold, hsame⟩ := BlockMap.find_eq_some hfind
        have hseen := hm₁.known h hold i hi x hx
        rw [hsame.1, hsame.2] at hseen
        exact hkept _ hh i hi (fun hin => hout hin.2) x hseen
    · exact hkept h hh i hi (fun hin => hne hin.1) x (hm₁.known h hold i hi x hx)

theorem Mirrors.found (hm : Mirrors c r) (hfound : Found name block c c') :
    Mirrors c' (r.moveToFront name block) := by
  have htidy := hm.tidy.found hfound
  have hholds := (hm.holds_iff name block).mp hfound.holds
  have hshown := (hfound.shown hm.tidy.sound).2
  cases hfind : r.find name block with
  | none => exact absurd hholds (BlockMap.find_eq_none.mp hfind)
  | some h =>
    obtain ⟨hmem, hsame⟩ := BlockMap.find_eq_some hfind
    obtain ⟨file, n, e, hname, hmoved, rfl, _⟩ := hfound
    have hblocks : ∀ h' ∈ h :: r.others name block, h' ∈ r.blocks := by
      intro h' hh'
      rcases List.mem_cons.mp hh' with rfl | hother
      · exact hmem
      · exact (BlockMap.mem_others.mp hother).1
    rw [BlockMap.moveToFront, hfind]
    refine ⟨htidy, hmoved.frame.capacity.trans hm.capacity,
      hmoved.frame.blockSize.trans hm.blockSize, hm.names, ?_, ?_, ?_⟩
    · exact fun h' hh' => hm.mapped h' (hblocks h' hh')
    · refine hmoved.keys.trans ?_
      rw [hm.keys_others hname block, ← (hm.keyOf_eq hname hmem).mpr hsame]
      rfl
    · intro h' hh' i hi x hx
      rw [hshown]
      exact hm.known h' (hblocks h' hh') i hi x hx

theorem Mirrors.delete_ends (hm : Mirrors m.part r) (name : String) :
    Ends (delete name) m (fun _ m' => Mirrors m'.part (r.delete name)) (fun _ _ => False) := by
  have hends := (delete_dropped hm.tidy.sound name).and
    ((hm.tidy.delete_ends name).and (FileCache.delete_ends hm.tidy.sound name))
  refine hends.imp ?_ fun _ _ hfailed => hfailed.1
  intro _ m' hdone
  obtain ⟨hdropped, htidy, _, _, hother⟩ := hdone
  split at hdropped
  · next hname =>
    have habsent : name ∉ r.names := by
      rw [hm.names, hname]
      simp
    have hnone : r.blocks.filter (·.name ≠ name) = r.blocks := by
      refine List.filter_eq_self.mpr fun h hmem => decide_eq_true ?_
      rintro rfl
      exact habsent (hm.mapped h hmem)
    rw [BlockMap.delete, hnone, Finset.erase_eq_of_notMem habsent, hdropped]
    exact hm
  · next file hname =>
    have hkeys := Dropped.keys_eq (c := m.part.unnamed name) hdropped hm.tidy.listed
    have hmem : ∀ h ∈ r.blocks.filter (·.name ≠ name), h ∈ r.blocks ∧ h.name ≠ name := by
      intro h hh
      rw [List.mem_filter, decide_eq_true_eq] at hh
      exact hh
    have hnames : ∀ a, m'.part.names[a]? = if name = a then none else m.part.names[a]? := by
      intro a
      rw [hdropped.names, names_unnamed]
    refine ⟨htidy, hdropped.frame.capacity.trans hm.capacity,
      hdropped.frame.blockSize.trans hm.blockSize, ?_, ?_, ?_, ?_⟩
    · intro a
      rw [BlockMap.delete, Finset.mem_erase, hm.names, hnames]
      grind
    · intro h hh
      obtain ⟨hold, hne⟩ := hmem h hh
      exact Finset.mem_erase.mpr ⟨hne, hm.mapped h hold⟩
    · rw [hkeys]
      show m.part.engine.keys.filter (·.file ≠ file) = (r.blocks.filter (·.name ≠ name)).map _
      rw [hm.keys, List.filter_map]
      have hfilter : r.blocks.filter ((·.file ≠ file) ∘ m.part.keyOf) =
          r.blocks.filter (·.name ≠ name) := by
        refine List.filter_congr fun h hh => ?_
        simp only [Function.comp_apply, ne_eq, hm.file_eq hname hh]
      rw [hfilter]
      refine List.map_congr_left fun h hh => ?_
      rw [keyOf, keyOf, hnames, if_neg (hmem h hh).2.symm]
    · intro h hh i hi x hx
      obtain ⟨hold, hne⟩ := hmem h hh
      rw [hother h.name hne]
      exact hm.known h hold i hi x hx

-- A rename of a name to another, by what it leaves of names, keys and bytes.
theorem Mirrors.renamed (hm : Mirrors c r) (hsource : c.names[source]? = some file)
    (hne : source ≠ dest) (htidy : c'.Tidy) (hshown : Renamed source dest c c')
    (hcapacity : c'.engine.capacity = c.engine.capacity)
    (hblockSize : c'.engine.blockSize = c.engine.blockSize)
    (hnames : ∀ a : String, c'.names[a]? = (c.renamed source dest file).names[a]?)
    (hkeys : c'.engine.keys = (r.blocks.filter (·.name ≠ dest)).map c.keyOf) :
    Mirrors c' (r.rename source dest) := by
  have hmapped : source ∈ r.names := by
    rw [hm.names, hsource]
    exact Option.some_ne_none _
  have hstep : ¬(source ∉ r.names ∨ source = dest) := by
    rintro (habsent | hsame)
    · exact habsent hmapped
    · exact hne hsame
  have hmem : ∀ h ∈ r.blocks.filter (·.name ≠ dest), h ∈ r.blocks ∧ h.name ≠ dest := by
    intro h hh
    rw [List.mem_filter, decide_eq_true_eq] at hh
    exact hh
  rw [BlockMap.rename, if_neg hstep]
  refine ⟨htidy, hcapacity.trans hm.capacity, hblockSize.trans hm.blockSize, ?_, ?_, ?_, ?_⟩
  · intro a
    rw [Finset.mem_insert, Finset.mem_erase, hm.names, hnames, names_renamed]
    grind
  · intro h' hh'
    obtain ⟨h, hh, rfl⟩ := List.mem_map.mp hh'
    obtain ⟨hold, _⟩ := hmem h hh
    split
    · exact Finset.mem_insert_self _ _
    · next hother => exact Finset.mem_insert_of_mem (Finset.mem_erase.mpr ⟨hother, hm.mapped h hold⟩)
  · rw [hkeys, List.map_map]
    refine List.map_congr_left fun h hh => ?_
    have hkept := (hmem h hh).2.symm
    rw [Function.comp_apply]
    split
    · next hsame => rw [keyOf, keyOf, hnames, names_renamed, if_pos rfl, hsame, hsource]
    · next hother =>
      rw [keyOf, keyOf, hnames, names_renamed, if_neg hkept, if_neg (Ne.symm hother)]
  · intro h' hh' i hi x hx
    obtain ⟨h, hh, rfl⟩ := List.mem_map.mp hh'
    obtain ⟨hold, hkept⟩ := hmem h hh
    by_cases hsame : h.name = source
    · rw [if_pos hsame] at hx ⊢
      rw [hshown.moved, ← hsame]
      exact hm.known h hold i hi x hx
    · rw [if_neg hsame] at hx ⊢
      rw [hshown.other h.name hsame hkept]
      exact hm.known h hold i hi x hx

theorem Mirrors.rename_ends (hm : Mirrors m.part r) (source dest : String) :
    Ends (rename source dest) m (fun _ m' => Mirrors m'.part (r.rename source dest))
      (fun _ _ => False) := by
  have hends := (rename_dropped hm.tidy.sound source dest).and
    ((hm.tidy.rename_ends source dest).and (FileCache.rename_ends hm.tidy.sound source dest))
  refine hends.imp ?_ fun _ _ hfailed => hfailed.1
  intro _ m' hdone
  obtain ⟨hdropped, htidy, hshown⟩ := hdone
  split at hdropped
  · next hsource =>
    have habsent : source ∉ r.names := by
      rw [hm.names, hsource]
      simp
    rw [BlockMap.rename, if_pos (.inl habsent), hdropped]
    exact hm
  · next file hsource =>
    rw [if_pos (by simp [hsource])] at hshown
    by_cases hsame : source = dest
    · -- nothing is replaced, and every name has the number it had
      subst hsame
      rw [Maps.getElem?_erase, if_pos rfl] at hdropped
      subst hdropped
      have hnames : ∀ a : String, (m.part.renamed source source file).names[a]? =
          m.part.names[a]? := by
        intro a
        rw [names_renamed]
        grind
      have hkeyOf : (m.part.renamed source source file).keyOf = m.part.keyOf := by
        funext h
        rw [keyOf, keyOf, hnames]
      rw [BlockMap.rename, if_pos (.inr rfl)]
      refine ⟨htidy, hm.capacity, hm.blockSize, ?_, hm.mapped, ?_, ?_⟩
      · intro a
        rw [hm.names, hnames]
      · rw [hkeyOf]
        exact hm.keys
      · intro h hmem i hi x hx
        rw [byteAt_congr (hnames h.name) rfl]
        exact hm.known h hmem i hi x hx
    · split at hdropped
      · next hfree =>
        rw [Maps.getElem?_erase, if_neg hsame] at hfree
        have hunmapped : dest ∉ r.names := by
          rw [hm.names, hfree]
          simp
        have hall : r.blocks.filter (·.name ≠ dest) = r.blocks := by
          refine List.filter_eq_self.mpr fun h hmem => decide_eq_true ?_
          rintro rfl
          exact hunmapped (hm.mapped h hmem)
        subst hdropped
        refine hm.renamed hsource hsame htidy hshown rfl rfl (fun _ => rfl) ?_
        rw [hall]
        exact hm.keys
      · next old hreplaced =>
        obtain ⟨hdest, _⟩ := hm.tidy.sound.names_ne_of_replaced hsource hreplaced dest
        have hkeys := Dropped.keys_eq (c := m.part.renamed source dest file) hdropped
          hm.tidy.listed
        refine hm.renamed hsource hsame htidy hshown hdropped.frame.capacity
          hdropped.frame.blockSize (fun a => by rw [hdropped.names]) ?_
        rw [hkeys]
        show m.part.engine.keys.filter (·.file ≠ old) = _
        rw [hm.keys, List.filter_map]
        refine congrArg _ (List.filter_congr fun h hh => ?_)
        simp only [Function.comp_apply, ne_eq, hm.file_eq hdest hh]

theorem Mirrors.fetch_ends (hm : Mirrors m.part r) (name : String) (block offset len : Nat) :
    Ends (step (.fetch name block offset len)) m
      (fun reply m' => Mirrors m'.part (r.step (.fetch name block offset len)) ∧
        r.Answers (.fetch name block offset len) reply)
      (fun _ m' => Mirrors m'.part (r.step (.fetch name block offset len)) ∧
        ¬r.Fits (.fetch name block offset len)) := by
  rw [step, ends_map]
  refine (fetch_found hm.tidy.sound name block offset len).imp ?_ ?_
  · intro found m' hdone
    rcases hdone with ⟨hfound, hfits, bytes, rfl, hsize, hbytes⟩ | ⟨habsent, hsame, rfl⟩
    · have hfits : r.Fits (.fetch name block offset len) := hfits.trans_eq hm.blockSize
      rw [BlockMap.step, if_pos hfits]
      refine ⟨hm.found hfound, _, rfl, ?_⟩
      have hholds := (hm.holds_iff name block).mp hfound.holds
      cases hfind : r.find name block with
      | none => exact absurd hholds (BlockMap.find_eq_none.mp hfind)
      | some h =>
        refine ⟨bytes, rfl, hsize, fun i hi x hx => ?_⟩
        obtain ⟨hmem, rfl, rfl⟩ := BlockMap.find_eq_some hfind
        have hin : offset + i < r.blockSize := (Nat.add_lt_add_left hi _).trans_le hfits
        rw [hbytes i hi]
        exact hm.known h hmem _ hin x hx
    · have hfind := BlockMap.find_eq_none.mpr fun h => habsent ((hm.holds_iff name block).mpr h)
      have hstep : r.step (.fetch name block offset len) = r := by
        rw [BlockMap.step, BlockMap.moveToFront, hfind, ite_self]
      rw [hstep, hsame]
      refine ⟨hm, _, rfl, ?_⟩
      rw [hfind]
  · intro _ m' hfailed
    obtain ⟨hsame, hlong⟩ := hfailed
    have hlong : ¬r.Fits (.fetch name block offset len) := by
      rw [hm.blockSize] at hlong
      exact Nat.not_le.mpr hlong
    rw [BlockMap.step, if_neg hlong, hsame]
    exact ⟨hm, hlong⟩

theorem Mirrors.update_ends (hm : Mirrors m.part r) (name : String) (block offset : Nat)
    (data : Bytes) :
    Ends (update name block offset data) m
      (fun _ m' => Mirrors m'.part (r.step (.update name block offset data)))
      (fun _ m' => Mirrors m'.part (r.step (.update name block offset data)) ∧
        ¬r.Fits (.update name block offset data)) := by
  refine (update_filed hm.tidy.sound name block offset data).imp ?_ ?_
  · intro _ m' hdone
    obtain ⟨file, hfiled⟩ := hdone
    have hfits : r.Fits (.update name block offset data) := hfiled.fits.trans_eq hm.blockSize
    rw [BlockMap.step, if_pos hfits]
    exact hm.filed hfiled
  · intro _ m' hfailed
    obtain ⟨hlong, file, hnumbered⟩ := hfailed
    have hlong : ¬r.Fits (.update name block offset data) := by
      rw [hm.blockSize] at hlong
      exact Nat.not_le.mpr hlong
    rw [BlockMap.step, if_neg hlong]
    exact ⟨hm.numbered hnumbered, hlong⟩

theorem Mirrors.step_ends (hm : Mirrors m.part r) (s : Step) :
    Ends (step s) m (fun reply m' => Mirrors m'.part (r.step s) ∧ r.Answers s reply)
      (fun _ m' => Mirrors m'.part (r.step s) ∧ ¬r.Fits s) := by
  cases s with
  | update name block offset data =>
    simp only [step, ends_bind, ends_pure]
    exact (hm.update_ends name block offset data).imp (fun _ _ hdone => ⟨hdone, rfl⟩) fun _ _ => id
  | fetch name block offset len => exact hm.fetch_ends name block offset len
  | delete name =>
    simp only [step, ends_bind, ends_pure]
    exact (hm.delete_ends name).imp (fun _ _ hdone => ⟨hdone, rfl⟩) fun _ _ => False.elim
  | rename source dest =>
    simp only [step, ends_bind, ends_pure]
    exact (hm.rename_ends source dest).imp (fun _ _ hdone => ⟨hdone, rfl⟩) fun _ _ => False.elim

theorem Mirrors.after (hm : Mirrors m.part r) (steps : List Step) :
    Mirrors (after m steps).part (r.after steps) := by
  induction steps generalizing m r with
  | nil => exact hm
  | cons s steps ih =>
    exact ih ((hm.step_ends s).imp (fun _ _ => And.left) fun _ _ => And.left).outcome

-- The answer to a fetch.
def fetched (m : Metered FileCache) (name : String) (block offset len : Nat) :
    Except Breach (Option Bytes) := (outcome (fetch name block offset len) m).1

-- The answer to a fetch, told from what is seen under the name.
def shown (c : FileCache) (name : String) (block offset len : Nat) :
    Except Breach (Option Bytes) :=
  match c.names[name]? with
  | none => .ok none
  | some _ =>
    if c.engine.blockSize < offset + len then
      .error (Word.overrun offset len (.fetchTooLong c.engine.blockSize len offset))
    else .ok <| (c.byteAt name block 0).map fun _ =>
      ⟨.ofFn fun i : Fin len => (c.byteAt name block (offset + i)).getD 0⟩

theorem fetched_eq (hs : m.part.Sound) : fetched m = m.part.shown := by
  funext name block offset len
  refine Ends.answer ?_
  rw [shown]
  cases hname : m.part.names[name]? with
  | none => simp only [fetch, ends_bind, ends_get, hname, ends_modify, ends_pure]
  | some file =>
    simp only [fetch, ends_bind, ends_get, hname, ends_onEngine, byteAt, Option.bind_some]
    refine (Engine.fetch_ends hs.engine).imp ?_ ?_
    · intro found e hdone
      obtain ⟨hfits, hfound⟩ := hdone
      have hfits : offset + len ≤ m.part.engine.blockSize := hfits
      rw [if_neg (Nat.not_lt.mpr hfits)]
      split at hfound
      · next hmem =>
        obtain ⟨_, _, bytes, rfl, hsize, hbytes⟩ := hfound
        obtain ⟨n, hn, hpeek⟩ := hs.engine.peek_of_mem hmem
        have hbyteAt := Engine.byteAt_of_peek hpeek
        rw [hbyteAt, Option.map_some]
        refine congrArg (fun b => Except.ok (some b)) (Bytes.ext_getElem? fun i => ?_)
        rw [Bytes.getElem?_eq_data, Array.getElem?_ofFn]
        split
        · next hi =>
          have hin : i < len := hi
          rw [hbytes i hin, hbyteAt, Option.getD_some]
        · next hi =>
          have hout : ¬i < bytes.size := hsize ▸ hi
          rw [getElem?_neg bytes i hout]
      · next habsent =>
        obtain ⟨_, rfl⟩ := hfound
        rw [Engine.byteAt, Recency.peek_eq_none_iff.mpr habsent, Option.map_none, Option.map_none]
    · intro b e hfailed
      obtain ⟨hlong, rfl, _⟩ := hfailed
      have hlong : m.part.engine.blockSize < offset + len := hlong
      rw [if_pos hlong]

theorem shown_congr (hnames : c'.names[name]? = c.names[name]?)
    (hblockSize : c'.engine.blockSize = c.engine.blockSize) (hbytes : c'.byteAt name = c.byteAt name) :
    c'.shown name = c.shown name := by
  funext block offset len
  rw [shown, shown, hnames, hblockSize, hbytes]

theorem fetched_afterDelete (hs : m.part.Sound) {gone : String} (hne : name ≠ gone) :
    fetched (afterStep m (.delete gone)) name = fetched m name := by
  let kept (m' : Metered FileCache) : Prop := m'.part.Sound ∧ m'.part.shown name = m.part.shown name
  have hends : Ends (step (.delete gone)) m (fun _ => kept) (fun _ => kept) := by
    simp only [step, ends_bind, ends_pure]
    refine ((delete_dropped hs gone).and (delete_ends hs gone)).imp ?_ fun _ _ hf => hf.1.elim
    intro _ m' hdone
    obtain ⟨hdropped, hs', _, hother⟩ := hdone
    refine ⟨hs', ?_⟩
    split at hdropped
    · rw [hdropped]
    · refine shown_congr ?_ hdropped.frame.blockSize (hother name hne)
      rw [hdropped.names, names_unnamed, if_neg hne.symm]
  obtain ⟨hs', hshown⟩ := hends.outcome
  rw [afterStep, fetched_eq hs', fetched_eq hs]
  exact hshown

-- A rename touches no third name, and one to itself or of a name that is not mapped touches nothing.
theorem fetched_afterRename (hs : m.part.Sound)
    (hspared : (name ≠ source ∧ name ≠ dest) ∨ source = dest ∨ m.part.names[source]? = none) :
    fetched (afterStep m (.rename source dest)) name = fetched m name := by
  let kept (m' : Metered FileCache) : Prop := m'.part.Sound ∧ m'.part.shown name = m.part.shown name
  have hends : Ends (step (.rename source dest)) m (fun _ => kept) (fun _ => kept) := by
    simp only [step, ends_bind, ends_pure]
    refine ((rename_dropped hs source dest).and (rename_ends hs source dest)).imp ?_
      fun _ _ hf => hf.1.elim
    intro _ m' hdone
    obtain ⟨hdropped, hrenamed⟩ := hdone
    split at hdropped
    · exact hdropped ▸ ⟨hs, rfl⟩
    · next file hsource =>
      rw [if_pos (by simp [hsource])] at hrenamed
      have hframe : m'.part.engine.blockSize = m.part.engine.blockSize ∧
          m'.part.names[name]? = (m.part.renamed source dest file).names[name]? := by
        split at hdropped
        · rw [hdropped]
          exact ⟨rfl, rfl⟩
        · exact ⟨hdropped.frame.blockSize, by rw [hdropped.names]⟩
      have hother : (name ≠ source ∧ name ≠ dest) ∨ source = dest :=
        hspared.imp id fun h => h.resolve_right (by simp [hsource])
      refine ⟨hrenamed.sound, shown_congr ?_ hframe.1 ?_⟩
      · rw [hframe.2, names_renamed]
        grind
      · rcases hother with ⟨hns, hnd⟩ | rfl
        · exact hrenamed.other name hns hnd
        · by_cases hsame : name = source
          · rw [hsame, hrenamed.moved]
          · exact hrenamed.other name hsame hsame
  obtain ⟨hs', hshown⟩ := hends.outcome
  rw [afterStep, fetched_eq hs', fetched_eq hs]
  exact hshown

theorem ofSizing_mirrors {sizing : Sizing} {memory : Memory} (h : ofSizing sizing memory = .ok c) :
    ∃ capacity, sizing.capacity = .ok capacity ∧ Mirrors c { capacity, blockSize := sizing.blockSize } := by
  have htidy := ofSizing_tidy h
  obtain ⟨hkeys, hnames, hcapacity, hblockSize⟩ := ofSizing_fresh h
  refine ⟨_, hcapacity, htidy, rfl, hblockSize, ?_, ?_, hkeys, ?_⟩
  · intro a
    rw [hnames, Std.TreeMap.getElem?_emptyc]
    simp
  · exact fun h hmem => absurd hmem List.not_mem_nil
  · exact fun h hmem => absurd hmem List.not_mem_nil

-- From a fresh cache, after whatever calls, the next call answers as the map does and fails only
-- where it breaks its size contract. A delete or a rename changes no fetch under another name.
theorem answers_as_blockMap {sizing : Sizing} {memory : Memory} (h : ofSizing sizing memory = .ok c)
    (steps : List Step) : ∃ capacity, sizing.capacity = .ok capacity ∧
      let m := after ⟨c, {}⟩ steps
      let r := BlockMap.after { capacity, blockSize := sizing.blockSize } steps
      (∀ s, Ends (step s) m (fun reply _ => r.Answers s reply) (fun _ _ => ¬r.Fits s)) ∧
      (∀ gone name, name ≠ gone → fetched (afterStep m (.delete gone)) name = fetched m name) ∧
      ∀ source dest name, (name ≠ source ∧ name ≠ dest) ∨ source = dest ∨ source ∉ r.names →
        fetched (afterStep m (.rename source dest)) name = fetched m name := by
  obtain ⟨capacity, hcapacity, hfresh⟩ := ofSizing_mirrors h
  refine ⟨capacity, hcapacity, ?_⟩
  intro m r
  have hm : Mirrors m.part r := hfresh.after (m := ⟨c, {}⟩) steps
  refine ⟨fun s => ?_, fun gone name hne => ?_, fun source dest name hspared => ?_⟩
  · exact (hm.step_ends s).imp (fun _ _ => And.right) fun _ _ => And.right
  · exact fetched_afterDelete hm.tidy.sound hne
  · refine fetched_afterRename hm.tidy.sound (hspared.imp id (Or.imp id fun habsent => ?_))
    rw [hm.names, not_not] at habsent
    exact habsent

-- Room for three blocks. One block of a is evicted, a replaces b, and c is still as it was.
theorem answers_as_blockMap_replaced : ∃ c, ofSizing (.ofLayout 4 1 8192) = .ok c ∧
    let steps : List Step := [.update "a" 0 0 ⟨#[1]⟩, .update "a" 7 0 ⟨#[2, 3]⟩,
      .update "b" 0 0 ⟨#[4]⟩, .update "c" 0 0 ⟨#[5]⟩, .rename "a" "b", .update "b" 7 1 ⟨#[6]⟩]
    fetched (after ⟨c, {}⟩ steps) "b" 7 0 2 = .ok (some ⟨#[2, 6]⟩) ∧
    fetched (after ⟨c, {}⟩ steps) "b" 0 0 1 = .ok none ∧
    ∃ capacity, Sizing.capacity (.ofLayout 4 1 8192) = .ok capacity ∧
      let m := after ⟨c, {}⟩ steps
      let r := BlockMap.after { capacity, blockSize := 8192 } steps
      (∀ s, Ends (step s) m (fun reply _ => r.Answers s reply) (fun _ _ => ¬r.Fits s)) ∧
      (∀ gone name, name ≠ gone → fetched (afterStep m (.delete gone)) name = fetched m name) ∧
      ∀ source dest name, (name ≠ source ∧ name ≠ dest) ∨ source = dest ∨ source ∉ r.names →
        fetched (afterStep m (.rename source dest)) name = fetched m name :=
  ⟨_, rfl, by decide +kernel, by decide +kernel,
    answers_as_blockMap (show ofSizing (.ofLayout 4 1 8192) = _ from rfl) _⟩

end FileCache

end Blockwise
