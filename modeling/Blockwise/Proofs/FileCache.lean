import Blockwise.FileCache
import Blockwise.Proofs.Engine.History
import Blockwise.Proofs.Maps

namespace Blockwise

namespace FileCache

open Act

variable {c c' c'' : FileCache} {m m' : Metered FileCache} {name source dest : String}
  {file block offset len : Nat} {data : Bytes}

-- What is seen under a name: the bytes of its blocks that are cached, as far as they are.
def byteAt (c : FileCache) (name : String) (block i : Nat) : Option UInt8 :=
  c.names[name]?.bind fun file => c.engine.byteAt ⟨file, block⟩ i

structure Sound (c : FileCache) : Prop where
  engine : c.engine.Sound
  gridded : Grid.blockSize ≤ c.engine.blockSize
  names_inj : ∀ (a b : String) (file : Nat), c.names[a]? = some file → c.names[b]? = some file → a = b
  names_lt : ∀ (a : String) (file : Nat), c.names[a]? = some file → file < c.nextFile
  files_lt : ∀ key ∈ c.engine.keys, key.file < c.nextFile

-- What an update of a range of a block leaves to be seen.
structure Updated (name : String) (block offset : Nat) (data : Bytes) (c c' : FileCache) : Prop where
  written : ∀ i, offset ≤ i → i < offset + data.size → ∀ x, c'.byteAt name block i = some x →
    data[i - offset]? = some x
  kept : ∀ name' block' i, i < Grid.blockSize →
    ¬(name' = name ∧ block' = block ∧ offset ≤ i ∧ i < offset + data.size) → ∀ x,
    c'.byteAt name' block' i = some x → c.byteAt name' block' i = some x ∨
      (name' = name ∧ block' = block ∧ c.byteAt name block i = none)

@[simp] theorem ends_onEngine {α : Type} {x : Engine.Run BlockKey α}
    {done : α → Metered FileCache → Prop} {failed : Breach → Metered FileCache → Prop} :
    Ends (onEngine x) m done failed ↔ Ends x ⟨m.part.engine, m.tally⟩
      (fun a e => done a ⟨{ m.part with engine := e.part }, e.tally⟩)
      (fun b e => failed b ⟨{ m.part with engine := e.part }, e.tally⟩) := ends_onPart

@[simp] theorem ends_modifyFiles {f : FileCache → FileCache}
    {done : Unit → Metered FileCache → Prop} {failed : Breach → Metered FileCache → Prop} :
    Ends (modifyFiles f) m done failed ↔ done () ⟨f m.part, m.tally⟩ := Iff.rfl

-- The number of a name, with all else as it was. A new number belongs to no block.
structure Numbered (name : String) (file : Nat) (c c' : FileCache) : Prop where
  sound : c'.Sound
  engine : c'.engine = c.engine
  tracked : c'.tracked = c.tracked
  names : ∀ a, c'.names[a]? = if name = a then some file else c.names[a]?
  kept : ∀ file', c.names[name]? = some file' → file' = file
  fresh : c.names[name]? = none → ∀ key ∈ c.engine.keys, key.file ≠ file

theorem Numbered.named (h : Numbered name file c c') : c'.names[name]? = some file := by
  rw [h.names, if_pos rfl]

theorem Numbered.byteAt (h : Numbered name file c c') : c'.byteAt = c.byteAt := by
  funext a block i
  rw [FileCache.byteAt, FileCache.byteAt, h.names, h.engine]
  by_cases ha : name = a
  · subst ha
    rw [if_pos rfl, Option.bind_some]
    cases hname : c.names[name]? with
    | some file' =>
      obtain rfl := h.kept file' hname
      rw [Option.bind_some]
    | none =>
      have hfresh : (⟨file, block⟩ : BlockKey) ∉ c.engine.keys := by
        intro hmem
        exact h.fresh hname _ hmem rfl
      rw [Option.bind_none, Engine.byteAt, Recency.peek_eq_none_iff.mpr hfresh, Option.map_none]
  · rw [if_neg ha]

theorem fileOf_ends (hs : m.part.Sound) (name : String) :
    Ends (fileOf name) m
      (fun file m' => Numbered name file m.part m'.part ∧ m'.tally = m.tally)
      (fun _ _ => False) := by
  cases hname : m.part.names[name]? with
  | some file =>
    simp only [fileOf, ends_bind, ends_get, hname, ends_pure, and_true]
    refine ⟨hs, rfl, rfl, ?_, ?_, ?_⟩
    · intro a
      split
      · next heq => rw [← heq, hname]
      · rfl
    · intro file' hfile'
      exact Option.some.inj (hfile'.symm.trans hname)
    · intro hnone
      rw [hname] at hnone
      cases hnone
  | none =>
    simp only [fileOf, ends_bind, ends_get, hname, ends_modifyFiles, ends_pure, and_true]
    have hnames : ∀ a, (m.part.names.insert name m.part.nextFile)[a]? =
        if name = a then some m.part.nextFile else m.part.names[a]? :=
      fun a => Maps.getElem?_insert _ _ _ _
    refine ⟨⟨hs.engine, hs.gridded, ?_, ?_, ?_⟩, rfl, rfl, hnames, ?_, ?_⟩
    · intro a b file ha hb
      rw [hnames] at ha hb
      have hlt := hs.names_lt
      have hinj := hs.names_inj
      grind
    · intro a file ha
      rw [hnames] at ha
      have hlt := hs.names_lt a file
      grind
    · intro key hkey
      have hlt := hs.files_lt key hkey
      exact Nat.lt_succ_of_lt hlt
    · intro file' hfile'
      rw [hname] at hfile'
      cases hfile'
    · intro _ key hkey
      exact Nat.ne_of_lt (hs.files_lt key hkey)

-- Tracking a block changes nothing that is seen.
def tracking (c : FileCache) (file block : Nat) : FileCache :=
  { c with tracked := c.tracked.insert file ((c.tracked[file]?.getD ∅).insert block) }

@[simp] theorem ends_track {done : Unit → Metered FileCache → Prop}
    {failed : Breach → Metered FileCache → Prop} :
    Ends (track file block) m done failed ↔ done () ⟨m.part.tracking file block, m.tally⟩ := Iff.rfl

theorem Sound.tracking (hs : c.Sound) (file block : Nat) : (c.tracking file block).Sound :=
  ⟨hs.engine, hs.gridded, hs.names_inj, hs.names_lt, hs.files_lt⟩

-- A block of the engine belongs to at most one name.
theorem Sound.key_eq (hs : c.Sound) {name' : String} {file' : Nat}
    (h : c.names[name]? = some file) (h' : c.names[name']? = some file') (block block' : Nat) :
    (⟨file', block'⟩ : BlockKey) = ⟨file, block⟩ ↔ name' = name ∧ block' = block := by
  rw [BlockKey.mk.injEq]
  constructor
  · intro hkey
    obtain ⟨rfl, rfl⟩ := hkey
    exact ⟨hs.names_inj _ _ _ h' h, rfl⟩
  · intro hpair
    obtain ⟨rfl, rfl⟩ := hpair
    exact ⟨Option.some.inj (h'.symm.trans h), rfl⟩

theorem store_shown {e' : Metered (Engine BlockKey)} (hs : m.part.Sound)
    (hname : m.part.names[name]? = some file)
    (hstored : Engine.Stored ⟨file, block⟩ offset data ⟨m.part.engine, m.tally⟩ e') :
    Sound { m.part with engine := e'.part } ∧
      Updated name block offset data m.part { m.part with engine := e'.part } := by
  have hkeys : ∀ key ∈ e'.part.keys, key = ⟨file, block⟩ ∨ key ∈ m.part.engine.keys := by
    intro key hkey
    rw [hstored.keys] at hkey
    have hmem := List.mem_of_mem_take hkey
    rw [List.mem_cons, List.mem_filter] at hmem
    exact hmem.imp id And.left
  refine ⟨⟨hstored.sound, ?_, hs.names_inj, hs.names_lt, ?_⟩, ?_, ?_⟩
  · have hsize : e'.part.blockSize = m.part.engine.blockSize := hstored.frame.blockSize
    exact hsize ▸ hs.gridded
  · intro key hkey
    rcases hkeys key hkey with rfl | hold
    · exact hs.names_lt name file hname
    · exact hs.files_lt key hold
  · intro i hle hlt x hx
    rw [byteAt, hname, Option.bind_some, hstored.written i hle hlt] at hx
    exact hx
  · intro name' block' i hi hout x hx
    obtain ⟨file', hname', hx⟩ := Option.bind_eq_some_iff.mp hx
    have hmem := Engine.mem_keys_of_byteAt hx
    have hsame := hs.key_eq hname hname' block block'
    have hin : i < m.part.engine.arena.blockSize := Nat.lt_of_lt_of_le hi hs.gridded
    by_cases hold : (⟨file', block'⟩ : BlockKey) ∈ m.part.engine.keys
    · left
      have hout' : ¬((⟨file', block'⟩ : BlockKey) = ⟨file, block⟩ ∧
          offset ≤ i ∧ i < offset + data.size) := by
        intro hcovered
        obtain ⟨hkey, hrange⟩ := hcovered
        obtain ⟨rfl, rfl⟩ := hsame.mp hkey
        exact hout ⟨rfl, rfl, hrange⟩
      rw [byteAt, hname', Option.bind_some, ← hstored.kept _ hmem i hin hold hout']
      exact hx
    · right
      obtain ⟨rfl, rfl⟩ := hsame.mp ((hkeys _ hmem).resolve_right hold)
      refine ⟨rfl, rfl, ?_⟩
      rw [byteAt, hname', Option.bind_some, Engine.byteAt, Recency.peek_eq_none_iff.mpr hold,
        Option.map_none]

-- The block of a name as an update leaves it, under the number of the name.
structure Filed (name : String) (file block offset : Nat) (data : Bytes) (m m' : Metered FileCache) :
    Prop where
  numbered : ∃ c, Numbered name file m.part c ∧
    m'.part = { c with engine := m'.part.engine }.tracking file block
  fits : offset + data.size ≤ m.part.engine.blockSize
  stored : Engine.Stored ⟨file, block⟩ offset data ⟨m.part.engine, m.tally⟩
    ⟨m'.part.engine, m'.tally⟩

-- An update that is too long has given the name a number by then.
theorem update_filed (hs : m.part.Sound) (name : String) (block offset : Nat) (data : Bytes) :
    Ends (update name block offset data) m
      (fun _ m' => ∃ file, Filed name file block offset data m m')
      (fun _ m' => m.part.engine.blockSize < offset + data.size ∧
        ∃ file, Numbered name file m.part m'.part) := by
  simp only [update, ends_bind]
  refine (fileOf_ends hs name).imp ?_ fun _ _ => False.elim
  intro file m₁ hfound
  obtain ⟨hnumbered, htally⟩ := hfound
  rw [ends_onEngine, hnumbered.engine, htally]
  refine (Engine.store_ends (m := ⟨m.part.engine, m.tally⟩) hs.engine).imp ?_ ?_
  · intro _ e hdone
    obtain ⟨rfl, hfits, hstored⟩ := hdone
    simp only [if_true, ends_track]
    exact ⟨file, ⟨m₁.part, hnumbered, rfl⟩, hfits, hstored⟩
  · intro b e hfailed
    obtain ⟨hlong, _, rfl⟩ := hfailed
    refine ⟨hlong, file, ?_⟩
    rw [← hnumbered.engine]
    exact hnumbered

theorem Filed.shown {m' : Metered FileCache} (h : Filed name file block offset data m m') :
    m'.part.Sound ∧ Updated name block offset data m.part m'.part := by
  obtain ⟨⟨c, hnumbered, hpart⟩, _, hstored⟩ := h
  rw [← hnumbered.engine] at hstored
  obtain ⟨hs, hupdated⟩ := store_shown (m := ⟨c, m.tally⟩) hnumbered.sound hnumbered.named hstored
  have hsame : m'.part.byteAt = FileCache.byteAt { c with engine := m'.part.engine } := by
    rw [hpart]
    rfl
  refine ⟨hpart ▸ hs.tracking file block, ?_, ?_⟩
  · intro i hle hlt x hx
    rw [hsame] at hx
    exact hupdated.written i hle hlt x hx
  · intro name' block' i hi hout x hx
    rw [hsame] at hx
    rw [← hnumbered.byteAt]
    exact hupdated.kept name' block' i hi hout x hx

theorem update_ends (hs : m.part.Sound) (name : String) (block offset : Nat) (data : Bytes) :
    Ends (update name block offset data) m
      (fun _ m' => m'.part.Sound ∧ offset + data.size ≤ m.part.engine.blockSize ∧
        Updated name block offset data m.part m'.part)
      (fun _ m' => m'.part.Sound ∧ m.part.engine.blockSize < offset + data.size ∧
        m'.part.byteAt = m.part.byteAt) := by
  refine (update_filed hs name block offset data).imp ?_ ?_
  · intro _ m' hdone
    obtain ⟨file, hfiled⟩ := hdone
    obtain ⟨hs', hupdated⟩ := hfiled.shown
    exact ⟨hs', hfiled.fits, hupdated⟩
  · intro _ m' hfailed
    obtain ⟨hlong, file, hnumbered⟩ := hfailed
    exact ⟨hnumbered.sound, hlong, hnumbered.byteAt⟩

-- The block of a name is cached.
def Holds (c : FileCache) (name : String) (block : Nat) : Prop :=
  ∃ file, c.names[name]? = some file ∧ ⟨file, block⟩ ∈ c.engine.keys

-- A block that was looked up comes to the front of the engine, and all else stays.
def Found (name : String) (block : Nat) (c c' : FileCache) : Prop :=
  ∃ file n e, c.names[name]? = some file ∧ Engine.Moved ⟨file, block⟩ n c.engine e ∧
    c' = { c with engine := e } ∧ ⟨file, block⟩ ∈ c.engine.keys

theorem Found.holds (h : Found name block c c') : c.Holds name block := by
  obtain ⟨file, n, e, hname, _, _, hmem⟩ := h
  exact ⟨file, hname, hmem⟩

theorem Found.shown (h : Found name block c c') (hs : c.Sound) :
    c'.Sound ∧ c'.byteAt = c.byteAt := by
  obtain ⟨file, n, e, hname, hmoved, rfl, _⟩ := h
  refine ⟨⟨hmoved.sound, ?_, hs.names_inj, hs.names_lt, ?_⟩, ?_⟩
  · have hsize : e.blockSize = c.engine.blockSize := hmoved.frame.blockSize
    exact hsize ▸ hs.gridded
  · intro key hkey
    rw [hmoved.keys, List.mem_cons, List.mem_filter] at hkey
    rcases hkey with rfl | ⟨hkey, _⟩
    · exact hs.names_lt name file hname
    · exact hs.files_lt key hkey
  · funext name' block' i
    rw [byteAt, byteAt, hmoved.byteAt]

-- A block that is cached is found whatever range of it is asked for, and no other block is.
theorem fetch_found (hs : m.part.Sound) (name : String) (block offset len : Nat) :
    Ends (fetch name block offset len) m
      (fun found m' =>
        (Found name block m.part m'.part ∧ offset + len ≤ m.part.engine.blockSize ∧
          ∃ bytes, found = some bytes ∧ bytes.size = len ∧
            ∀ i < len, bytes[i]? = m.part.byteAt name block (offset + i)) ∨
        (¬m.part.Holds name block ∧ m'.part = m.part ∧ found = none))
      (fun _ m' => m'.part = m.part ∧ m.part.engine.blockSize < offset + len) := by
  cases hname : m.part.names[name]? with
  | none =>
    simp only [fetch, ends_bind, ends_get, hname, ends_modify, ends_pure]
    refine .inr ⟨fun hholds => ?_, trivial, trivial⟩
    obtain ⟨file, hfile, _⟩ := hholds
    rw [hname] at hfile
    cases hfile
  | some file =>
    simp only [fetch, ends_bind, ends_get, hname, ends_onEngine]
    refine (Engine.fetch_ends hs.engine).imp ?_ ?_
    · intro found e hdone
      obtain ⟨hfits, hfound⟩ := hdone
      split at hfound
      · next hmem =>
        obtain ⟨⟨n, hmoved⟩, _, bytes, rfl, hsize, hbytes⟩ := hfound
        refine .inl ⟨⟨file, n, e.part, hname, hmoved, rfl, hmem⟩, hfits, bytes, rfl, hsize,
          fun i hi => ?_⟩
        rw [hbytes i hi, byteAt, hname, Option.bind_some]
      · next habsent =>
        obtain ⟨rfl, rfl⟩ := hfound
        refine .inr ⟨fun hholds => ?_, rfl, rfl⟩
        obtain ⟨file', hfile', hmem⟩ := hholds
        obtain rfl := Option.some.inj (hname.symm.trans hfile')
        exact habsent hmem
    · intro b e hfailed
      obtain ⟨hlong, _, rfl⟩ := hfailed
      exact ⟨rfl, hlong⟩

-- A hit returns what is seen, and no fetch changes what is seen.
theorem fetch_ends (hs : m.part.Sound) (name : String) (block offset len : Nat) :
    Ends (fetch name block offset len) m
      (fun found m' => m'.part.Sound ∧ m'.part.byteAt = m.part.byteAt ∧
        ∀ bytes, found = some bytes → bytes.size = len ∧
          ∀ i < len, bytes[i]? = m.part.byteAt name block (offset + i))
      (fun _ m' => m'.part.Sound ∧ m'.part.byteAt = m.part.byteAt ∧
        m.part.engine.blockSize < offset + len) := by
  refine (fetch_found hs name block offset len).imp ?_ ?_
  · intro found m' hdone
    rcases hdone with ⟨hfound, _, bytes, rfl, hsize, hbytes⟩ | ⟨_, hsame, rfl⟩
    · obtain ⟨hs', hshown⟩ := hfound.shown hs
      refine ⟨hs', hshown, fun _ hread => ?_⟩
      cases hread
      exact ⟨hsize, hbytes⟩
    · rw [hsame]
      exact ⟨hs, rfl, by simp⟩
  · intro _ m' hfailed
    obtain ⟨hsame, hlong⟩ := hfailed
    rw [hsame]
    exact ⟨hs, rfl, hlong⟩

-- The given blocks of a number are gone from the engine, and all others are as they were.
structure Dropped (file : Nat) (blocks : List Nat) (c c' : FileCache) : Prop where
  sound : c'.Sound
  names : c'.names = c.names
  nextFile : c'.nextFile = c.nextFile
  tracked : ∀ file' ≠ file, c'.tracked[file']? = c.tracked[file']?
  frame : Engine.Frame c.engine c'.engine
  keys : c'.engine.keys = c.engine.keys.filter fun key => ¬(key.file = file ∧ key.block ∈ blocks)
  other : ∀ key : BlockKey, key.file ≠ file → c'.engine.byteAt key = c.engine.byteAt key

theorem dropEach_ends (hs : m.part.Sound) (file : Nat) (blocks : List Nat) :
    Ends (blocks.forM fun block => do let _ ← onEngine (Engine.delete ⟨file, block⟩)) m
      (fun _ m' => Dropped file blocks m.part m'.part) (fun _ _ => False) := by
  induction blocks generalizing m with
  | nil =>
    refine ⟨hs, rfl, rfl, fun _ _ => rfl, .refl _, ?_, fun _ _ => rfl⟩
    simp
  | cons block blocks ih =>
    simp only [List.forM_eq_forM, List.forM_cons, ends_bind, ends_onEngine, ends_pure]
    refine (Engine.delete_ends hs.engine).imp ?_ fun _ _ => False.elim
    intro _ e hdone
    obtain ⟨_, hdeleted⟩ := hdone
    have hsound : Sound { m.part with engine := e.part } := by
      refine ⟨hdeleted.sound, ?_, hs.names_inj, hs.names_lt, ?_⟩
      · have hsize : e.part.blockSize = m.part.engine.blockSize := hdeleted.frame.blockSize
        exact hsize ▸ hs.gridded
      · intro key hkey
        rw [hdeleted.keys] at hkey
        exact hs.files_lt key (List.mem_of_mem_filter hkey)
    refine (ih (m := ⟨{ m.part with engine := e.part }, e.tally⟩) hsound).imp ?_ fun _ _ => id
    intro _ m' hrest
    refine ⟨hrest.sound, hrest.names, hrest.nextFile, hrest.tracked,
      hdeleted.frame.trans hrest.frame, ?_, ?_⟩
    · rw [hrest.keys, hdeleted.keys, List.filter_filter]
      refine List.filter_congr fun key _ => ?_
      obtain ⟨file', block'⟩ := key
      simp only [List.mem_cons]
      grind
    · intro key hne
      rw [hrest.other key hne]
      refine hdeleted.byteAt key ?_
      rintro rfl
      exact hne rfl

-- The blocks that are listed under a number.
def listed (c : FileCache) (file : Nat) : List Nat := (c.tracked[file]?.getD ∅).toList

theorem dropBlocks_ends (hs : m.part.Sound) (file : Nat) :
    Ends (dropBlocks file) m (fun _ m' => Dropped file (m.part.listed file) m.part m'.part)
      (fun _ _ => False) := by
  cases htracked : m.part.tracked[file]? with
  | none =>
    simp only [dropBlocks, ends_bind, ends_get, htracked, ends_pure, listed, Option.getD_none]
    refine ⟨hs, rfl, rfl, fun _ _ => rfl, .refl _, ?_, fun _ _ => rfl⟩
    simp
  | some blocks =>
    simp only [dropBlocks, ends_bind, ends_get, htracked, ends_modifyFiles, listed,
      Option.getD_some]
    have hs' : Sound { m.part with tracked := m.part.tracked.erase file } :=
      ⟨hs.engine, hs.gridded, hs.names_inj, hs.names_lt, hs.files_lt⟩
    refine (dropEach_ends (m := ⟨{ m.part with tracked := m.part.tracked.erase file }, m.tally⟩)
      hs' file blocks.toList).imp ?_ fun _ _ => id
    intro _ m' hdone
    refine ⟨hdone.sound, hdone.names, hdone.nextFile, fun file' hne => ?_, hdone.frame,
      hdone.keys, hdone.other⟩
    rw [hdone.tracked file' hne]
    exact (Maps.getElem?_erase _ _ _).trans (if_neg hne.symm)

theorem Dropped.byteAt {blocks : List Nat} (h : Dropped file blocks c c') (hno : c.names[name]? ≠ some file) :
    c'.byteAt name = c.byteAt name := by
  funext block i
  rw [FileCache.byteAt, FileCache.byteAt, h.names]
  cases hname : c.names[name]? with
  | none => rfl
  | some file' =>
    have hne : file' ≠ file := fun heq => hno (heq ▸ hname)
    rw [Option.bind_some, Option.bind_some, h.other ⟨file', block⟩ hne]

theorem byteAt_of_unnamed (h : c.names[name]? = none) (block i : Nat) :
    c.byteAt name block i = none := by
  rw [byteAt, h, Option.bind_none]

-- A fresh cache shows nothing.
theorem ofSizing_sound {sizing : Sizing} {memory : Memory} (h : ofSizing sizing memory = .ok c) :
    c.Sound ∧ ∀ name block i, c.byteAt name block i = none := by
  unfold ofSizing at h
  cases hengine : Engine.new sizing memory with
  | error e =>
    rw [hengine] at h
    cases h
  | ok engine =>
    rw [hengine] at h
    have h : (new engine).mapError Failure.error = .ok c := h
    obtain ⟨hsound, hkeys, _⟩ := Engine.new_sound hengine
    unfold new at h
    split at h
    · cases h
    · next hsize =>
      cases h
      have hnames (name : String) : (∅ : Std.TreeMap String Nat)[name]? = none :=
        Std.TreeMap.getElem?_emptyc
      refine ⟨⟨hsound, Nat.not_lt.mp hsize, ?_, ?_, ?_⟩, fun name => byteAt_of_unnamed (hnames name)⟩
      · intro a b file ha
        rw [hnames] at ha
        cases ha
      · intro a file ha
        rw [hnames] at ha
        cases ha
      · rw [hkeys]
        exact fun key hkey => absurd hkey List.not_mem_nil

theorem byteAt_congr {name' : String} (hnames : c'.names[name']? = c.names[name]?)
    (hengine : c'.engine = c.engine) : c'.byteAt name' = c.byteAt name := by
  funext block i
  rw [byteAt, byteAt, hnames, hengine]

-- A cache without a name, whose blocks are still there.
def unnamed (c : FileCache) (name : String) : FileCache := { c with names := c.names.erase name }

theorem names_unnamed (c : FileCache) (name a : String) :
    (c.unnamed name).names[a]? = if name = a then none else c.names[a]? :=
  Maps.getElem?_erase _ _ _

theorem Sound.unnamed (hs : c.Sound) (name : String) : (c.unnamed name).Sound := by
  refine ⟨hs.engine, hs.gridded, ?_, ?_, hs.files_lt⟩
  · intro a b file ha hb
    rw [names_unnamed] at ha hb
    have hinj := hs.names_inj a b file
    grind
  · intro a file ha
    rw [names_unnamed] at ha
    split at ha
    · cases ha
    · exact hs.names_lt a file ha

theorem delete_dropped (hs : m.part.Sound) (name : String) :
    Ends (delete name) m
      (fun _ m' => match m.part.names[name]? with
        | none => m' = m
        | some file => Dropped file (m.part.listed file) (m.part.unnamed name) m'.part)
      (fun _ _ => False) := by
  cases hname : m.part.names[name]? with
  | none => simp only [delete, ends_bind, ends_get, hname, ends_pure]
  | some file =>
    simp only [delete, ends_bind, ends_get, hname, ends_modifyFiles]
    exact dropBlocks_ends (m := ⟨m.part.unnamed name, m.tally⟩) (hs.unnamed name) file

theorem delete_ends (hs : m.part.Sound) (name : String) :
    Ends (delete name) m
      (fun _ m' => m'.part.Sound ∧ (∀ block i, m'.part.byteAt name block i = none) ∧
        ∀ name' ≠ name, m'.part.byteAt name' = m.part.byteAt name')
      (fun _ _ => False) := by
  refine (delete_dropped hs name).imp ?_ fun _ _ => id
  intro _ m' hdone
  split at hdone
  · next hname =>
    subst hdone
    exact ⟨hs, byteAt_of_unnamed hname, fun _ _ => rfl⟩
  · next file hname =>
    refine ⟨hdone.sound, byteAt_of_unnamed ?_, fun name' hne => ?_⟩
    · rw [hdone.names, names_unnamed, if_pos rfl]
    · have hkept : (m.part.unnamed name).names[name']? = m.part.names[name']? := by
        rw [names_unnamed, if_neg hne.symm]
      rw [hdone.byteAt]
      · exact byteAt_congr hkept rfl
      · intro hfile
        exact hne (hs.names_inj _ _ file (hkept ▸ hfile) hname)

-- A cache with the number of one name given to another.
def renamed (c : FileCache) (source dest : String) (file : Nat) : FileCache :=
  { c with names := (c.names.erase source).insert dest file }

theorem names_renamed (c : FileCache) (source dest : String) (file : Nat) (a : String) :
    (c.renamed source dest file).names[a]? =
      if dest = a then some file else if source = a then none else c.names[a]? := by
  rw [renamed, Maps.getElem?_insert, Maps.getElem?_erase]

theorem Sound.renamed (hs : c.Sound) (hsource : c.names[source]? = some file) (dest : String) :
    (c.renamed source dest file).Sound := by
  have hinj := hs.names_inj
  refine ⟨hs.engine, hs.gridded, ?_, ?_, hs.files_lt⟩
  · intro a b file' ha hb
    rw [names_renamed] at ha hb
    grind
  · intro a file' ha
    rw [names_renamed] at ha
    split at ha
    · exact Option.some.inj ha ▸ hs.names_lt source file hsource
    · split at ha
      · cases ha
      · exact hs.names_lt a file' ha

-- The blocks of a name that is renamed to itself stay; those of any other that is replaced go.
theorem rename_dropped (hs : m.part.Sound) (source dest : String) :
    Ends (rename source dest) m
      (fun _ m' => match m.part.names[source]? with
        | none => m' = m
        | some file => match (m.part.names.erase source)[dest]? with
          | none => m' = ⟨m.part.renamed source dest file, m.tally⟩
          | some old =>
            Dropped old (m.part.listed old) (m.part.renamed source dest file) m'.part)
      (fun _ _ => False) := by
  cases hsource : m.part.names[source]? with
  | none => simp only [rename, ends_bind, ends_get, hsource, ends_pure]
  | some file =>
    simp only [rename, ends_bind, ends_get, hsource, ends_modifyFiles]
    cases hreplaced : (m.part.names.erase source)[dest]? with
    | none => simp only [ends_pure, renamed]
    | some old =>
      exact dropBlocks_ends (m := ⟨m.part.renamed source dest file, m.tally⟩)
        (hs.renamed hsource dest) old

-- The blocks of one name are seen under the other, and nothing under the first.
structure Renamed (source dest : String) (c c' : FileCache) : Prop where
  sound : c'.Sound
  moved : c'.byteAt dest = c.byteAt source
  gone : source ≠ dest → ∀ block i, c'.byteAt source block i = none
  other : ∀ name, name ≠ source → name ≠ dest → c'.byteAt name = c.byteAt name

theorem Sound.renamed_shown (hs : c.Sound) (hsource : c.names[source]? = some file) (dest : String) :
    Renamed source dest c (c.renamed source dest file) := by
  have hnames := c.names_renamed source dest file
  refine ⟨hs.renamed hsource dest, ?_, ?_, ?_⟩
  · exact byteAt_congr (((hnames dest).trans (if_pos rfl)).trans hsource.symm) rfl
  · intro hne
    exact byteAt_of_unnamed (((hnames source).trans (if_neg hne.symm)).trans (if_pos rfl))
  · intro name hns hnd
    exact byteAt_congr (((hnames name).trans (if_neg hnd.symm)).trans (if_neg hns.symm)) rfl

-- A number that is replaced belonged to the other name, and belongs to none any more.
theorem Sound.names_ne_of_replaced (hs : c.Sound) (hsource : c.names[source]? = some file) {old : Nat}
    (hreplaced : (c.names.erase source)[dest]? = some old) (name : String) :
    c.names[dest]? = some old ∧ source ≠ dest ∧
      (c.renamed source dest file).names[name]? ≠ some old := by
  have hinj := hs.names_inj
  rw [Maps.getElem?_erase] at hreplaced
  have hne : source ≠ dest := by
    rintro rfl
    rw [if_pos rfl] at hreplaced
    cases hreplaced
  rw [if_neg hne] at hreplaced
  refine ⟨hreplaced, hne, fun hname => ?_⟩
  rw [names_renamed] at hname
  grind

theorem rename_ends (hs : m.part.Sound) (source dest : String) :
    Ends (rename source dest) m
      (fun _ m' => if m.part.names[source]?.isSome then Renamed source dest m.part m'.part
        else m' = m)
      (fun _ _ => False) := by
  refine (rename_dropped hs source dest).imp ?_ fun _ _ => id
  intro _ m' hdone
  split at hdone
  · next hsource =>
    rw [if_neg (by simp [hsource])]
    exact hdone
  · next file hsource =>
    rw [if_pos (by simp [hsource])]
    have hrenamed := hs.renamed_shown hsource dest
    split at hdone
    · exact hdone ▸ hrenamed
    · next old hreplaced =>
      have hkept : ∀ name, m'.part.byteAt name =
          (m.part.renamed source dest file).byteAt name := fun name =>
        hdone.byteAt (hs.names_ne_of_replaced hsource hreplaced name).2.2
      refine ⟨hdone.sound, (hkept dest).trans hrenamed.moved, ?_, ?_⟩
      · intro hne block i
        rw [hkept source]
        exact hrenamed.gone hne block i
      · intro name hns hnd
        exact (hkept name).trans (hrenamed.other name hns hnd)

end FileCache

end Blockwise
