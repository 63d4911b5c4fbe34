import Blockwise.Proofs.FileCache.BlockMap
import Mathlib.Data.Finset.Card

namespace Blockwise

namespace FileCache

open Act

variable {c c' : FileCache} {m m' : Metered FileCache} {r : BlockMap} {gone : List BlockKey}
  {name source dest : String} {file block offset : Nat} {data : Bytes}

-- The names that are mapped after a call. What the engine does plays no part.
def Step.remap (names : Finset String) : Step → Finset String
  | .update name _ _ _ => insert name names
  | .fetch .. => names
  | .delete name => names.erase name
  | .rename source dest => if source ∈ names then insert dest (names.erase source) else names

def mapped (steps : List Step) : Finset String := steps.foldl Step.remap ∅

-- The blocks that an update has pushed out, of whatever names. What other calls take out of the
-- engine belonged to a name that they took out of the table.
def Step.pushes (c c' : FileCache) : Step → List BlockKey
  | .update .. => c.engine.keys.filter (· ∉ c'.engine.keys)
  | .fetch .. | .delete _ | .rename .. => []

def pushedOut (m : Metered FileCache) : List Step → List BlockKey
  | [] => []
  | s :: steps => s.pushes m.part (afterStep m s).part ++ pushedOut (afterStep m s) steps

-- Every name has a block that was published, and its published blocks are cached unless they were
-- pushed out.
structure Settled (gone : List BlockKey) (c : FileCache) : Prop where
  listed_lt : ∀ file, ∀ block ∈ c.listed file, file < c.nextFile
  published : ∀ (a : String) (file : Nat), c.names[a]? = some file → ∃ block, block ∈ c.listed file
  cached : ∀ (a : String) (file : Nat), c.names[a]? = some file → ∀ block ∈ c.listed file,
    (⟨file, block⟩ : BlockKey) ∈ c.engine.keys ∨ ⟨file, block⟩ ∈ gone

-- Names may go, and numbers may pass from name to name.
theorem Settled.of_names (h : c.Settled gone) (hnext : c'.nextFile = c.nextFile)
    (htracked : c'.tracked = c.tracked) (hkeys : ∀ key ∈ c.engine.keys, key ∈ c'.engine.keys)
    (hnames : ∀ (a : String) (file : Nat), c'.names[a]? = some file →
      ∃ b : String, c.names[b]? = some file) : c'.Settled gone := by
  have hlisted : c'.listed = c.listed := by
    funext file
    rw [listed, listed, htracked]
  refine ⟨?_, ?_, ?_⟩
  · rw [hlisted, hnext]
    exact h.listed_lt
  · intro a file ha
    obtain ⟨b, hb⟩ := hnames a file ha
    rw [hlisted]
    exact h.published b file hb
  · intro a file ha block hblock
    obtain ⟨b, hb⟩ := hnames a file ha
    rw [hlisted] at hblock
    exact (h.cached b file hb block hblock).imp (hkeys _) id

-- A number that no name has any more takes nothing along but its own blocks.
theorem Settled.dropped {blocks : List Nat} (h : c.Settled gone) (hlt : file < c.nextFile)
    (hfree : ∀ a : String, c.names[a]? ≠ some file) (hdropped : Dropped file blocks c c') :
    c'.Settled gone := by
  have hlisted : ∀ file' ≠ file, c'.listed file' = c.listed file' := by
    intro file' hne
    rw [listed, listed, hdropped.tracked file' hne]
  have hother : ∀ (a : String) (file' : Nat), c'.names[a]? = some file' →
      c.names[a]? = some file' ∧ file' ≠ file := by
    intro a file' ha
    rw [hdropped.names] at ha
    exact ⟨ha, fun heq => hfree a (heq ▸ ha)⟩
  refine ⟨?_, ?_, ?_⟩
  · intro file' block hblock
    rw [hdropped.nextFile]
    by_cases hsame : file' = file
    · exact hsame ▸ hlt
    · exact h.listed_lt file' block (hlisted file' hsame ▸ hblock)
  · intro a file' ha
    obtain ⟨ha, hne⟩ := hother a file' ha
    rw [hlisted file' hne]
    exact h.published a file' ha
  · intro a file' ha block hblock
    obtain ⟨ha, hne⟩ := hother a file' ha
    rw [hlisted file' hne] at hblock
    refine (h.cached a file' ha block hblock).imp (fun hmem => ?_) id
    rw [hdropped.keys, List.mem_filter]
    exact ⟨hmem, decide_eq_true fun hboth => hne hboth.1⟩

-- The number that an update takes: the one the name has, or the next.
theorem update_numbers (name : String) (block offset : Nat) (data : Bytes) :
    Ends (update name block offset data) m
      (fun _ m' => m'.part.names[name]? = some (m.part.names[name]?.getD m.part.nextFile) ∧
        m.part.nextFile ≤ m'.part.nextFile)
      (fun _ _ => True) := by
  let numbered (file : Nat) (c : FileCache) : Prop :=
    c.names[name]? = some file ∧ m.part.nextFile ≤ c.nextFile
  have hfile : Ends (fileOf name) m
      (fun file m' => file = m.part.names[name]?.getD m.part.nextFile ∧ numbered file m'.part)
      (fun _ _ => False) := by
    cases hname : m.part.names[name]? with
    | some file =>
      simp only [fileOf, ends_bind, ends_get, hname, ends_pure, Option.getD_some]
      exact ⟨trivial, hname, Nat.le_refl _⟩
    | none =>
      simp only [fileOf, ends_bind, ends_get, hname, ends_modifyFiles, ends_pure, Option.getD_none]
      exact ⟨trivial, (Maps.getElem?_insert _ _ _ _).trans (if_pos rfl), Nat.le_succ _⟩
  simp only [update, ends_bind]
  refine hfile.imp ?_ fun _ _ => False.elim
  intro file m₁ hdone
  obtain ⟨rfl, hnumbered⟩ := hdone
  rw [ends_onEngine]
  refine .always ?_ fun _ _ => trivial
  intro flag e
  cases flag with
  | true => exact hnumbered
  | false => exact hnumbered

theorem Filed.mem_listed (h : Filed name file block offset data m m') (file' block' : Nat) :
    block' ∈ m'.part.listed file' ↔
      (file' = file ∧ block' = block) ∨ block' ∈ m.part.listed file' := by
  obtain ⟨⟨c, hnumbered, hpart⟩, _⟩ := h
  have hsame : FileCache.listed { c with engine := m'.part.engine } file' =
      m.part.listed file' := by
    rw [listed, listed, hnumbered.tracked]
  rw [hpart, mem_listed_tracking, hsame]

-- The block of an update comes to the front, so that it is not the one that has to go.
theorem Filed.mem_keys (h : Filed name file block offset data m m') (hs : m.part.Sound) :
    (⟨file, block⟩ : BlockKey) ∈ m'.part.engine.keys := by
  have hpos : m.part.engine.capacity = m.part.engine.capacity - 1 + 1 := by
    have := hs.engine.capacity_pos
    omega
  rw [h.stored.keys]
  show _ ∈ List.take m.part.engine.capacity _
  rw [hpos, List.take_succ_cons]
  exact List.mem_cons_self

theorem Filed.names (h : Filed name file block offset data m m') (a : String) :
    m'.part.names[a]? = if name = a then some file else m.part.names[a]? := by
  obtain ⟨⟨c, hnumbered, hpart⟩, _⟩ := h
  have hnames : m'.part.names = c.names := by rw [hpart]; rfl
  rw [hnames, hnumbered.names]

theorem Settled.update_ends (h : m.part.Settled gone) (hs : m.part.Sound) (name : String)
    (block offset : Nat) (data : Bytes) (hfits : offset + data.size ≤ m.part.engine.blockSize) :
    Ends (update name block offset data) m
      (fun _ m' => m'.part.Settled
        (gone ++ (Step.update name block offset data).pushes m.part m'.part))
      (fun _ _ => False) := by
  refine ((update_filed hs name block offset data).and
    (update_numbers name block offset data)).imp ?_ ?_
  · intro _ m' hdone
    obtain ⟨⟨file, hfiled⟩, hnumber, hnext⟩ := hdone
    have hname : m'.part.names[name]? = some file := by rw [hfiled.names, if_pos rfl]
    have hfile : file = m.part.names[name]?.getD m.part.nextFile :=
      Option.some.inj (hname.symm.trans hnumber)
    -- a number under which blocks are listed is not new
    have hold : ∀ (a : String) (file' block' : Nat), m'.part.names[a]? = some file' →
        block' ∈ m.part.listed file' → m.part.names[a]? = some file' := by
      intro a file' block' ha hblock
      rw [hfiled.names] at ha
      split at ha
      · next hsame =>
        obtain rfl := Option.some.inj ha
        rw [← hsame]
        cases hbefore : m.part.names[name]? with
        | some file' => rw [hfile, hbefore, Option.getD_some]
        | none =>
          rw [hbefore, Option.getD_none] at hfile
          exact absurd (h.listed_lt file block' hblock) (Nat.not_lt.mpr hfile.ge)
      · exact ha
    refine ⟨?_, ?_, ?_⟩
    · intro file' block' hblock
      rcases (hfiled.mem_listed file' block').mp hblock with ⟨rfl, _⟩ | hblock
      · exact hfiled.shown.1.names_lt name file' hname
      · exact (h.listed_lt file' block' hblock).trans_le hnext
    · intro a file' ha
      rw [hfiled.names] at ha
      split at ha
      · obtain rfl := Option.some.inj ha
        exact ⟨block, (hfiled.mem_listed file block).mpr (.inl ⟨rfl, rfl⟩)⟩
      · obtain ⟨block', hblock⟩ := h.published a file' ha
        exact ⟨block', (hfiled.mem_listed file' block').mpr (.inr hblock)⟩
    · intro a file' ha block' hblock
      rw [Step.pushes, List.mem_append, List.mem_filter, decide_eq_true_eq]
      rcases (hfiled.mem_listed file' block').mp hblock with ⟨rfl, rfl⟩ | hblock
      · exact .inl (hfiled.mem_keys hs)
      · by_cases hstill : (⟨file', block'⟩ : BlockKey) ∈ m'.part.engine.keys
        · exact .inl hstill
        · have hcached := h.cached a file' (hold a file' block' ha hblock) block' hblock
          exact .inr (hcached.elim (fun hmem => .inr ⟨hmem, hstill⟩) .inl)
  · intro _ m' hfailed
    exact absurd hfits (Nat.not_le.mpr hfailed.1.1)

theorem Settled.fetch_ends (h : m.part.Settled gone) (hs : m.part.Sound) (name : String)
    (block offset len : Nat) :
    Ends (fetch name block offset len) m (fun _ m' => m'.part.Settled gone)
      (fun _ m' => m'.part.Settled gone) := by
  refine (fetch_found hs name block offset len).imp ?_ fun _ _ hfailed => hfailed.1 ▸ h
  intro found m' hdone
  rcases hdone with ⟨hfound, _⟩ | ⟨_, hsame, _⟩
  · obtain ⟨file, n, e, hname, hmoved, hpart, hmem⟩ := hfound
    rw [hpart]
    refine h.of_names rfl rfl (fun key hkey => ?_) fun a file ha => ⟨a, ha⟩
    show key ∈ e.keys
    rw [hmoved.keys, List.mem_cons, List.mem_filter, decide_eq_true_eq]
    exact or_iff_not_imp_left.mpr fun hne => ⟨hkey, hne⟩
  · exact hsame ▸ h

theorem Settled.delete_ends (h : m.part.Settled gone) (hs : m.part.Sound) (name : String) :
    Ends (delete name) m (fun _ m' => m'.part.Settled gone) (fun _ _ => False) := by
  refine (delete_dropped hs name).imp ?_ fun _ _ => id
  intro _ m' hdone
  split at hdone
  · exact hdone ▸ h
  · next file hname =>
    have hunnamed : ∀ (a : String) (file' : Nat), (m.part.unnamed name).names[a]? = some file' →
        m.part.names[a]? = some file' ∧ name ≠ a := by
      intro a file' ha
      rw [names_unnamed] at ha
      split at ha
      · cases ha
      · next hne => exact ⟨ha, hne⟩
    have hfirst : (m.part.unnamed name).Settled gone :=
      h.of_names rfl rfl (fun _ => id) fun a file' ha => ⟨a, (hunnamed a file' ha).1⟩
    refine hfirst.dropped (hs.names_lt name file hname) (fun a ha => ?_) hdone
    obtain ⟨hold, hne⟩ := hunnamed a file ha
    exact hne (hs.names_inj name a file hname hold)

theorem Settled.rename_ends (h : m.part.Settled gone) (hs : m.part.Sound) (source dest : String) :
    Ends (rename source dest) m (fun _ m' => m'.part.Settled gone) (fun _ _ => False) := by
  refine (rename_dropped hs source dest).imp ?_ fun _ _ => id
  intro _ m' hdone
  split at hdone
  · exact hdone ▸ h
  · next file hsource =>
    have hfirst : (m.part.renamed source dest file).Settled gone := by
      refine h.of_names rfl rfl (fun _ => id) fun a file' ha => ?_
      rw [names_renamed] at ha
      split at ha
      · exact ⟨source, hsource.trans ha⟩
      · split at ha
        · cases ha
        · exact ⟨a, ha⟩
    split at hdone
    · exact hdone ▸ hfirst
    · next old hreplaced =>
      obtain ⟨hdest, _⟩ := hs.names_ne_of_replaced hsource hreplaced dest
      exact hfirst.dropped (hs.names_lt dest old hdest)
        (fun a => (hs.names_ne_of_replaced hsource hreplaced a).2.2) hdone

-- One call within the size contract.
theorem Settled.step_ends (h : m.part.Settled gone) (hm : Mirrors m.part r) {s : Step}
    (hfits : r.Fits s) :
    Ends (step s) m (fun _ m' => m'.part.Settled (gone ++ s.pushes m.part m'.part))
      (fun _ m' => m'.part.Settled (gone ++ s.pushes m.part m'.part)) := by
  have hs := hm.tidy.sound
  cases s with
  | update name block offset data =>
    simp only [step, ends_bind, ends_pure]
    exact (h.update_ends hs name block offset data (hfits.trans_eq hm.blockSize.symm)).imp
      (fun _ _ => id) fun _ _ => False.elim
  | fetch name block offset len =>
    simp only [step, ends_map, Step.pushes, List.append_nil]
    exact h.fetch_ends hs name block offset len
  | delete name =>
    simp only [step, ends_bind, ends_pure, Step.pushes, List.append_nil]
    exact (h.delete_ends hs name).imp (fun _ _ => id) fun _ _ => False.elim
  | rename source dest =>
    simp only [step, ends_bind, ends_pure, Step.pushes, List.append_nil]
    exact (h.rename_ends hs source dest).imp (fun _ _ => id) fun _ _ => False.elim

theorem Mirrors.afterStep (hm : Mirrors m.part r) (s : Step) :
    Mirrors (afterStep m s).part (r.step s) :=
  ((hm.step_ends s).imp (fun _ _ => And.left) fun _ _ => And.left).outcome

theorem blockSize_step (r : BlockMap) (s : Step) : (r.step s).blockSize = r.blockSize := by
  cases s with
  | update name block offset data =>
    rw [BlockMap.step]
    split <;> rfl
  | fetch name block offset len =>
    rw [BlockMap.step, BlockMap.moveToFront]
    split
    · cases r.find name block <;> rfl
    · rfl
  | delete name => rfl
  | rename source dest =>
    rw [BlockMap.step, BlockMap.rename]
    split <;> rfl

-- Whether a call keeps the size contract is a matter of the size of blocks alone.
theorem fits_congr {r' : BlockMap} (hsize : r'.blockSize = r.blockSize) (s : Step) :
    r'.Fits s ↔ r.Fits s := by
  cases s with
  | update => simp only [BlockMap.Fits, hsize]
  | fetch => simp only [BlockMap.Fits, hsize]
  | delete => rfl
  | rename => rfl

theorem Settled.after (h : m.part.Settled gone) (hm : Mirrors m.part r) {steps : List Step}
    (hfits : ∀ s ∈ steps, r.Fits s) :
    (after m steps).part.Settled (gone ++ pushedOut m steps) := by
  induction steps generalizing m r gone with
  | nil =>
    rw [pushedOut, List.append_nil]
    exact h
  | cons s steps ih =>
    rw [pushedOut, ← List.append_assoc]
    have hends := h.step_ends hm (hfits s List.mem_cons_self)
    have hstep : (FileCache.afterStep m s).part.Settled
        (gone ++ s.pushes m.part (FileCache.afterStep m s).part) := hends.outcome
    refine ih hstep (hm.afterStep s) fun s' hs' => ?_
    rw [fits_congr (blockSize_step r s)]
    exact hfits s' (List.mem_cons_of_mem _ hs')

-- The table is what the calls make of it.
theorem names_step (r : BlockMap) (s : Step) : (r.step s).names = s.remap r.names := by
  cases s with
  | update name block offset data =>
    rw [BlockMap.step]
    split <;> rfl
  | fetch name block offset len =>
    rw [BlockMap.step, BlockMap.moveToFront]
    split
    · cases r.find name block <;> rfl
    · rfl
  | delete name => rfl
  | rename source dest =>
    rw [BlockMap.step, BlockMap.rename, Step.remap]
    by_cases hsource : source ∈ r.names
    · by_cases hsame : source = dest
      · subst hsame
        simp [hsource]
      · simp [hsource, hsame]
    · simp [hsource]

theorem names_after (r : BlockMap) (steps : List Step) :
    (r.after steps).names = steps.foldl Step.remap r.names := by
  induction steps generalizing r with
  | nil => rfl
  | cons s steps ih =>
    rw [List.foldl_cons, ← names_step]
    exact ih (r.step s)

theorem mem_names_keys {a : String} : a ∈ c.names.keys ↔ ∃ file, c.names[a]? = some file := by
  rw [Std.TreeMap.mem_keys, Std.TreeMap.mem_iff_isSome_getElem?, Option.isSome_iff_exists]

theorem Mirrors.nameCount_eq (hm : Mirrors c r) : c.nameCount = r.names.card := by
  have hnames : r.names = c.names.keys.toFinset := by
    ext a
    rw [List.mem_toFinset, mem_names_keys, hm.names, Option.ne_none_iff_exists']
  rw [hnames, List.toFinset_card_of_nodup Std.TreeMap.nodup_keys, Std.TreeMap.length_keys]
  rfl

-- Names that have a block each among the given ones are no more than these.
theorem Sound.length_le (hs : c.Sound) {names : List String} {keys : List BlockKey}
    (hnodup : names.Nodup)
    (hkeys : ∀ a ∈ names, ∃ key ∈ keys, c.names[a]? = some key.file) : names.length ≤ keys.length := by
  let number (a : String) : Nat := c.names[a]?.getD 0
  have hnumbers : (names.map number).Nodup := by
    refine List.Nodup.map_on (fun a ha b hb hsame => ?_) hnodup
    obtain ⟨key, _, hkey⟩ := hkeys a ha
    obtain ⟨key', _, hkey'⟩ := hkeys b hb
    have hsame : key.file = key'.file := by
      simpa only [number, hkey, hkey', Option.getD_some] using hsame
    exact hs.names_inj a b key.file hkey (hkey'.trans (congrArg some hsame.symm))
  have hsub : names.map number ⊆ keys.map BlockKey.file := by
    intro file hfile
    obtain ⟨a, ha, rfl⟩ := List.mem_map.mp hfile
    obtain ⟨key, hkey, hname⟩ := hkeys a ha
    exact List.mem_map.mpr ⟨key, hkey, by simp only [number, hname, Option.getD_some]⟩
  have hle := (hnumbers.subperm hsub).length_le
  rwa [List.length_map, List.length_map] at hle

theorem resident_ne_zero {a : String} : c.resident a ≠ 0 ↔
    ∃ key ∈ c.engine.keys, c.names[a]? = some key.file := by
  rw [resident, ← Nat.pos_iff_ne_zero, List.countP_pos_iff]
  simp only [decide_eq_true_eq]

-- The names with a cached block, and those that have lost all of theirs.
def lodged (c : FileCache) : List String := c.names.keys.filter (c.resident · ≠ 0)

def deserted (c : FileCache) : List String := c.names.keys.filter (c.resident · = 0)

-- What bounds the table: the cache, and the blocks that were pushed out of it.
structure Bounded (gone : List BlockKey) (c : FileCache) : Prop where
  published : ∀ (a : String) (file : Nat), c.names[a]? = some file → ∃ block, block ∈ c.listed file
  cached : ∀ (a : String) (file : Nat), c.names[a]? = some file → ∀ block ∈ c.listed file,
    (⟨file, block⟩ : BlockKey) ∈ c.engine.keys ∨ ⟨file, block⟩ ∈ gone
  size_le : c.size ≤ c.engine.capacity
  lodged_le : c.lodged.length ≤ c.size
  deserted_le : c.deserted.length ≤ gone.length
  nameCount_le : c.nameCount ≤ c.size + gone.length

theorem Settled.bounded (h : c.Settled gone) (hs : c.Sound) : c.Bounded gone := by
  have hnodup : c.names.keys.Nodup := Std.TreeMap.nodup_keys
  have hlodged : c.lodged.length ≤ c.size := by
    rw [hs.taken_eq.1]
    refine hs.length_le (hnodup.filter _) fun a ha => ?_
    rw [lodged, List.mem_filter, decide_eq_true_eq] at ha
    exact resident_ne_zero.mp ha.2
  have hdeserted : c.deserted.length ≤ gone.length := by
    refine hs.length_le (hnodup.filter _) fun a ha => ?_
    rw [deserted, List.mem_filter, decide_eq_true_eq] at ha
    obtain ⟨hmem, hnone⟩ := ha
    obtain ⟨file, hname⟩ := mem_names_keys.mp hmem
    obtain ⟨block, hblock⟩ := h.published a file hname
    refine ⟨⟨file, block⟩, (h.cached a file hname block hblock).resolve_left fun hkey => ?_, hname⟩
    exact resident_ne_zero.mpr ⟨_, hkey, hname⟩ hnone
  refine ⟨h.published, h.cached, hs.engine.len_le, hlodged, hdeserted, ?_⟩
  have hsplit : c.nameCount = c.lodged.length + c.deserted.length := by
    have hlength := List.length_eq_length_filter_add (l := c.names.keys) (c.resident · ≠ 0)
    rw [Std.TreeMap.length_keys] at hlength
    simpa only [lodged, deserted, nameCount, ne_eq, decide_not, Bool.not_not] using hlength
  omega

-- A name whose blocks were never pushed out still has one.
theorem Bounded.lodged_of_none (h : c.Bounded []) :
    (∀ (a : String) (file : Nat), c.names[a]? = some file → ∃ key ∈ c.engine.keys, key.file = file) ∧
      c.nameCount ≤ c.size := by
  refine ⟨fun a file ha => ?_, h.nameCount_le⟩
  obtain ⟨block, hblock⟩ := h.published a file ha
  exact ⟨⟨file, block⟩, (h.cached a file ha block hblock).resolve_right List.not_mem_nil, rfl⟩

theorem ofSizing_settled {sizing : Sizing} {memory : Memory} (h : ofSizing sizing memory = .ok c) :
    c.Settled [] := by
  have htracked : c.tracked = ∅ := by
    unfold ofSizing at h
    cases hengine : Engine.new sizing memory with
    | error e =>
      rw [hengine] at h
      cases h
    | ok engine =>
      rw [hengine] at h
      have h : (new engine).mapError Failure.error = .ok c := h
      unfold new at h
      split at h
      · cases h
      · cases h
        rfl
  have hlisted : ∀ file block, block ∉ c.listed file := by
    intro file block hblock
    obtain ⟨blocks, hblocks, _⟩ := mem_listed.mp hblock
    rw [htracked] at hblocks
    exact Maps.getElem?_empty_ne file blocks hblocks
  have hnames : ∀ (a : String) (file : Nat), c.names[a]? ≠ some file := by
    intro a file
    rw [(ofSizing_fresh h).2.1]
    exact Maps.getElem?_empty_ne a file
  exact ⟨fun file block hblock => absurd hblock (hlisted file block),
    fun a file ha => absurd ha (hnames a file), fun a file ha => absurd ha (hnames a file)⟩

theorem mapped_updates (names : List String) (edit : String → Step)
    (hedit : ∀ a, ∃ block offset data, edit a = .update a block offset data) :
    mapped (names.map edit) = names.toFinset := by
  have hfold : ∀ start : Finset String,
      (names.map edit).foldl Step.remap start = start ∪ names.toFinset := by
    induction names with
    | nil => simp
    | cons a names ih =>
      intro start
      obtain ⟨block, offset, data, ha⟩ := hedit a
      rw [List.map_cons, List.foldl_cons, ha, ih, List.toFinset_cons, Step.remap,
        Finset.insert_union, Finset.union_insert]
  rw [mapped, hfold, Finset.empty_union]

-- From a fresh cache, for every run of calls within the size contract: a name has a cached block or
-- has lost all of its blocks to others, and if none was ever pushed out the cache bounds the table.
-- But the calls alone say which names there are, so that updates of ever new names make it as long
-- as they are many.
theorem bounded_after {sizing : Sizing} {memory : Memory} (h : ofSizing sizing memory = .ok c)
    (t : Tally) :
    let start : Metered FileCache := ⟨c, t⟩
    let fresh : BlockMap := { capacity := c.engine.capacity, blockSize := c.engine.blockSize }
    (∀ steps, (∀ s ∈ steps, fresh.Fits s) →
      let c' := (after start steps).part
      let gone := pushedOut start steps
      c'.Bounded gone ∧
      (gone = [] → (∀ (a : String) (file : Nat), c'.names[a]? = some file →
        ∃ key ∈ c'.engine.keys, key.file = file) ∧ c'.nameCount ≤ c'.size) ∧
      (∀ a : String, (∃ file, c'.names[a]? = some file) ↔ a ∈ mapped steps) ∧
      c'.nameCount = (mapped steps).card) ∧
    ∀ names : List String, names.Nodup →
      (after start (names.map (.update · 0 0 ⟨#[1]⟩))).part.nameCount = names.length := by
  intro start fresh
  have hfresh : Mirrors start.part fresh := by
    obtain ⟨capacity, _, hmirrors⟩ := ofSizing_mirrors h
    have hcapacity : c.engine.capacity = capacity := hmirrors.capacity
    have hblockSize : c.engine.blockSize = sizing.blockSize := hmirrors.blockSize
    rw [← hcapacity, ← hblockSize] at hmirrors
    exact hmirrors
  have hnames : ∀ steps, (BlockMap.after fresh steps).names = mapped steps := names_after fresh
  refine ⟨fun steps hfits => ?_, fun names hnodup => ?_⟩
  · intro c' gone
    have hm : Mirrors c' (BlockMap.after fresh steps) := hfresh.after (m := start) steps
    have hbounded : c'.Bounded gone :=
      ((ofSizing_settled h).after (m := start) hfresh hfits).bounded hm.tidy.sound
    refine ⟨hbounded, fun hnone => (hnone ▸ hbounded).lodged_of_none, fun a => ?_, ?_⟩
    · rw [← hnames, hm.names, Option.ne_none_iff_exists']
    · rw [← hnames]
      exact hm.nameCount_eq
  · rw [(hfresh.after (m := start) _).nameCount_eq, hnames,
      mapped_updates names _ fun a => ⟨0, 0, _, rfl⟩, List.toFinset_card_of_nodup hnodup]

-- Room for two blocks. The first name loses its block to the third, which then replaces it.
theorem bounded_after_replaced : ∃ c, ofSizing (.ofLayout 1 3 8192) = .ok c ∧
    let start : Metered FileCache := ⟨c, {}⟩
    let steps : List Step := [.update "a" 0 0 ⟨#[1]⟩, .update "b" 0 0 ⟨#[2]⟩, .fetch "a" 0 0 1,
      .update "c" 7 0 ⟨#[3]⟩, .update "c" 8 0 ⟨#[4]⟩, .rename "c" "a"]
    let c' := (after start steps).part
    pushedOut start steps = [⟨1, 0⟩, ⟨0, 0⟩] ∧ c'.names.toList = [("a", 2), ("b", 1)] ∧
      c'.size = 2 ∧ c'.nameCount = (mapped steps).card ∧ c'.Bounded [⟨1, 0⟩, ⟨0, 0⟩] := by
  refine ⟨_, rfl, ?_⟩
  intro start steps c'
  have hgone : pushedOut start steps = [⟨1, 0⟩, ⟨0, 0⟩] := by decide +kernel
  obtain ⟨hbounded, _, _, hcount⟩ :=
    (bounded_after (show ofSizing (.ofLayout 1 3 8192) = _ from rfl) {}).1 steps (by decide +kernel)
  exact ⟨hgone, by decide +kernel, by decide +kernel, hcount, hgone ▸ hbounded⟩

-- A name without a block: with room for one block, the second update pushes out all that the first
-- name has, and the table has more names than the cache has blocks.
theorem deserted_after_update : ∃ c, ofSizing (.ofLayout 1 2 8192) = .ok c ∧
    let steps : List Step := [.update "a" 0 0 ⟨#[1]⟩, .update "b" 0 0 ⟨#[2]⟩]
    let c' := (after ⟨c, {}⟩ steps).part
    (∀ s ∈ steps, BlockMap.Fits { capacity := c.engine.capacity, blockSize := 8192 } s) ∧
      c'.names["a"]? = some 0 ∧ (∀ key ∈ c'.engine.keys, key.file ≠ 0) ∧
      c'.nameCount = 2 ∧ c'.size = 1 ∧ c'.engine.capacity = 1 :=
  ⟨_, rfl, by decide +kernel, by decide +kernel, by decide +kernel, by decide +kernel,
    by decide +kernel, by decide +kernel⟩

end FileCache

end Blockwise
