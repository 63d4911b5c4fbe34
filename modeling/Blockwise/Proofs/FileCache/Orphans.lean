import Blockwise.Proofs.FileCache
import Blockwise.Proofs.Engine.Ownership

namespace Blockwise

namespace FileCache

open Act

variable {c c' : FileCache} {m m' : Metered FileCache} {name : String} {file block offset : Nat}
  {data : Bytes} {blocks : List Nat}

theorem mem_listed : block ∈ c.listed file ↔
    ∃ blocks, c.tracked[file]? = some blocks ∧ block ∈ blocks := by
  rw [listed, Std.TreeSet.mem_toList]
  cases c.tracked[file]? with
  | none => simp
  | some blocks => simp

theorem mem_listed_tracking (c : FileCache) (file block file' block' : Nat) :
    block' ∈ (c.tracking file block).listed file' ↔
      (file' = file ∧ block' = block) ∨ block' ∈ c.listed file' := by
  rw [listed, tracking, Maps.getElem?_insert]
  by_cases hfile : file = file'
  · subst hfile
    rw [if_pos rfl, Option.getD_some, Std.TreeSet.mem_toList, Std.TreeSet.mem_insert, listed,
      Std.TreeSet.mem_toList, Std.LawfulEqCmp.compare_eq_iff_eq]
    simp only [true_and, eq_comm]
  · rw [if_neg hfile, listed]
    simp [Ne.symm hfile]

structure Tidy (c : FileCache) : Prop where
  sound : c.Sound
  named : ∀ key ∈ c.engine.keys, ∃ a : String, c.names[a]? = some key.file
  listed : ∀ key ∈ c.engine.keys, key.block ∈ c.listed key.file

theorem Tidy.numbered (h : c.Tidy) (hnumbered : Numbered name file c c') : c'.Tidy := by
  refine ⟨hnumbered.sound, ?_, ?_⟩
  · intro key hkey
    rw [hnumbered.engine] at hkey
    obtain ⟨a, ha⟩ := h.named key hkey
    refine ⟨a, ?_⟩
    rw [hnumbered.names]
    split
    · next heq =>
      subst heq
      rw [hnumbered.kept _ ha]
    · exact ha
  · intro key hkey
    rw [hnumbered.engine] at hkey
    rw [FileCache.listed, hnumbered.tracked]
    exact h.listed key hkey

-- The one block that comes in belongs to the name of the update, and is listed at once.
theorem Tidy.filed (h : m.part.Tidy) (hfiled : Filed name file block offset data m m') :
    m'.part.Tidy := by
  have hsound := hfiled.shown.1
  obtain ⟨⟨c, hnumbered, hpart⟩, _, hstored⟩ := hfiled
  have htidy := h.numbered hnumbered
  have hkeys : ∀ key ∈ m'.part.engine.keys, key = ⟨file, block⟩ ∨ key ∈ c.engine.keys := by
    intro key hkey
    rw [hstored.keys] at hkey
    have hmem := List.mem_of_mem_take hkey
    rw [List.mem_cons, List.mem_filter] at hmem
    rw [hnumbered.engine]
    exact hmem.imp id And.left
  have hnames : m'.part.names = c.names := by rw [hpart]; rfl
  have hlisted : ∀ key : BlockKey, key = ⟨file, block⟩ ∨ key.block ∈ c.listed key.file →
      key.block ∈ m'.part.listed key.file := by
    intro key hkey
    rw [hpart]
    refine (mem_listed_tracking _ file block key.file key.block).mpr (hkey.imp ?_ id)
    rintro rfl
    exact ⟨rfl, rfl⟩
  refine ⟨hsound, ?_, ?_⟩
  · intro key hkey
    rw [hnames]
    rcases hkeys key hkey with rfl | hold
    · exact ⟨name, hnumbered.named⟩
    · exact htidy.named key hold
  · intro key hkey
    exact hlisted key ((hkeys key hkey).imp id (htidy.listed key))

theorem Tidy.found (h : c.Tidy) (hfound : Found name block c c') : c'.Tidy := by
  have hsound := (hfound.shown h.sound).1
  obtain ⟨file, n, e, hname, hmoved, rfl, hmem⟩ := hfound
  have hkeys : ∀ key ∈ e.keys, key ∈ c.engine.keys := by
    intro key hkey
    rw [hmoved.keys, List.mem_cons, List.mem_filter] at hkey
    rcases hkey with rfl | ⟨hold, _⟩
    · exact hmem
    · exact hold
  exact ⟨hsound, fun key hkey => h.named key (hkeys key hkey),
    fun key hkey => h.listed key (hkeys key hkey)⟩

-- All blocks of a number are listed, so once they are dropped nothing needs its name any more.
theorem Dropped.keys_eq (h : Dropped file (c.listed file) c c')
    (hlisted : ∀ key ∈ c.engine.keys, key.block ∈ c.listed key.file) :
    c'.engine.keys = c.engine.keys.filter (·.file ≠ file) := by
  rw [h.keys]
  refine List.filter_congr fun key hkey => ?_
  have hin := hlisted key hkey
  grind

theorem Dropped.tidy (h : Dropped file (c.listed file) c c')
    (hnamed : ∀ key ∈ c.engine.keys, key.file ≠ file → ∃ a : String, c.names[a]? = some key.file)
    (hlisted : ∀ key ∈ c.engine.keys, key.block ∈ c.listed key.file) : c'.Tidy := by
  have hkeys : ∀ key ∈ c'.engine.keys, key ∈ c.engine.keys ∧ key.file ≠ file := by
    intro key hkey
    rw [h.keys_eq hlisted, List.mem_filter, decide_eq_true_eq] at hkey
    exact hkey
  refine ⟨h.sound, ?_, ?_⟩
  · intro key hkey
    obtain ⟨hold, hne⟩ := hkeys key hkey
    rw [h.names]
    exact hnamed key hold hne
  · intro key hkey
    obtain ⟨hold, hne⟩ := hkeys key hkey
    rw [FileCache.listed, h.tracked _ hne]
    exact hlisted key hold

theorem Tidy.named_unnamed (h : c.Tidy) (hname : c.names[name]? = some file) {key : BlockKey}
    (hkey : key ∈ c.engine.keys) (hne : key.file ≠ file) :
    ∃ a : String, (c.unnamed name).names[a]? = some key.file := by
  obtain ⟨a, ha⟩ := h.named key hkey
  have hother : name ≠ a := by
    rintro rfl
    exact hne (Option.some.inj (ha.symm.trans hname))
  exact ⟨a, by rw [names_unnamed, if_neg hother, ha]⟩

theorem Tidy.delete_ends (h : m.part.Tidy) (name : String) :
    Ends (delete name) m (fun _ m' => m'.part.Tidy) (fun _ _ => False) := by
  refine (delete_dropped h.sound name).imp ?_ fun _ _ => id
  intro _ m' hdone
  split at hdone
  · exact hdone ▸ h
  · next file hname =>
    exact Dropped.tidy (c := m.part.unnamed name) hdone
      (fun key hkey hne => h.named_unnamed hname hkey hne) h.listed

-- A block keeps its name or moves along with it, unless its name is replaced.
theorem Tidy.named_renamed (h : c.Tidy) {source dest : String} (hsource : c.names[source]? = some file)
    {key : BlockKey} (hkey : key ∈ c.engine.keys)
    (hkept : (c.names.erase source)[dest]? ≠ some key.file) :
    ∃ a : String, (c.renamed source dest file).names[a]? = some key.file := by
  obtain ⟨a, ha⟩ := h.named key hkey
  by_cases hsame : source = a
  · subst hsame
    rw [hsource] at ha
    exact ⟨dest, by rw [names_renamed, if_pos rfl, ha]⟩
  · refine ⟨a, ?_⟩
    have hother : dest ≠ a := by
      rintro rfl
      rw [Maps.getElem?_erase, if_neg hsame] at hkept
      exact hkept ha
    rw [names_renamed, if_neg hother, if_neg hsame, ha]

theorem Tidy.rename_ends (h : m.part.Tidy) (source dest : String) :
    Ends (rename source dest) m (fun _ m' => m'.part.Tidy) (fun _ _ => False) := by
  refine (rename_dropped h.sound source dest).imp ?_ fun _ _ => id
  intro _ m' hdone
  split at hdone
  · exact hdone ▸ h
  · next file hsource =>
    split at hdone
    · next hfree =>
      subst hdone
      refine ⟨h.sound.renamed hsource dest, fun key hkey => ?_, h.listed⟩
      exact h.named_renamed hsource hkey (by rw [hfree]; exact (Option.some_ne_none _).symm)
    · next old hreplaced =>
      refine Dropped.tidy (c := m.part.renamed source dest file) hdone (fun key hkey hne => ?_) h.listed
      refine h.named_renamed hsource hkey ?_
      rw [hreplaced]
      exact fun heq => hne (Option.some.inj heq).symm

theorem Tidy.step_ends (h : m.part.Tidy) (s : Step) :
    Ends (step s) m (fun _ m' => m'.part.Tidy) (fun _ m' => m'.part.Tidy) := by
  cases s with
  | update name block offset data =>
    simp only [step, ends_bind, ends_pure]
    refine (update_filed h.sound name block offset data).imp ?_ ?_
    · intro _ m' hdone
      obtain ⟨file, hfiled⟩ := hdone
      exact h.filed hfiled
    · intro _ m' hfailed
      obtain ⟨_, file, hnumbered⟩ := hfailed
      exact h.numbered hnumbered
  | fetch name block offset len =>
    rw [step, ends_map]
    refine (fetch_found h.sound name block offset len).imp ?_ fun _ _ hfailed => hfailed.1 ▸ h
    intro found m' hdone
    rcases hdone with ⟨hfound, _⟩ | ⟨_, hsame, _⟩
    · exact h.found hfound
    · exact hsame ▸ h
  | delete name =>
    simp only [step, ends_bind, ends_pure]
    exact (h.delete_ends name).imp (fun _ _ => id) fun _ _ => False.elim
  | rename source dest =>
    simp only [step, ends_bind, ends_pure]
    exact (h.rename_ends source dest).imp (fun _ _ => id) fun _ _ => False.elim

-- The state that a call leaves, whether or not it fails.
def afterStep (m : Metered FileCache) (s : Step) : Metered FileCache := (outcome (step s) m).2

def after (m : Metered FileCache) (steps : List Step) : Metered FileCache := steps.foldl afterStep m

theorem Tidy.after (h : m.part.Tidy) (steps : List Step) : (after m steps).part.Tidy := by
  induction steps generalizing m with
  | nil => exact h
  | cons s steps ih => exact ih (h.step_ends s).outcome

-- A fresh cache has neither names nor blocks.
theorem ofSizing_fresh {sizing : Sizing} {memory : Memory} (h : ofSizing sizing memory = .ok c) :
    c.engine.keys = [] ∧ c.names = ∅ ∧ sizing.capacity = .ok c.engine.capacity ∧
      c.engine.blockSize = sizing.blockSize := by
  unfold ofSizing at h
  cases hengine : Engine.new sizing memory with
  | error e =>
    rw [hengine] at h
    cases h
  | ok engine =>
    rw [hengine] at h
    have h : (new engine).mapError Failure.error = .ok c := h
    unfold new at h
    split at h
    · cases h
    · cases h
      obtain ⟨_, hkeys, _, hsize, _, _, hcapacity⟩ := Engine.new_sound hengine
      exact ⟨hkeys, rfl, hcapacity, hsize⟩

theorem ofSizing_tidy {sizing : Sizing} {memory : Memory} (h : ofSizing sizing memory = .ok c) :
    c.Tidy := by
  have hempty := (ofSizing_fresh h).1
  refine ⟨(ofSizing_sound h).1, ?_, ?_⟩
  all_goals
    intro key hkey
    rw [hempty] at hkey
    exact absurd hkey List.not_mem_nil

-- How many blocks of a name are cached.
def resident (c : FileCache) (name : String) : Nat :=
  c.engine.keys.countP fun key => c.names[name]? = some key.file

theorem Sound.taken_eq (hs : c.Sound) :
    c.size = c.engine.keys.length ∧ c.engine.blocksTaken = c.engine.keys.length := by
  have hlen : c.size = c.engine.keys.length := by
    rw [Engine.keys, Recency.keys, List.length_map]
    rfl
  exact ⟨hlen, hs.engine.total.2.trans hlen⟩

theorem Tidy.delete_counts (h : m.part.Tidy) (name : String) :
    Ends (delete name) m
      (fun _ m' => m'.part.engine.keys.length + m.part.resident name = m.part.engine.keys.length)
      (fun _ _ => False) := by
  refine (delete_dropped h.sound name).imp ?_ fun _ _ => id
  intro _ m' hdone
  split at hdone
  · next hname =>
    subst hdone
    simp [resident, hname]
  · next file hname =>
    have hkeys := Dropped.keys_eq (c := m.part.unnamed name) hdone h.listed
    have hresident : m.part.resident name = m.part.engine.keys.countP (·.file = file) := by
      refine List.countP_congr fun key _ => ?_
      rw [hname]
      simp [eq_comm]
    have hsplit := List.length_eq_countP_add_countP (·.file = file) (l := m.part.engine.keys)
    rw [hkeys, hresident, ← List.countP_eq_length_filter]
    simp only [FileCache.unnamed, ne_eq, decide_not, decide_eq_true_eq] at hsplit ⊢
    omega

theorem names_afterDelete (h : m.part.Tidy) (name a : String) :
    (afterStep m (.delete name)).part.names[a]? = if name = a then none else m.part.names[a]? := by
  have hends : Ends (step (.delete name)) m
      (fun _ m' => m'.part.names[a]? = if name = a then none else m.part.names[a]?)
      (fun _ m' => m'.part.names[a]? = if name = a then none else m.part.names[a]?) := by
    simp only [step, ends_bind, ends_pure]
    refine (delete_dropped h.sound name).imp ?_ fun _ _ => False.elim
    intro _ m' hdone
    split at hdone
    · next hname =>
      subst hdone
      split
      · next heq => rw [← heq, hname]
      · rfl
    · next file hname => rw [hdone.names, names_unnamed]
  exact hends.outcome

theorem names_after_deletes (h : m.part.Tidy) (names : List String) (a : String) :
    (after m (names.map .delete)).part.names[a]? = if a ∈ names then none else m.part.names[a]? := by
  induction names generalizing m with
  | nil => simp [after]
  | cons name names ih =>
    have hnext : (afterStep m (.delete name)).part.Tidy := (h.step_ends (.delete name)).outcome
    have hrest : (after (afterStep m (.delete name)) (names.map .delete)).part.names[a]? = _ :=
      ih hnext
    rw [names_afterDelete h] at hrest
    rw [List.map_cons, after, List.foldl_cons]
    refine hrest.trans ?_
    grind

-- Once no name is left, nothing is.
theorem Tidy.empty_of_unnamed (h : c.Tidy) (hnone : ∀ a : String, c.names[a]? = none) :
    c.engine.keys = [] := by
  refine List.eq_nil_iff_forall_not_mem.mpr fun key hkey => ?_
  obtain ⟨a, ha⟩ := h.named key hkey
  rw [hnone a] at ha
  cases ha

-- The books of a cache: names, numbers, lists of blocks and the engine all tell the same.
structure NoOrphans (m : Metered FileCache) : Prop where
  names_inj : ∀ (a b : String) (file : Nat), m.part.names[a]? = some file →
    m.part.names[b]? = some file → a = b
  names_lt : ∀ (a : String) (file : Nat), m.part.names[a]? = some file → file < m.part.nextFile
  owned : ∀ key ∈ m.part.engine.keys, (∃ a : String, m.part.names[a]? = some key.file) ∧
    ∃ blocks, m.part.tracked[key.file]? = some blocks ∧ key.block ∈ blocks
  freed : ∀ name, Ends (delete name) m
    (fun _ m' => m'.part.size + m.part.resident name = m.part.size ∧
      m'.part.engine.blocksTaken + m.part.resident name = m.part.engine.blocksTaken)
    (fun _ _ => False)
  emptied : ∀ names : List String, (∀ (a : String) (file : Nat), m.part.names[a]? = some file →
      a ∈ names) →
    let c' := (after m (names.map .delete)).part
    c'.size = 0 ∧ c'.engine.keys = [] ∧ c'.engine.blocksTaken = 0 ∧
      ∀ t ∈ c'.engine.slots, ∀ block, t.bit block = false

theorem Tidy.noOrphans (h : m.part.Tidy) : NoOrphans m := by
  refine ⟨h.sound.names_inj, h.sound.names_lt, ?_, ?_, ?_⟩
  · intro key hkey
    exact ⟨h.named key hkey, mem_listed.mp (h.listed key hkey)⟩
  · intro name
    refine ((h.delete_ends name).and (h.delete_counts name)).imp ?_ fun _ _ hfailed => hfailed.1
    intro _ m' hdone
    obtain ⟨htidy, hcounts⟩ := hdone
    rw [htidy.sound.taken_eq.1, htidy.sound.taken_eq.2, h.sound.taken_eq.1, h.sound.taken_eq.2]
    exact ⟨hcounts, hcounts⟩
  · intro names hcover c'
    have htidy : c'.Tidy := h.after _
    have hkeys : c'.engine.keys = [] := by
      refine htidy.empty_of_unnamed fun a => (names_after_deletes h names a).trans ?_
      cases hname : m.part.names[a]? with
      | none => split <;> rfl
      | some file => rw [if_pos (hcover a file hname)]
    obtain ⟨hsize, htaken⟩ := htidy.sound.taken_eq
    rw [hkeys] at hsize htaken
    refine ⟨hsize, hkeys, htaken, fun t ht block => ?_⟩
    obtain ⟨bank, hbank⟩ := List.mem_iff_getElem?.mp ht
    refine Bool.eq_false_iff.mpr fun hbit => ?_
    obtain ⟨key, n, hpeek, _⟩ := htidy.sound.engine.covered hbank hbit
    have hmem : key ∈ c'.engine.keys := Recency.mem_keys_iff.mpr ⟨n, hpeek⟩
    rw [hkeys] at hmem
    exact absurd hmem List.not_mem_nil

-- From a fresh cache, whatever calls are made and whichever of them fail: every block of the engine
-- belongs to a name and is listed under its number, so that a delete finds all blocks of a name.
theorem noOrphans_after {sizing : Sizing} {memory : Memory} (h : ofSizing sizing memory = .ok c)
    (steps : List Step) : NoOrphans (after ⟨c, {}⟩ steps) :=
  ((ofSizing_tidy h).after (m := ⟨c, {}⟩) steps).noOrphans

-- Room for three blocks. One block of the first name is evicted, a refused update gives a new name
-- its number, and the second name is replaced by the first.
theorem noOrphans_after_replacement : ∃ c, ofSizing (.ofLayout 1 4 8192) = .ok c ∧
    let steps : List Step := [.update "a" 0 0 ⟨#[1]⟩, .update "a" 7 8 ⟨#[2]⟩,
      .update "b" 0 0 ⟨#[3]⟩, .update "b" 1 0 ⟨#[4]⟩, .update "c" 0 8192 ⟨#[5]⟩,
      .fetch "a" 7 8 1, .rename "a" "b"]
    (after ⟨c, {}⟩ steps).part.engine.keys = [⟨0, 7⟩] ∧
    (after ⟨c, {}⟩ steps).part.names.toList = [("b", 0), ("c", 2)] ∧
    NoOrphans (after ⟨c, {}⟩ steps) :=
  ⟨_, rfl, by decide +kernel, by decide +kernel,
    noOrphans_after (show ofSizing (.ofLayout 1 4 8192) = _ from rfl) _⟩

end FileCache

end Blockwise
