import Blockwise.Proofs.FileCache.Orphans

namespace Blockwise

namespace FileCache

open Act

variable {c c' : FileCache} {m m' : Metered FileCache} {name : String}

-- The name has no part in the call.
def Step.Avoids (name : String) : Step → Prop
  | .update other _ _ _ | .fetch other _ _ _ | .delete other => other ≠ name
  | .rename source dest => source ≠ name ∧ dest ≠ name

-- Of the bytes of a block of the grid, none is seen that was not seen before.
def ShowsLess (name : String) (c c' : FileCache) : Prop :=
  ∀ block i, i < Grid.blockSize → ∀ x, c'.byteAt name block i = some x →
    c.byteAt name block i = some x

theorem showsLess_of_byteAt (h : c'.byteAt name = c.byteAt name) : ShowsLess name c c' := by
  intro block i _ x hx
  rwa [h] at hx

theorem update_showsLess (hs : m.part.Sound) (other : String) (block offset : Nat) (data : Bytes) :
    Ends (update other block offset data) m
      (fun _ m' => m'.part.Sound ∧ ∀ name, other ≠ name → ShowsLess name m.part m'.part)
      (fun _ m' => m'.part.Sound ∧ ∀ name, other ≠ name → ShowsLess name m.part m'.part) := by
  refine (update_ends hs other block offset data).imp ?_ ?_
  · intro _ m' hdone
    obtain ⟨hsound, _, hupdated⟩ := hdone
    refine ⟨hsound, fun name hne block' i hi x hx => ?_⟩
    have hkept := hupdated.kept name block' i hi (fun hpart => hne hpart.1.symm) x hx
    exact hkept.resolve_right fun hpart => hne hpart.1.symm
  · intro _ m' hfailed
    obtain ⟨hsound, _, hbytes⟩ := hfailed
    exact ⟨hsound, fun name _ => showsLess_of_byteAt (congrFun hbytes name)⟩

theorem Filed.names_other {file block offset : Nat} {data : Bytes}
    (h : Filed name file block offset data m m') {other : String} (hne : other ≠ name) :
    m'.part.names[other]? = m.part.names[other]? := by
  obtain ⟨⟨c, hnumbered, hpart⟩, _⟩ := h
  have hnames : m'.part.names = c.names := by rw [hpart]; rfl
  rw [hnames, hnumbered.names, if_neg hne.symm]

-- As long as there is room, an update evicts nothing.
theorem Filed.byteAt_other (hs : m.part.Sound) {file block offset : Nat} {data : Bytes}
    (h : Filed name file block offset data m m') (hroom : m.part.size < m.part.engine.capacity)
    {other : String} (hne : other ≠ name) {block' i : Nat} (hi : i < Grid.blockSize) :
    m'.part.byteAt other block' i = m.part.byteAt other block' i := by
  have hnames := h.names_other hne
  obtain ⟨⟨c, hnumbered, _⟩, _, hstored⟩ := h
  rw [byteAt, byteAt, hnames]
  cases hother : m.part.names[other]? with
  | none => rfl
  | some file' =>
    have hfile : c.names[other]? = some file' := by
      rw [hnumbered.names, if_neg hne.symm, hother]
    have hkey : (⟨file', block'⟩ : BlockKey) ≠ ⟨file, block⟩ := fun heq =>
      hne ((hnumbered.sound.key_eq hnumbered.named hfile block block').mp heq).1
    have hall : m'.part.engine.keys =
        ⟨file, block⟩ :: m.part.engine.keys.filter (· ≠ ⟨file, block⟩) := by
      refine hstored.keys.trans (List.take_of_length_le ?_)
      have hlen := List.length_filter_le (· ≠ (⟨file, block⟩ : BlockKey)) m.part.engine.keys
      rw [hs.taken_eq.1] at hroom
      exact Nat.lt_of_le_of_lt hlen hroom
    have hmem : (⟨file', block'⟩ : BlockKey) ∈ m'.part.engine.keys ↔
        (⟨file', block'⟩ : BlockKey) ∈ m.part.engine.keys := by
      rw [hall, List.mem_cons, List.mem_filter, decide_eq_true_eq]
      exact ⟨fun hin => (hin.resolve_left hkey).1, fun hin => .inr ⟨hin, hkey⟩⟩
    rw [Option.bind_some, Option.bind_some]
    by_cases hin : (⟨file', block'⟩ : BlockKey) ∈ m.part.engine.keys
    · have hblock : i < m.part.engine.arena.blockSize := Nat.lt_of_lt_of_le hi hs.gridded
      exact hstored.kept _ (hmem.mpr hin) i hblock hin fun hpart => hkey hpart.1
    · rw [Engine.byteAt, Engine.byteAt, Recency.peek_eq_none_iff.mpr hin,
        Recency.peek_eq_none_iff.mpr fun hin' => hin (hmem.mp hin'), Option.map_none, Option.map_none]

theorem rename_showsLess (hs : m.part.Sound) (source dest : String) :
    Ends (rename source dest) m
      (fun _ m' => m'.part.Sound ∧
        ∀ name, source ≠ name → dest ≠ name → ShowsLess name m.part m'.part)
      (fun _ _ => False) := by
  refine (rename_ends hs source dest).imp ?_ fun _ _ => id
  intro _ m' hdone
  split at hdone
  · exact ⟨hdone.sound, fun name hsource hdest =>
      showsLess_of_byteAt (hdone.other name hsource.symm hdest.symm)⟩
  · subst hdone
    exact ⟨hs, fun _ _ _ => showsLess_of_byteAt rfl⟩

theorem step_showsLess (hs : m.part.Sound) (s : Step) :
    Ends (step s) m
      (fun _ m' => m'.part.Sound ∧ ∀ name, s.Avoids name → ShowsLess name m.part m'.part)
      (fun _ m' => m'.part.Sound ∧ ∀ name, s.Avoids name → ShowsLess name m.part m'.part) := by
  cases s with
  | update other block offset data =>
    simp only [step, ends_bind, ends_pure]
    exact update_showsLess hs other block offset data
  | fetch other block offset len =>
    rw [step, ends_map]
    exact (fetch_ends hs other block offset len).imp
      (fun _ _ hdone => ⟨hdone.1, fun name _ => showsLess_of_byteAt (congrFun hdone.2.1 name)⟩)
      fun _ _ hfailed => ⟨hfailed.1, fun name _ => showsLess_of_byteAt (congrFun hfailed.2.1 name)⟩
  | delete other =>
    simp only [step, ends_bind, ends_pure]
    exact (delete_ends hs other).imp
      (fun _ _ hdone => ⟨hdone.1, fun name hne => showsLess_of_byteAt (hdone.2.2 name hne.symm)⟩)
      fun _ _ => False.elim
  | rename source dest =>
    simp only [step, ends_bind, ends_pure]
    exact (rename_showsLess hs source dest).imp
      (fun _ _ hdone => ⟨hdone.1, fun name havoids => hdone.2 name havoids.1 havoids.2⟩)
      fun _ _ => False.elim

theorem afterStep_showsLess (hs : m.part.Sound) (s : Step) :
    (afterStep m s).part.Sound ∧
      ∀ name, s.Avoids name → ShowsLess name m.part (afterStep m s).part :=
  (step_showsLess hs s).outcome

-- The number is given out, and to no other name.
structure Reserved (name : String) (file : Nat) (c : FileCache) : Prop where
  file_lt : file < c.nextFile
  names : ∀ a : String, c.names[a]? = some file → a = name

theorem Sound.reserved (hs : c.Sound) {file : Nat} (hname : c.names[name]? = some file) :
    c.Reserved name file :=
  ⟨hs.names_lt name file hname, fun a ha => hs.names_inj a name file ha hname⟩

theorem Reserved.of_names {file : Nat} (h : c.Reserved name file) (hnext : c'.nextFile = c.nextFile)
    (hnames : ∀ a : String, c'.names[a]? = some file → c.names[a]? = some file) :
    c'.Reserved name file :=
  ⟨hnext ▸ h.file_lt, fun a ha => h.names a (hnames a ha)⟩

-- A name without a number gets one that was never given out.
theorem fileOf_reserved {file : Nat} (h : m.part.Reserved name file) (other : String) :
    Ends (fileOf other) m (fun _ m' => m'.part.Reserved name file)
      (fun _ m' => m'.part.Reserved name file) := by
  cases hother : m.part.names[other]? with
  | some file' =>
    simp only [fileOf, ends_bind, ends_get, hother, ends_pure]
    exact h
  | none =>
    simp only [fileOf, ends_bind, ends_get, hother, ends_modifyFiles, ends_pure]
    refine ⟨Nat.lt_succ_of_lt h.file_lt, fun a ha => ?_⟩
    replace ha : (m.part.names.insert other m.part.nextFile)[a]? = some file := ha
    rw [Maps.getElem?_insert] at ha
    split at ha
    · exact absurd (Option.some.inj ha) (Nat.ne_of_gt h.file_lt)
    · exact h.names a ha

theorem update_reserved {file : Nat} (h : m.part.Reserved name file) (other : String)
    (block offset : Nat) (data : Bytes) :
    Ends (update other block offset data) m (fun _ m' => m'.part.Reserved name file)
      (fun _ m' => m'.part.Reserved name file) := by
  simp only [update, ends_bind]
  refine (fileOf_reserved h other).imp ?_ fun _ _ => id
  intro file' m₁ h₁
  rw [ends_onEngine]
  refine .always (fun stored e => ?_) fun _ e => ⟨h₁.file_lt, h₁.names⟩
  cases stored with
  | true => exact ⟨h₁.file_lt, h₁.names⟩
  | false => exact ⟨h₁.file_lt, h₁.names⟩

theorem Dropped.reserved {file file' : Nat} {blocks : List Nat} (h : c.Reserved name file)
    (hdropped : Dropped file' blocks c c') : c'.Reserved name file :=
  h.of_names hdropped.nextFile fun _ ha => hdropped.names ▸ ha

theorem delete_reserved (hs : m.part.Sound) (other : String) :
    Ends (delete other) m
      (fun _ m' => ∀ name file, m.part.Reserved name file → m'.part.Reserved name file)
      (fun _ _ => False) := by
  refine (delete_dropped hs other).imp ?_ fun _ _ => id
  intro _ m' hdone name file h
  split at hdone
  · exact hdone ▸ h
  · refine Dropped.reserved (c := m.part.unnamed other) (h.of_names rfl fun a ha => ?_) hdone
    rw [names_unnamed] at ha
    split at ha
    · cases ha
    · exact ha

-- The one call that hands a number on to another name is a rename of its name.
theorem rename_reserved (hs : m.part.Sound) {file : Nat} (h : m.part.Reserved name file)
    {source : String} (hsource : source ≠ name) (dest : String) :
    Ends (rename source dest) m (fun _ m' => m'.part.Reserved name file) (fun _ _ => False) := by
  refine (rename_dropped hs source dest).imp ?_ fun _ _ => id
  intro _ m' hdone
  split at hdone
  · exact hdone ▸ h
  · next moved hmoved =>
    have hrenamed : (m.part.renamed source dest moved).Reserved name file := by
      refine h.of_names rfl fun a ha => ?_
      rw [names_renamed] at ha
      split at ha
      · exact absurd (h.names source (hmoved.trans ha)) hsource
      · split at ha
        · cases ha
        · exact ha
    split at hdone
    · exact hdone ▸ hrenamed
    · exact Dropped.reserved hrenamed hdone

theorem afterStep_reserved (hs : m.part.Sound) {s : Step} (hs' : ∀ dest, s ≠ .rename name dest)
    {file : Nat} (h : m.part.Reserved name file) : (afterStep m s).part.Reserved name file := by
  have hends : Ends (step s) m (fun _ m' => m'.part.Reserved name file)
      (fun _ m' => m'.part.Reserved name file) := by
    cases s with
    | update other block offset data =>
      simp only [step, ends_bind, ends_pure]
      exact update_reserved h other block offset data
    | fetch other block offset len =>
      rw [step, ends_map]
      refine (fetch_found hs other block offset len).imp ?_ fun _ _ hfailed => hfailed.1 ▸ h
      intro _ m' hdone
      rcases hdone with ⟨⟨_, _, e, _, _, hpart, _⟩, _⟩ | ⟨_, hsame, _⟩
      · exact hpart ▸ h.of_names rfl fun _ ha => ha
      · exact hsame ▸ h
    | delete other =>
      simp only [step, ends_bind, ends_pure]
      exact (delete_reserved hs other).imp (fun _ _ hkept => hkept name file h) fun _ _ => False.elim
    | rename source dest =>
      have hsource : source ≠ name := by
        rintro rfl
        exact hs' dest rfl
      simp only [step, ends_bind, ends_pure]
      exact (rename_reserved hs h hsource dest).imp (fun _ _ => id) fun _ _ => False.elim
  exact hends.outcome

-- A number that only this name may have has no blocks once the name is gone.
theorem Tidy.not_mem_of_reserved (ht : c.Tidy) {file : Nat} (h : c.Reserved name file)
    (hgone : c.names[name]? = none) : ∀ key ∈ c.engine.keys, key.file ≠ file := by
  intro key hkey hfile
  obtain ⟨a, ha⟩ := ht.named key hkey
  have hname := h.names a (hfile ▸ ha)
  rw [← hname, ha] at hgone
  cases hgone

-- The other names as they were, with no block that they did not have. All of their blocks are there if
-- there was room.
structure Spared (name : String) (room : Prop) (c c' : FileCache) : Prop where
  names : ∀ other ≠ name, c'.names[other]? = c.names[other]?
  less : ∀ other ≠ name, ShowsLess other c c'
  bytes : room → ∀ other ≠ name, ∀ block i, i < Grid.blockSize →
    c'.byteAt other block i = c.byteAt other block i

theorem spared_refl (name : String) (room : Prop) (c : FileCache) : Spared name room c c :=
  ⟨fun _ _ => rfl, fun _ _ => showsLess_of_byteAt rfl, fun _ _ _ _ _ _ => rfl⟩

theorem Spared.of_room {room room' : Prop} (h : Spared name room c c') (himp : room' → room) :
    Spared name room' c c' := ⟨h.names, h.less, fun hroom => h.bytes (himp hroom)⟩

theorem update_spared (hs : m.part.Sound) (name : String) (block offset : Nat) (data : Bytes) :
    Ends (update name block offset data) m
      (fun _ m' => Spared name (m.part.size < m.part.engine.capacity) m.part m'.part)
      (fun _ m' => Spared name (m.part.size < m.part.engine.capacity) m.part m'.part) := by
  refine ((update_filed hs name block offset data).and
    (update_showsLess hs name block offset data)).imp ?_ ?_
  · intro _ m' hdone
    obtain ⟨⟨file, hfiled⟩, _, hless⟩ := hdone
    exact ⟨fun _ hne => hfiled.names_other hne, fun other hne => hless other hne.symm,
      fun hroom _ hne _ _ hi => hfiled.byteAt_other hs hroom hne hi⟩
  · intro _ m' hfailed
    obtain ⟨⟨_, file, hnumbered⟩, _, hless⟩ := hfailed
    refine ⟨fun other hne => ?_, fun other hne => hless other hne.symm, fun _ other _ block i _ => ?_⟩
    · rw [hnumbered.names, if_neg hne.symm]
    · rw [hnumbered.byteAt]

-- A name that was taken out with its blocks, and nothing else.
structure Withdrawn (name : String) (c c' : FileCache) : Prop where
  unmapped : c'.names[name]? = none
  keys : c'.engine.keys = c.engine.keys.filter fun key => c.names[name]? ≠ some key.file
  taken : c'.engine.blocksTaken = c'.engine.keys.length
  names : ∀ other ≠ name, c'.names[other]? = c.names[other]?
  bytes : ∀ other ≠ name, c'.byteAt other = c.byteAt other

theorem Tidy.delete_withdrawn (ht : m.part.Tidy) (name : String) :
    Ends (delete name) m
      (fun _ m' => m'.part.Tidy ∧ Withdrawn name m.part m'.part ∧
        ∀ file, m.part.Reserved name file → m'.part.Reserved name file)
      (fun _ _ => False) := by
  refine ((delete_dropped ht.sound name).and ((ht.delete_ends name).and
    ((FileCache.delete_ends ht.sound name).and (delete_reserved ht.sound name)))).imp ?_
    fun _ _ hfailed => hfailed.1
  intro _ m' hdone
  obtain ⟨hdropped, htidy, ⟨_, _, hbytes⟩, hreserved⟩ := hdone
  refine ⟨htidy, ?_, hreserved name⟩
  split at hdropped
  · next hname =>
    subst hdropped
    refine ⟨hname, ?_, ht.sound.taken_eq.2, fun _ _ => rfl, hbytes⟩
    rw [hname]
    exact (List.filter_eq_self.mpr fun _ _ => rfl).symm
  · next file hname =>
    refine ⟨?_, ?_, htidy.sound.taken_eq.2, fun other hne => ?_, hbytes⟩
    · rw [hdropped.names, names_unnamed, if_pos rfl]
    · refine (Dropped.keys_eq (c := m.part.unnamed name) hdropped ht.listed).trans ?_
      refine List.filter_congr fun key _ => ?_
      rw [hname]
      simp only [ne_eq, Option.some.injEq, eq_comm]
    · rw [hdropped.names, names_unnamed, if_neg hne.symm]

theorem Spared.withdrawn {room : Prop} {c'' : FileCache} (h : Spared name room c c')
    (hwithdrawn : Withdrawn name c' c'') : Spared name room c c'' := by
  refine ⟨fun other hne => (hwithdrawn.names other hne).trans (h.names other hne), ?_, ?_⟩
  · intro other hne block i hi x hx
    rw [hwithdrawn.bytes other hne] at hx
    exact h.less other hne block i hi x hx
  · intro hroom other hne block i hi
    rw [hwithdrawn.bytes other hne]
    exact h.bytes hroom other hne block i hi

end FileCache

end Blockwise
