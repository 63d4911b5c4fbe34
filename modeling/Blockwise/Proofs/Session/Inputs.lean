import Blockwise.Proofs.Session.Tracked
import Mathlib

namespace Blockwise

open Act

namespace Session

-- The bytes of a file of the first store.
def current (x : Session) (name : String) : Option Bytes :=
  x.site.store.memories[0]?.bind fun t => t.inner.files[name]?.map (·.data)

-- What the inputs were opened on, after an answer that may tell of a new one.
def noted (seen : String → Option Bytes) (handle : String) (data : Option Bytes) :
    Answer → String → Option Bytes
  | .opened _ _ _ => fun other => if handle = other then data else seen other
  | _ => seen

instance (a : Answer) (bytes : Bytes) (length position : Nat) :
    Decidable (a = .delivered ⟨bytes, none⟩ length position) :=
  match a with
  | .delivered ⟨bytes', none⟩ length' position' =>
    decidable_of_iff (bytes' = bytes ∧ length' = length ∧ position' = position)
      ⟨by rintro ⟨rfl, rfl, rfl⟩; rfl, by rintro ⟨⟩; exact ⟨rfl, rfl, rfl⟩⟩
  | .delivered ⟨_, some _⟩ _ _ => isFalse nofun
  | .done | .noHandle | .failed _ | .names _ | .number _ | .stamp _ | .flag _ | .text _ | .bytes _
  | .opened _ _ _ | .created _ _ | .moved _ _ | .wrapped _ _ _ _ | .dropped _ _ _
  | .choices _ _ _ | .policy _ | .cached _ => isFalse nofun

-- The file of an input.
def fileOf (x : Session) (handle : String) : Option String :=
  x.inputs[handle]?.map fun r => feed.name r.source

-- The store of the session is open and refuses nothing.
def Calm (x : Session) : Prop :=
  (x.site.store.memories[0]?.all fun t => t.guard.isEmpty && !t.inner.closed) = true

instance (x : Session) : Decidable x.Calm := inferInstanceAs (Decidable (_ = true))

-- Calls of inputs leave the outputs alone.
section

variable {x : Session} {handle : String}

theorem outputs_seek (position : Nat) : (x.seek handle position).2.outputs = x.outputs := by
  unfold seek onInput
  cases x.inputs[handle]? <;> rfl

theorem outputs_read (len : Nat) : (x.read handle len).2.outputs = x.outputs := by
  unfold read onInput
  cases x.inputs[handle]? <;> rfl

theorem outputs_clone (copy : String) : (x.clone handle copy).2.outputs = x.outputs := by
  unfold clone onInput
  cases x.inputs[handle]? with
  | none => rfl
  | some r =>
    simp only
    cases r.clone feed x.site <;> rfl

theorem outputs_openInput (on : Target) (name : String) (purpose : Purpose) :
    (x.openInput on name purpose handle).2.outputs = x.outputs := by
  unfold openInput
  cases x.volume on with
  | error b => rfl
  | ok v =>
    simp only
    cases v.openInput name purpose x.site <;> rfl

end

namespace Tracked

variable {scope : Scope} {d : Directory} {seen : String → Option Bytes} {history : Nat → Bytes}
  {sh : Shelf} {x : Session} {site : Site World} {source : AnyInput} {r : Reader AnyInput}
  {name handle : String} {data : Bytes}

-- The cache and the store of a tracked session, without its handles.
abbrev Rest (scope : Scope) (d : Directory) (history : Nat → Bytes) (sh : Shelf)
    (outputs : Std.TreeMap String AnyOutput) : Site World → Prop :=
  CacheLabel.Steady d.pool (Claims scope d history sh outputs) fun w => w.shelf 0 = some sh

theorem rest (h : Tracked scope d seen history sh x) : Rest scope d history sh x.outputs x.site :=
  ⟨h.honest, h.shelf⟩

theorem of_rest (h : Tracked scope d seen history sh x)
    (hsite : Rest scope d history sh x.outputs site) :
    Tracked scope d seen history sh { x with site } := h.withSite hsite.states hsite.honest

theorem seek_ends (h : Tracked scope d seen history sh x)
    (hopened : Opened scope d history sh source name data) (position : Nat) :
    Ends (feed.seek source position) x.site (fun _ => Rest scope d history sh x.outputs)
      (fun _ s => Rest scope d history sh x.outputs s ∧ ¬sh.calm = true) := by
  cases hopened with
  | plain name data =>
    show Ends (Site.onStore (World.feed.seek (.memory 0 ⟨name, data⟩) position)) x.site _ _
    rw [Site.ends_onStore]
    exact (World.seek_ends h.shelf ⟨name, data⟩ position).imp
      (fun _ _ hshelf => ⟨h.honest, hshelf⟩) fun _ _ hfailed => ⟨⟨h.honest, hfailed.1⟩, hfailed.2⟩
  | cached => exact h.rest

-- A read of a trusted file that succeeds delivers the file, and so does every one at a calm store.
theorem read_spec (h : Tracked scope d seen history sh x)
    (hopened : Opened scope d history sh source name data) (position len : Nat) :
    Rest scope d history sh x.outputs (feed.read source position len x.site).2 ∧
      (scope.trusted name →
        (feed.read source position len x.site).1.failure = none ∨ sh.calm = true →
          (feed.read source position len x.site).1 = .ofFile name data position len) := by
  cases hopened with
  | plain name data =>
    obtain ⟨hshelf, hread⟩ :=
      (World.feed_serves 0 name data sh).read position len x.site.store h.shelf
    exact ⟨⟨h.honest, hshelf⟩, fun _ => hread⟩
  | cached name stamp label hname hlabel hversion hstamp hlength hpool =>
    have hnames : label.Names d.pool (history stamp) (Claims scope d history sh x.outputs) := by
      refine ⟨hlength, Nat.le_of_eq hpool, fun other hclaim => ?_⟩
      rw [hversion] at hclaim
      exact (h.of_version hname hclaim).2 hstamp
    subst hlabel
    obtain ⟨hrest, hread⟩ := CacheLabel.read_spec
      (Source.plain_serves (World.feed_serves 0 label.name (history stamp) sh)) hnames h.rest
      position len
    exact ⟨hrest, fun htrusted => hread (.inl ⟨_, stamp, htrusted, hversion, fun _ => rfl⟩)⟩

theorem clone_ends (h : Tracked scope d seen history sh x)
    (hopened : Opened scope d history sh source name data) :
    Ends (feed.clone source) x.site
      (fun copy s => Rest scope d history sh x.outputs s ∧ copy = source)
      (fun _ s => Rest scope d history sh x.outputs s ∧ ¬sh.calm = true) := by
  have hplain (input : MemoryInput) :
      Ends (Source.clone World.feed (.plain (.memory 0 input))) x.site
        (fun copy s => Rest scope d history sh x.outputs s ∧ copy = .plain (.memory 0 input))
        (fun _ s => Rest scope d history sh x.outputs s ∧ ¬sh.calm = true) := by
    simp only [Source.clone, ends_map, Site.ends_onStore]
    refine (World.clone_ends h.shelf input).imp ?_ fun _ _ hfailed =>
      ⟨⟨h.honest, hfailed.1⟩, hfailed.2⟩
    intro _ w hdone
    obtain ⟨hshelf, rfl⟩ := hdone
    exact ⟨⟨h.honest, hshelf⟩, rfl⟩
  cases hopened with
  | plain name data => exact hplain ⟨name, data⟩
  | cached name stamp label =>
    show Ends ((Source.cached · label) <$> Source.clone World.feed (.plain _)) x.site _ _
    rw [ends_map]
    refine (hplain ⟨name, history stamp⟩).imp ?_ fun _ _ => id
    intro _ s hdone
    obtain ⟨hs, rfl⟩ := hdone
    exact ⟨hs, rfl⟩

theorem calm (h : Tracked scope d seen history sh x) (hcalm : x.Calm) : sh.calm = true := by
  obtain ⟨t, ht, rfl⟩ := World.exists_of_shelf h.shelf
  rw [Calm, ht] at hcalm
  exact hcalm

-- An input that was read or positioned is still the one that was opened.
theorem keepSource (h : Tracked scope d seen history sh x) (hseen : seen handle = some data)
    (hr : Opened scope d history sh r.source name data) :
    Tracked scope d seen history sh (x.keepInput handle r) := by
  have hsame : (fun other => if handle = other then some data else seen other) = seen := by
    funext other
    split
    · next heq => rw [← heq, hseen]
    · rfl
  exact hsame ▸ h.keepInput hr handle

theorem seek (h : Tracked scope d seen history sh x) (handle : String) (position : Nat) :
    Tracked scope d seen history sh (x.seek handle position).2 := by
  unfold Session.seek onInput
  cases hr : x.inputs[handle]? with
  | none => exact h
  | some r =>
    obtain ⟨name, data, hseen, hopened⟩ := h.inputs handle r hr
    have hends := h.seek_ends hopened position
    simp only [Reader.seek]
    cases hrun : feed.seek r.source position x.site with
    | ok a site => exact (h.of_rest (hends.ok hrun)).keepSource hseen hopened
    | error e site => exact (h.of_rest (hends.error hrun).1).keepSource hseen hopened

theorem read (h : Tracked scope d seen history sh x) (handle : String) (len : Nat) :
    Tracked scope d seen history sh (x.read handle len).2 := by
  unfold Session.read onInput
  cases hr : x.inputs[handle]? with
  | none => exact h
  | some r =>
    obtain ⟨name, data, hseen, hopened⟩ := h.inputs handle r hr
    obtain ⟨hrest, _⟩ := h.read_spec hopened r.position len
    simp only [Reader.read]
    rcases hrun : feed.read r.source r.position len x.site with ⟨⟨bytes, failure⟩, site⟩
    rw [hrun] at hrest
    cases failure <;> exact (h.of_rest hrest).keepSource hseen hopened

-- What a read that succeeds answers with.
theorem read_answer (h : Tracked scope d seen history sh x) {len length position : Nat}
    {bytes : Bytes} (hread : (x.read handle len).1 = .delivered ⟨bytes, none⟩ length position) :
    ∃ r name data, x.inputs[handle]? = some r ∧ seen handle = some data ∧
      Opened scope d history sh r.source name data ∧ (scope.trusted name →
        r.position + len ≤ data.size ∧ bytes = Bytes.slice data r.position len) := by
  unfold Session.read onInput at hread
  cases hr : x.inputs[handle]? with
  | none =>
    rw [hr] at hread
    cases hread
  | some r =>
    obtain ⟨name, data, hseen, hopened⟩ := h.inputs handle r hr
    obtain ⟨_, hdelivered⟩ := h.read_spec hopened r.position len
    simp only [hr, Reader.read] at hread
    rcases hrun : feed.read r.source r.position len x.site with ⟨⟨got, failure⟩, site⟩
    rw [hrun] at hread hdelivered
    cases failure with
    | some e => cases hread
    | none =>
      cases hread
      exact ⟨r, name, data, rfl, hseen, hopened, fun htrusted =>
        Delivery.eq_of_ofFile (hdelivered htrusted (.inl rfl))⟩

theorem copy_ends (h : Tracked scope d seen history sh x)
    (hopened : Opened scope d history sh r.source name data) :
    Ends (r.clone feed) x.site (fun r' s => Rest scope d history sh x.outputs s ∧ r' = r)
      (fun _ s => Rest scope d history sh x.outputs s ∧ ¬sh.calm = true) := by
  simp only [Reader.clone, ends_bind, ends_pure]
  refine (h.clone_ends hopened).imp ?_ fun _ _ => id
  intro source s hdone
  obtain ⟨hs, rfl⟩ := hdone
  exact ⟨hs, rfl⟩

theorem clone (h : Tracked scope d seen history sh x) (handle copy : String) :
    Tracked scope d (noted seen copy (seen handle) (x.clone handle copy).1) history sh
      (x.clone handle copy).2 := by
  unfold Session.clone onInput
  cases hr : x.inputs[handle]? with
  | none => exact h
  | some r =>
    obtain ⟨name, data, hseen, hopened⟩ := h.inputs handle r hr
    have hends := h.copy_ends hopened
    cases hrun : r.clone feed x.site with
    | error e site =>
      simp only [hrun]
      exact h.of_rest (hends.error hrun).1
    | ok r' site =>
      obtain ⟨hrest, rfl⟩ := hends.ok hrun
      simp only [hrun, hseen]
      exact (h.of_rest hrest).keepInput hopened copy

theorem current_eq (h : Tracked scope d seen history sh x) (name : String) :
    x.current name = sh.files[name]?.map (·.data) := by
  obtain ⟨t, ht, rfl⟩ := World.exists_of_shelf h.shelf
  rw [current, ht]
  rfl

-- An input that is opened on a file is opened on what the file is now.
theorem openInput_ends (h : Tracked scope d seen history sh x) (name : String) (purpose : Purpose) :
    Ends (d.openInput World.feed (World.cellar 0) name purpose) x.site
      (fun source s => Rest scope d history sh x.outputs s ∧
        ∃ data, x.current name = some data ∧ Opened scope d history sh source name data)
      (fun e s => Rest scope d history sh x.outputs s ∧
        (sh.calm = true → sh.Missing name e)) := by
  refine (Directory.openInput_ends h.onShelf d name purpose).imp ?_ ?_
  · intro source site hdone
    obtain ⟨⟨htier, hshelf⟩, file, hfile, hsource⟩ := hdone
    refine ⟨⟨htier ▸ h.honest, hshelf⟩, file.data, by rw [h.current_eq, hfile]; rfl, ?_⟩
    obtain ⟨hname, hstamp, hdata⟩ := h.filed name file hfile
    rcases hsource with rfl | rfl
    · exact .plain name file.data hname
    · rw [← hdata]
      exact .cached name file.stamp _ hname rfl rfl hstamp rfl rfl
  · intro e site hfailed
    obtain ⟨⟨htier, hshelf⟩, hmissing⟩ := hfailed
    exact ⟨⟨htier ▸ h.honest, hshelf⟩, hmissing⟩

theorem openInput (h : Tracked scope d seen history sh x) (name : String) (purpose : Purpose)
    (handle : String) :
    Tracked scope d
      (noted seen handle (x.current name) (x.openInput (.directory 0) name purpose handle).1)
      history sh (x.openInput (.directory 0) name purpose handle).2 := by
  have hends := h.openInput_ends name purpose
  unfold Session.openInput
  simp only [h.volume_eq, Directory.volume]
  cases hrun : d.openInput World.feed (World.cellar 0) name purpose x.site with
  | error e site => exact h.of_rest (hends.error hrun).1
  | ok source site =>
    obtain ⟨hrest, data, hcurrent, hopened⟩ := hends.ok hrun
    rw [hcurrent]
    exact (h.of_rest hrest).keepInput hopened handle

end Tracked

end Session

end Blockwise
