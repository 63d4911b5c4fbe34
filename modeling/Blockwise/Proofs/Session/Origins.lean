import Blockwise.Proofs.Session.Safety
import Blockwise.Proofs.Session.Separation
import Mathlib.Logic.Function.Basic

namespace Blockwise

open Act

namespace Session

-- A version of a file.
structure Origin where
  name : String
  stamp : Nat
  deriving DecidableEq

def Answer.isOpened : Answer → Bool
  | .opened _ _ _ => true
  | _ => false

-- The stamp of a file in one of the stores in memory.
def stampOf (x : Session) (store : Nat) (name : String) : Option Nat :=
  (x.site.store.shelf store).bind fun sh => sh.files[name]?.map (·.stamp)

-- The handle that a step gives another input, or none.
def rebound (x : Session) (s : Step) : Option String :=
  match s with
  | .openInput _ _ _ handle | .clone _ handle =>
    if (x.step s).1.answer.isOpened then some handle else none
  | .wrapInput handle _ | .drop handle => some handle
  | _ => none

-- What that input was opened on, if this was through the directory.
def originOf (x : Session) (directory store : Nat) (known : String → Option Origin) :
    Step → Option Origin
  | .openInput on name _ _ =>
    if on = .directory directory then (x.stampOf store name).map (⟨name, ·⟩) else none
  | .clone handle _ => known handle
  | _ => none

def originsAfter (x : Session) (directory store : Nat) (known : String → Option Origin) (s : Step) :
    String → Option Origin :=
  match x.rebound s with
  | some handle => Function.update known handle (x.originOf directory store known s)
  | none => known

-- What the inputs of a directory over a store were opened on, for all steps of a run.
def origins (x : Session) (directory store : Nat) (known : String → Option Origin) :
    List Step → String → Option Origin
  | [] => known
  | s :: rest => (x.step s).2.origins directory store (x.originsAfter directory store known s) rest

-- A session as each of its steps starts.
def cleared (x : Session) : Session :=
  { x with site := { x.site with tier := { x.site.tier with journal := #[] } } }

theorem step_answer (x : Session) (s : Step) : (x.step s).1.answer = (x.cleared.perform s).1 := rfl

theorem step_next (x : Session) (s : Step) : (x.step s).2 = (x.cleared.perform s).2 := rfl

def sourceOf (x : Session) (handle : String) : Option AnyInput := x.inputs[handle]?.map (·.source)

variable {x x' start : Session} {handle other name : String} {r : Reader AnyInput} {s : Step}

theorem sourceOf_keepInput (x : Session) (handle other : String) (r : Reader AnyInput) :
    (x.keepInput handle r).sourceOf other =
      if handle = other then some r.source else x.sourceOf other := by
  rw [sourceOf, keepInput, Maps.getElem?_insert]
  split <;> rfl

theorem sourceOf_congr (h : x'.inputs = x.inputs) (handle : String) :
    x'.sourceOf handle = x.sourceOf handle := by
  rw [sourceOf, sourceOf, h]

theorem inputs_answering {α : Type} (x : Session) (act : Act (Site World) α) (answer : α → Answer) :
    (x.answering act answer).2.inputs = x.inputs := by
  unfold answering
  split <;> rfl

theorem inputs_lock (x : Session) (on : Target) (name handle : String) :
    (x.lock on name handle).2.inputs = x.inputs := by
  unfold Session.lock
  split
  · rfl
  · split
    · rfl
    · unfold keepLock dropLock
      simp only
      split <;> rfl

theorem inputs_unlock (x : Session) (handle : String) : (x.unlock handle).2.inputs = x.inputs := by
  unfold Session.unlock
  split
  · rfl
  · simp only
    split <;> rfl

theorem inputs_wrapOutput (x : Session) (handle location : String) (final : Option String)
    (name : String) : (x.wrapOutput handle location final name).2.inputs = x.inputs := by
  unfold Session.wrapOutput
  split <;> rfl

theorem inputs_onDirectory (x : Session) (i : Nat) {f : Mounted → Answer × Session}
    (hf : ∀ m, (f m).2.inputs = x.inputs) : (x.onDirectory i f).2.inputs = x.inputs := by
  unfold Session.onDirectory
  split
  · rfl
  · exact hf _

-- A handle that is read or positioned keeps its source.
theorem sourceOf_moved {r' : Reader AnyInput} (hr : x.inputs[handle]? = some r)
    (hsource : r'.source = r.source) (site : Site World) (other : String) :
    ({ x with site }.keepInput handle r').sourceOf other = x.sourceOf other := by
  rw [sourceOf_keepInput, hsource]
  split
  · next heq =>
    subst heq
    rw [sourceOf, hr]
    rfl
  · rfl

theorem sourceOf_seek (x : Session) (handle other : String) (position : Nat) :
    (x.seek handle position).2.sourceOf other = x.sourceOf other := by
  unfold Session.seek onInput
  cases hr : x.inputs[handle]? with
  | none => rfl
  | some r =>
    simp only [Reader.seek]
    cases feed.seek r.source position x.site with
    | ok a site =>
      refine sourceOf_moved hr ?_ site other
      rfl
    | error e site => exact sourceOf_moved hr rfl site other

theorem sourceOf_read (x : Session) (handle other : String) (len : Nat) :
    (x.read handle len).2.sourceOf other = x.sourceOf other := by
  unfold Session.read onInput
  cases hr : x.inputs[handle]? with
  | none => rfl
  | some r =>
    simp only [Reader.read]
    rcases feed.read r.source r.position len x.site with ⟨⟨bytes, failure⟩, site⟩
    cases failure with
    | none =>
      refine sourceOf_moved hr ?_ site other
      rfl
    | some e => exact sourceOf_moved hr rfl site other

theorem sourceOf_openInput (on : Target) (name : String) (purpose : Purpose)
    (hne : (x.openInput on name purpose handle).1.isOpened = true → handle ≠ other) :
    (x.openInput on name purpose handle).2.sourceOf other = x.sourceOf other := by
  unfold Session.openInput at hne ⊢
  cases hv : x.volume on with
  | error b => rfl
  | ok v =>
    simp only [hv] at hne ⊢
    cases hrun : v.openInput name purpose x.site with
    | error e site => rfl
    | ok source site =>
      simp only [hrun] at hne ⊢
      rw [sourceOf_keepInput, if_neg (hne rfl)]
      rfl

theorem sourceOf_clone (handle : String) {copy : String}
    (hne : (x.clone handle copy).1.isOpened = true → copy ≠ other) :
    (x.clone handle copy).2.sourceOf other = x.sourceOf other := by
  unfold Session.clone onInput at hne ⊢
  cases hr : x.inputs[handle]? with
  | none => rfl
  | some r =>
    simp only [hr] at hne ⊢
    cases hrun : r.clone feed x.site with
    | error e site => rfl
    | ok r' site =>
      simp only [hrun] at hne ⊢
      rw [sourceOf_keepInput, if_neg (hne rfl)]
      rfl

theorem sourceOf_wrapInput (x : Session) (cacheName : String) (hne : handle ≠ other) :
    (x.wrapInput handle cacheName).2.sourceOf other = x.sourceOf other := by
  unfold Session.wrapInput onInput
  split
  · rfl
  · simp only
    rw [sourceOf_keepInput, if_neg hne]

theorem sourceOf_drop (x : Session) (hne : handle ≠ other) :
    (x.drop handle).2.sourceOf other = x.sourceOf other := by
  rw [sourceOf, inputs_drop, Maps.getElem?_erase, if_neg hne, sourceOf]

-- Only a step that rebinds a handle changes what it is a handle of.
theorem sourceOf_step (x : Session) (s : Step) (hs : x.rebound s ≠ some other) :
    (x.step s).2.sourceOf other = x.sourceOf other := by
  have hopened {handle : String} {a : Answer}
      (hne : (if a.isOpened then some handle else none) ≠ some other) :
      a.isOpened = true → handle ≠ other := by
    intro hopened heq
    rw [if_pos hopened] at hne
    exact hne (congrArg some heq)
  have hcleared : x.cleared.sourceOf other = x.sourceOf other := sourceOf_congr rfl other
  rw [← hcleared, step_next]
  generalize hx : x.cleared = y
  cases s with
  | openInput on name purpose handle =>
    subst hx
    exact sourceOf_openInput on name purpose (hopened hs)
  | clone handle copy =>
    subst hx
    exact sourceOf_clone handle (hopened hs)
  | wrapInput handle cacheName =>
    exact sourceOf_wrapInput y cacheName fun heq => hs (congrArg some heq)
  | drop handle => exact sourceOf_drop y fun heq => hs (congrArg some heq)
  | seek handle position => exact sourceOf_seek y handle other position
  | read handle len => exact sourceOf_read y handle other len
  | create on name purpose handle => exact sourceOf_congr (inputs_create y on name purpose handle) _
  | lock on name handle => exact sourceOf_congr (inputs_lock y on name handle) _
  | unlock handle => exact sourceOf_congr (inputs_unlock y handle) _
  | wrapOutput handle location final name =>
    exact sourceOf_congr (inputs_wrapOutput y handle location final name) _
  | list on | stamped on | closeVolume on => exact sourceOf_congr (inputs_onVolume y on _ _) _
  | length on name | stamp on name | hasFile on name | delete on name =>
    exact sourceOf_congr (inputs_onVolume y on _ _) _
  | sync on names => exact sourceOf_congr (inputs_onVolume y on _ _) _
  | readWhole on name purpose => exact sourceOf_congr (inputs_onVolume y on _ _) _
  | writeWhole on name purpose data => exact sourceOf_congr (inputs_onVolume y on _ _) _
  | copy i dest name destName purpose =>
    exact sourceOf_congr (inputs_onDirectory y i fun _ => inputs_onVolume y dest _ _) _
  | cacheName i name =>
    exact sourceOf_congr (inputs_onDirectory y i fun _ => inputs_answering y _ _) _
  | choices i name purpose => exact sourceOf_congr (inputs_onDirectory y i fun _ => rfl) _
  | policy i | cacheSize i => exact sourceOf_congr (inputs_onDirectory y i fun _ => rfl) _
  | write handle data => exact sourceOf_congr (inputs_onOutput y handle _) _
  | flush handle | closeOutput handle => exact sourceOf_congr (inputs_onOutput y handle _) _
  | put i name data => exact sourceOf_congr (inputs_onBackend y i _ _ _) _
  | makeDirectories i name => exact sourceOf_congr (inputs_onBackend y i _ _ _) _
  | removeRoot i => exact sourceOf_congr (inputs_onBackend y i _ _ _) _
  | setFault i fault => exact sourceOf_congr (inputs_onBackend y i _ _ _) _
  | clearFault i kind => exact sourceOf_congr (inputs_onBackend y i _ _ _) _
  | cache step => exact sourceOf_congr (inputs_answering y _ _) _

-- A directory over one of the stores in memory.
structure Over (start : Session) (i : Nat) (d : Directory) (j : Nat) : Prop where
  store : j < start.stores
  mounted : start.mounted i = .ok ⟨d, World.cellar j, d.volume World.feed (World.cellar j)⟩

-- The bytes of a version. If it is still the file, it has these bytes.
structure Dates (sh : Shelf) (o : Origin) (data : Bytes) : Prop where
  stamp_le : o.stamp ≤ sh.clock
  same : ∀ file : MemoryFile, sh.files[o.name]? = some file → file.stamp = o.stamp →
    file.data = data

-- An input is of the version that it was opened on.
def Traces (d : Directory) (j : Nat) (x : Session) (handle : String) (o : Origin) : Prop :=
  ∃ data sh, x.sourceOf handle = some (d.versionInput j o.name ⟨data, o.stamp⟩) ∧
    x.site.store.shelf j = some sh ∧ Dates sh o data

def Traced (d : Directory) (j : Nat) (x : Session) (known : String → Option Origin) : Prop :=
  ∀ handle o, known handle = some o → (∀ purpose, d.readsCached o.name purpose = true) →
    Traces d j x handle o

variable {i j : Nat} {d : Directory} {o : Origin} {purpose : Purpose} {on : Target}
  {known : String → Option Origin} {data : Bytes} {sh : Shelf} {copy : String}

theorem Intact.cleared (h : Intact start x) : Intact start x.cleared :=
  h.withSite ⟨h.site.1.of_files rfl, h.site.2⟩

theorem Over.volume_eq (hover : Over start i d j) (h : Intact start x) :
    x.volume (.directory i) = .ok (d.volume World.feed (World.cellar j)) := by
  rw [h.volume_eq, Session.volume, hover.mounted]
  rfl

theorem Over.shelf (hover : Over start i d j) (h : Intact start x) :
    ∃ sh, x.site.store.shelf j = some sh ∧
      ∀ (name : String) (file : MemoryFile), sh.files[name]? = some file → file.stamp ≤ sh.clock := by
  obtain ⟨t, ht, hdated⟩ := Regime.exists_of_lt h.site.2 hover.store
  refine ⟨t.shelf, ?_, hdated⟩
  rw [World.shelf, ht]
  rfl

-- New files have new stamps, so the version is what it was or gone for good.
theorem Traces.moves (ht : Traces d j x handle o) (hmoves : start.regime.moves x.site x'.site)
    (hsource : x'.sourceOf handle = x.sourceOf handle) : Traces d j x' handle o := by
  obtain ⟨data, sh, hinput, hshelf, hdates⟩ := ht
  obtain ⟨t, ht, rfl⟩ := World.exists_of_shelf hshelf
  obtain ⟨t', ht', hgrows⟩ := hmoves j t ht
  have hclock : t.shelf.clock ≤ t'.shelf.clock := hgrows.clock
  have hshelf' : x'.site.store.shelf j = some t'.shelf := by
    rw [World.shelf, ht']
    rfl
  refine ⟨data, t'.shelf, hsource.trans hinput, hshelf', Nat.le_trans hdates.stamp_le hclock, ?_⟩
  intro file hfile hstamp
  rcases hgrows.files o.name file hfile with hold | hnew
  · exact hdates.same file hold hstamp
  · have hle : o.stamp ≤ t.inner.clock := hdates.stamp_le
    omega

-- An input that is opened through the directory is of the version that its file has now.
theorem Over.openInput_opened (hover : Over start i d j) (h : Intact start x)
    (hreads : d.readsCached name purpose = true) (hshelf : x.site.store.shelf j = some sh)
    (hopened : (x.openInput (.directory i) name purpose handle).1.isOpened = true) :
    ∃ file site, sh.files[name]? = some file ∧ OnShelf j x.site.tier sh site ∧
      (x.openInput (.directory i) name purpose handle).2 =
        { x with site }.keepInput handle { source := d.versionInput j name file } := by
  have hon : OnShelf j x.site.tier sh x.site := ⟨rfl, hshelf⟩
  have hends := Directory.openInput_cached hon d hreads
  unfold Session.openInput at hopened ⊢
  simp only [hover.volume_eq h, Directory.volume] at hopened ⊢
  cases hrun : d.openInput World.feed (World.cellar j) name purpose x.site with
  | error e site =>
    simp only [hrun] at hopened
    cases hopened
  | ok source site =>
    obtain ⟨hsite, file, hfile, rfl⟩ := hends.ok hrun
    exact ⟨file, site, hfile, hsite, rfl⟩

-- A copy is of the same version as its original.
theorem clone_opened {file : MemoryFile} {r : Reader AnyInput} (hr : x.inputs[handle]? = some r)
    (hsource : r.source = d.versionInput j name file) (hshelf : x.site.store.shelf j = some sh)
    (hopened : (x.clone handle copy).1.isOpened = true) :
    ∃ site, OnShelf j x.site.tier sh site ∧
      (x.clone handle copy).2 = { x with site }.keepInput copy r := by
  have hon : OnShelf j x.site.tier sh x.site := ⟨rfl, hshelf⟩
  have hends : Ends (r.clone feed) x.site (fun r' s => OnShelf j x.site.tier sh s ∧ r' = r)
      (fun _ s => OnShelf j x.site.tier sh s) := by
    simp only [Reader.clone, ends_bind, ends_pure, hsource]
    refine (Directory.clone_version hon d name file).imp ?_ fun _ _ => id
    intro source s hdone
    obtain ⟨hs, rfl⟩ := hdone
    exact ⟨hs, by rw [← hsource]⟩
  unfold Session.clone onInput at hopened ⊢
  simp only [hr] at hopened ⊢
  cases hrun : r.clone feed x.site with
  | error e site =>
    simp only [hrun] at hopened
    cases hopened
  | ok r' site =>
    obtain ⟨hsite, rfl⟩ := hends.ok hrun
    exact ⟨site, hsite, rfl⟩

theorem exists_of_sourceOf {source : AnyInput} (h : x.sourceOf handle = some source) :
    ∃ r, x.inputs[handle]? = some r ∧ r.source = source := Option.map_eq_some_iff.mp h

-- The handle that is rebound, if this was through the directory or from an input of it.
theorem Traced.rebound (ht : Traced d j x known) (hover : Over start i d j) (h : Intact start x)
    {s : Step} (hs : x.rebound s = some handle) (ho : x.originOf i j known s = some o)
    (hreads : ∀ purpose, d.readsCached o.name purpose = true) :
    Traces d j (x.step s).2 handle o := by
  have hanswer {a : Answer} {other : String}
      (h : (if a.isOpened then some other else none) = some handle) :
      a.isOpened = true ∧ other = handle := by
    split at h
    · next hopened => exact ⟨hopened, Option.some.inj h⟩
    · cases h
  cases s with
  | openInput on name purpose handle' =>
    obtain ⟨hopened, rfl⟩ := hanswer hs
    obtain ⟨sh, hshelf, hdated⟩ := hover.shelf h
    simp only [originOf] at ho
    split at ho
    · next hon =>
      subst hon
      obtain ⟨stamp, hstamp, rfl⟩ := Option.map_eq_some_iff.mp ho
      obtain ⟨file, site, hfile, hsite, hnext⟩ :=
        hover.openInput_opened h.cleared (hreads purpose) hshelf hopened
      obtain rfl : file.stamp = stamp := by
        rw [stampOf, hshelf, Option.bind_some, hfile] at hstamp
        exact Option.some.inj hstamp
      rw [step_next, perform, hnext]
      refine ⟨file.data, sh, ?_, hsite.shelf, hdated name file hfile, fun file' hfile' _ => ?_⟩
      · rw [sourceOf_keepInput, if_pos rfl]
      · rw [Option.some.inj (hfile'.symm.trans hfile)]
    · cases ho
  | clone original copy =>
    obtain ⟨hopened, rfl⟩ := hanswer hs
    obtain ⟨data, sh, hinput, hshelf, hdates⟩ := ht original o ho hreads
    obtain ⟨r, hr, hsource⟩ := exists_of_sourceOf hinput
    obtain ⟨site, hsite, hnext⟩ := clone_opened (x := x.cleared) hr hsource hshelf hopened
    rw [step_next, perform, hnext]
    refine ⟨data, sh, ?_, hsite.shelf, hdates⟩
    rw [sourceOf_keepInput, if_pos rfl, hsource]
  | _ => cases ho

theorem Traced.step (ht : Traced d j x known) (hover : Over start i d j) (h : Intact start x)
    (hstart : start.Fresh) {s : Step} (hs : start.Admits s) :
    Traced d j (x.step s).2 (x.originsAfter i j known s) := by
  obtain ⟨_, hmoves, _⟩ := h.step hstart hs
  have hkept (other : String) (hother : x.rebound s ≠ some other) (o : Origin)
      (ho : known other = some o) (hreads : ∀ purpose, d.readsCached o.name purpose = true) :
      Traces d j (x.step s).2 other o :=
    (ht other o ho hreads).moves hmoves (sourceOf_step x s hother)
  intro other o ho hreads
  unfold originsAfter at ho
  cases hrebound : x.rebound s with
  | none =>
    rw [hrebound] at ho
    exact hkept other (by rw [hrebound]; exact nofun) o ho hreads
  | some handle =>
    simp only [hrebound] at ho
    by_cases heq : other = handle
    · subst heq
      rw [Function.update_self] at ho
      exact ht.rebound hover h hrebound ho hreads
    · rw [Function.update_of_ne heq] at ho
      exact hkept other (by rw [hrebound]; exact fun h => heq (Option.some.inj h).symm) o ho hreads

-- By induction on the run: whatever an input was opened on, it still is of that version.
theorem Traced.after (ht : Traced d j x known) (hover : Over start i d j) (h : Intact start x)
    (hstart : start.Fresh) {steps : List Step} (hsteps : ∀ s ∈ steps, start.Admits s) :
    Traced d j (x.after steps) (x.origins i j known steps) := by
  induction steps generalizing x known with
  | nil => exact ht
  | cons s rest ih =>
    obtain ⟨hs, hrest⟩ := List.forall_mem_cons.mp hsteps
    exact ih (ht.step hover h hstart hs) (h.step hstart hs).1 hrest

end Session

end Blockwise
