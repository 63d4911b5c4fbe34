import Blockwise.Proofs.Session.Origins
import Blockwise.Proofs.Stream.Warm
import Blockwise.Proofs.Volume.Recorded

namespace Blockwise

open Act

namespace Session

-- A read that is served from the cache alone: the cache has all that it is asked for, and is told
-- nothing new, and the store is not asked.
structure Warm (x : Session) (handle : String) (position len : Nat) : Prop where
  delivers : ∃ bytes, ((x.step (.seek handle position)).2.step (.read handle len)).1.answer =
    .delivered ⟨bytes, none⟩ len (position + len)
  hits : ∀ call ∈ ((x.step (.seek handle position)).2.step (.read handle len)).1.journal, call.IsHit
  store : ((x.step (.seek handle position)).2.step (.read handle len)).2.site.store = x.site.store

def Answer.isCreated : Answer → Bool
  | .created _ _ => true
  | _ => false

instance (a : Answer) (position : Nat) : Decidable (a = .moved none position) :=
  match a with
  | .moved none position' =>
    decidable_of_iff (position' = position) ⟨by rintro rfl; rfl, by rintro ⟨⟩; rfl⟩
  | .moved (some _) _ => isFalse nofun
  | .done | .noHandle | .failed _ | .names _ | .number _ | .stamp _ | .flag _ | .text _ | .bytes _
  | .opened _ _ _ | .created _ _ | .delivered _ _ _ | .wrapped _ _ _ _ | .dropped _ _ _
  | .choices _ _ _ | .policy _ | .cached _ => isFalse nofun

-- The steps that write to an output, and those that position and read an input.
def Step.IsWrite (handle : String) : Step → Prop
  | .write other _ | .flush other => other = handle
  | _ => False

def Step.IsRead (handle : String) : Step → Prop
  | .seek other _ | .read other _ => other = handle
  | _ => False

variable {x start : Session} {i j capacity size position len length : Nat} {d : Directory}
  {name handle copy out : String} {purpose : Purpose} {r : Reader AnyInput} {below : AnyInput}
  {label : CacheLabel} {wanted : Nat → Prop} {bytes : Bytes} {s : Step}

section Reads

-- An input through the cache, with the blocks of it that are cached.
structure Ready (x : Session) (handle : String) (label : CacheLabel) (wanted : Nat → Prop) : Prop where
  input : ∃ r below, x.inputs[handle]? = some r ∧ r.source = .cached below label
  held : ∀ block, wanted block → x.site.tier.Holds label.cacheName block

theorem Ready.keepInput (hheld : ∀ block, wanted block → x.site.tier.Holds label.cacheName block)
    (hsource : r.source = .cached below label) : (x.keepInput handle r).Ready handle label wanted := by
  refine ⟨⟨r, below, ?_, hsource⟩, hheld⟩
  rw [Session.keepInput, Maps.getElem?_insert, if_pos rfl]

theorem seek_cached (hr : x.inputs[handle]? = some r) (hsource : r.source = .cached below label)
    (position : Nat) :
    x.seek handle position = (.moved none position, x.keepInput handle { r with position }) := by
  have hseek : feed.seek r.source position x.site = .ok () x.site := by
    rw [hsource]
    rfl
  simp only [Session.seek, onInput, hr, Reader.seek, hseek]

theorem read_cached (hr : x.inputs[handle]? = some r) (hsource : r.source = .cached below label)
    (hin : r.position + len ≤ label.length)
    (hheld : ∀ span ∈ Grid.spans r.position len, x.site.tier.Holds label.cacheName span.block) :
    ∃ bytes site, x.read handle len = (.delivered ⟨bytes, none⟩ len (r.position + len),
        { x with site }.keepInput handle { r with position := r.position + len }) ∧
      x.site.Spared site := by
  obtain ⟨bytes, site, hrun, hspared⟩ := Source.read_held World.feed below hin hheld
  have hread : feed.read r.source r.position len x.site = (⟨bytes, none⟩, site) := by
    rw [hsource]
    exact hrun
  refine ⟨bytes, site, ?_, hspared⟩
  simp only [Session.read, onInput, hr, Reader.read, hread]

theorem Ready.warm (h : x.Ready handle label wanted) (hin : position + len ≤ label.length)
    (hwanted : ∀ span ∈ Grid.spans position len, wanted span.block) :
    x.Warm handle position len := by
  obtain ⟨⟨r, below, hr, hsource⟩, hheld⟩ := h
  have hsought : (x.step (.seek handle position)).2 = x.cleared.keepInput handle { r with position } :=
    congrArg Prod.snd (seek_cached (x := x.cleared) hr hsource position)
  have hr' : (x.cleared.keepInput handle { r with position }).cleared.inputs[handle]? =
      some { r with position } := by
    show (x.inputs.insert handle { r with position })[handle]? = _
    rw [Maps.getElem?_insert, if_pos rfl]
  obtain ⟨bytes, site, hread, hspared⟩ := read_cached hr' hsource hin
    fun span hspan => hheld _ (hwanted span hspan)
  have hrun := congrArg (fun p : Answer × Session => (p.2.report p.1, p.2)) hread
  have hstep : (x.step (.seek handle position)).2.step (.read handle len) = _ :=
    (congrArg (step · (.read handle len)) hsought).trans hrun
  refine ⟨⟨bytes, ?_⟩, ?_, ?_⟩
  · rw [hstep]
    rfl
  · rw [hstep]
    exact fun call hcall => (hspared.hits call hcall).resolve_left (Array.not_mem_empty call)
  · rw [hstep]
    exact hspared.store

-- Whatever is read of an input that is cached whole, it stays so.
theorem Ready.step (h : x.Ready handle label (· < Grid.count label.length)) (hs : s.IsRead handle) :
    (x.step s).2.Ready handle label (· < Grid.count label.length) := by
  obtain ⟨⟨r, below, hr, hsource⟩, hheld⟩ := h
  rw [step_next]
  cases s with
  | seek other position =>
    obtain rfl : other = handle := hs
    rw [perform, seek_cached (x := x.cleared) hr hsource]
    exact .keepInput hheld hsource
  | read other len =>
    obtain rfl : other = handle := hs
    by_cases hin : r.position + len ≤ label.length
    · obtain ⟨bytes, site, hread, hspared⟩ := read_cached (x := x.cleared) hr hsource hin
        fun span hspan => hheld _ (Grid.block_lt_count hspan hin)
      rw [perform, hread]
      exact .keepInput (fun block hblock => hspared.kept _ _ (hheld block hblock)) hsource
    · have hpast : feed.read r.source r.position len x.cleared.site =
          (.refused (.readPastEof label.name r.position label.length), x.cleared.site) := by
        rw [hsource]
        show label.read _ _ r.position len x.cleared.site = _
        rw [CacheLabel.read, readPastEof, if_pos (Nat.lt_of_not_le hin)]
      have hr' : x.cleared.inputs[other]? = some r := hr
      simp only [perform, Session.read, onInput, hr', Reader.read, hpast, Delivery.refused]
      exact .keepInput hheld hsource
  | _ => exact hs.elim

theorem Ready.after {steps : List Step} (h : x.Ready handle label (· < Grid.count label.length))
    (hsteps : ∀ s ∈ steps, s.IsRead handle) :
    (x.after steps).Ready handle label (· < Grid.count label.length) := by
  induction steps generalizing x with
  | nil => exact h
  | cons s rest ih =>
    obtain ⟨hs, hrest⟩ := List.forall_mem_cons.mp hsteps
    exact ih (h.step hs) hrest

-- A read that succeeds moves its input past what it has touched, all of which is cached now.
theorem Intact.read_fills {input : World.Input} (h : Intact start x)
    (hlayout : start.site.tier.layout = some (capacity, size)) (hr : x.inputs[handle]? = some r)
    (hsource : r.source = .cached (.plain input) label)
    (hread : (x.read handle len).1 = .delivered ⟨bytes, none⟩ len (position + len))
    (hfew : (Grid.touched position len).length ≤ capacity) :
    position + len ≤ label.length ∧ ∃ site,
      (x.read handle len).2 = { x with site }.keepInput handle { r with position := position + len } ∧
        ∀ span ∈ Grid.spans position len, site.tier.Holds label.cacheName span.block := by
  have hrecent : x.site.tier.Recent capacity label.cacheName [] :=
    (hlayout ▸ h.site.1).recent_nil label.cacheName
  have hfeed : feed.read r.source r.position len x.site =
      (Source.cached (.plain input) label).read World.feed r.position len x.site := by
    rw [hsource]
    rfl
  simp only [Session.read, onInput, hr, Reader.read] at hread ⊢
  rcases hrun : feed.read r.source r.position len x.site with ⟨⟨got, failure⟩, site⟩
  rw [hrun] at hfeed hread
  cases failure with
  | some e => cases hread
  | none =>
    simp only [Answer.delivered.injEq] at hread
    obtain rfl : r.position = position := by omega
    obtain ⟨hin, hheld⟩ := Source.read_fills World.feed input hrecent hfew
      (by rw [← hfeed])
    rw [← hfeed] at hheld
    exact ⟨hin, site, rfl, hheld⟩

-- A copy of an input is ready for what the input is ready for.
theorem Ready.clone {file : MemoryFile} (h : Intact start x) (hover : Over start i d j)
    (hr : x.inputs[handle]? = some r) (hsource : r.source = d.versionInput j name file)
    (hheld : ∀ block, wanted block → x.site.tier.Holds (d.version name file.stamp) block)
    (hopened : (x.step (.clone handle copy)).1.answer.isOpened = true) :
    (x.step (.clone handle copy)).2.Ready copy
      ⟨name, d.version name file.stamp, file.data.size, d.pool⟩ wanted := by
  obtain ⟨sh, hshelf, _⟩ := hover.shelf h
  obtain ⟨site, hsite, hnext⟩ := clone_opened (x := x.cleared) hr hsource hshelf hopened
  rw [step_next, perform, hnext]
  refine .keepInput (fun block hblock => ?_) hsource
  show site.tier.Holds _ block
  rw [hsite.tier]
  exact hheld block hblock

-- So is an input that is opened on the file, with the version that the file has now.
theorem Ready.openInput (h : Intact start x) (hover : Over start i d j)
    (hreads : d.readsCached name purpose = true) {sh : Shelf} {file : MemoryFile}
    (hshelf : x.site.store.shelf j = some sh) (hfile : sh.files[name]? = some file)
    (hheld : ∀ block, wanted block → x.site.tier.Holds (d.version name file.stamp) block)
    (hopened : (x.step (.openInput (.directory i) name purpose handle)).1.answer.isOpened = true) :
    (x.step (.openInput (.directory i) name purpose handle)).2.Ready handle
      ⟨name, d.version name file.stamp, file.data.size, d.pool⟩ wanted := by
  obtain ⟨file', site, hfile', hsite, hnext⟩ :=
    hover.openInput_opened h.cleared hreads hshelf hopened
  obtain rfl := Option.some.inj (hfile.symm.trans hfile')
  rw [step_next, perform, hnext]
  refine .keepInput (fun block hblock => ?_) rfl
  show site.tier.Holds _ block
  rw [hsite.tier]
  exact hheld block hblock

-- What was just read is read again without the store: by the input that read it, by a copy of it,
-- and by an input that is opened on the same version.
theorem Traces.warm_again {stamp : Nat} (ht : Traces d j x handle ⟨name, stamp⟩)
    (hover : Over start i d j) (h : Intact start x) (hstart : start.Fresh)
    (hlayout : start.site.tier.layout = some (capacity, size))
    (hreads : ∀ purpose, d.readsCached name purpose = true)
    (hread : (x.step (.read handle len)).1.answer = .delivered ⟨bytes, none⟩ len (position + len))
    (hfew : (Grid.touched position len).length ≤ capacity) {y : Session}
    (hy : (x.step (.read handle len)).2 = y) :
    y.Warm handle position len ∧
      (∀ copy, (y.step (.clone handle copy)).1.answer.isOpened = true →
        (y.step (.clone handle copy)).2.Warm copy position len) ∧
      ∀ purpose copy, y.stampOf j name = some stamp →
        (y.step (.openInput (.directory i) name purpose copy)).1.answer.isOpened = true →
        (y.step (.openInput (.directory i) name purpose copy)).2.Warm copy position len := by
  obtain ⟨hintact, hmoves, _⟩ := h.step (s := .read handle len) hstart trivial
  have hsame : (x.step (.read handle len)).2.sourceOf handle = x.sourceOf handle :=
    sourceOf_step x _ nofun
  have htraces := ht.moves hmoves hsame
  rw [hy] at hintact htraces hsame
  obtain ⟨data, sh, hinput, hshelf, hdates⟩ := htraces
  obtain ⟨r, hr, hsource⟩ := exists_of_sourceOf (hsame.symm.trans hinput)
  obtain ⟨hin, site, hnext, hheld⟩ :=
    h.cleared.read_fills (x := x.cleared) hlayout hr hsource hread hfew
  obtain rfl := hy.symm.trans hnext
  have hr' : ({ x.cleared with site }.keepInput handle
      { r with position := position + len }).inputs[handle]? =
        some { r with position := position + len } := by
    rw [keepInput, Maps.getElem?_insert, if_pos rfl]
  have hspans (block : Nat) (hblock : ∃ span ∈ Grid.spans position len, span.block = block) :
      site.tier.Holds (d.version name stamp) block := by
    obtain ⟨span, hspan, rfl⟩ := hblock
    exact hheld span hspan
  have hwanted (span : Grid.Span) (hspan : span ∈ Grid.spans position len) :
      ∃ other ∈ Grid.spans position len, other.block = span.block := ⟨span, hspan, rfl⟩
  refine ⟨?_, fun copy hopened => ?_, fun purpose copy hstamp hopened => ?_⟩
  · have hready : ({ x.cleared with site }.keepInput handle
        { r with position := position + len }).Ready handle _ _ := .keepInput hspans hsource
    exact hready.warm hin hwanted
  · exact (Ready.clone hintact hover hr' hsource hspans hopened).warm hin hwanted
  · rw [stampOf, hshelf, Option.bind_some] at hstamp
    obtain ⟨file, hfile, rfl⟩ := Option.map_eq_some_iff.mp hstamp
    obtain rfl := hdates.same file hfile rfl
    exact (Ready.openInput hintact hover (hreads purpose) hshelf hfile hspans hopened).warm hin hwanted

end Reads

section Writes

-- A writer of a file of the directory that goes by its version when it is closed.
abbrev Recorder (capacity j : Nat) (d : Directory) (name : String) :
    CachedWriter World.Out (Site World) × Site World → Prop :=
  CachedWriter.Recording capacity j d name (some (d.cacheName (World.cellar j) name))

def Records (capacity j : Nat) (d : Directory) (name : String) (x : Session) (out : String) : Prop :=
  ∃ w, x.outputs[out]? = some ⟨1, w⟩ ∧ Recorder capacity j d name (w, x.site)

-- Dropping the output that had the handle before touches neither the cache nor the files.
theorem onShelf_dropOutput {t : Tier} {sh : Shelf} (h : OnShelf j t sh x.site) (handle : String) :
    OnShelf j t sh (x.dropOutput handle).site := by
  unfold Session.dropOutput
  cases x.outputs[handle]? with
  | none => exact h
  | some out =>
    obtain ⟨htier, hshelf⟩ := drop_spec out x.site
    exact ⟨htier.trans h.tier, (hshelf j).trans h.shelf⟩

theorem Over.create_records (hover : Over start i d j) (h : Intact start x)
    (hlayout : start.site.tier.layout = some (capacity, size))
    (hwrites : d.writesCached name purpose = true)
    (hcreated : (x.create (.directory i) name purpose out).1.isCreated = true) :
    Records capacity j d name (x.create (.directory i) name purpose out).2 out := by
  obtain ⟨sh, hshelf, _⟩ := hover.shelf h
  have hon : OnShelf j x.site.tier sh x.site := ⟨rfl, hshelf⟩
  have hends := Directory.create_cached hon d hwrites
  unfold Session.create at hcreated ⊢
  simp only [hover.volume_eq h, Directory.volume] at hcreated ⊢
  cases hrun : d.create (World.cellar j) name purpose x.site with
  | error e site =>
    simp only [hrun] at hcreated
    cases hcreated
  | ok made site =>
    obtain ⟨hsite, rfl⟩ := hends.ok hrun
    have hkept := onShelf_dropOutput (x := { x with site }) hsite out
    have hrecent := (hlayout ▸ h.site.1).recent_nil (d.location name)
    refine ⟨_, ?_, CachedWriter.recording_create hkept hrecent⟩
    simp only [keepOutput]
    rw [Maps.getElem?_insert, if_pos rfl]
    rfl

-- However a call of the output ends, the output goes on with its file.
theorem Records.onOutput (h : Records capacity j d name x out)
    (call : (n : Nat) → Act (Layered World.Out (Site World) n × Site World) Unit)
    (hcall : ∀ w s, Recorder capacity j d name (w, s) → Ends (call 1) (w, s)
      (fun _ => Recorder capacity j d name) (fun _ => Recorder capacity j d name)) :
    Records capacity j d name (x.onOutput out (Output.onStream call)).2 out := by
  obtain ⟨w, hout, hw⟩ := h
  have hends := hcall w x.site hw
  unfold Session.onOutput
  simp only [hout, Output.onStream]
  cases hrun : call 1 (w, x.site) with
  | ok a p =>
    refine ⟨p.1, ?_, hends.ok hrun⟩
    rw [Maps.getElem?_insert, if_pos rfl]
  | error e p =>
    refine ⟨p.1, ?_, hends.error hrun⟩
    rw [Maps.getElem?_insert, if_pos rfl]

theorem Records.cleared (h : Records capacity j d name x out) :
    Records capacity j d name x.cleared out := by
  obtain ⟨w, hout, ⟨o, ho⟩, hsettle⟩ := h
  exact ⟨w, hout, ⟨o, { ho with }⟩, hsettle⟩

theorem Records.step (h : Records capacity j d name x out) (hs : s.IsWrite out) :
    Records capacity j d name (x.step s).2 out := by
  rw [step_next]
  cases s with
  | write other data =>
    obtain rfl : other = out := hs
    exact h.cleared.onOutput (fun n => (Output.layeredSink World.sink n).write data)
      fun _ _ hw => CachedWriter.write_recording hw data
  | flush other =>
    obtain rfl : other = out := hs
    exact h.cleared.onOutput (fun n => (Output.layeredSink World.sink n).flush)
      fun _ _ hw => CachedWriter.flush_recording hw
  | _ => exact hs.elim

theorem Records.after {steps : List Step} (h : Records capacity j d name x out)
    (hsteps : ∀ s ∈ steps, s.IsWrite out) : Records capacity j d name (x.after steps) out := by
  induction steps generalizing x with
  | nil => exact h
  | cons s rest ih =>
    obtain ⟨hs, hrest⟩ := List.forall_mem_cons.mp hsteps
    exact ih (h.step hs) hrest

-- A close that succeeds leaves the blocks under the version that the file has now.
theorem Records.close (h : Records capacity j d name x out)
    (hclosed : (x.step (.closeOutput out)).1.answer = .moved none length) :
    CachedWriter.Shelved capacity j d name length (x.step (.closeOutput out)).2.site := by
  obtain ⟨w, hout, hw⟩ := h.cleared
  have hends : Ends sink.close ((⟨1, w⟩ : AnyOutput), x.cleared.site)
      (fun _ p => CachedWriter.Shelved capacity j d name (sink.position p.1) p.2) fun _ _ => True :=
    (@Output.ends_onStream _ _ _ 1 w x.cleared.site
      (fun n => (Output.layeredSink World.sink n).close) _ _).mpr (CachedWriter.close_recording hw)
  rw [step_answer, perform] at hclosed
  rw [step_next, perform]
  unfold Session.onOutput at hclosed ⊢
  simp only [hout] at hclosed ⊢
  cases hrun : sink.close ((⟨1, w⟩ : AnyOutput), x.cleared.site) with
  | error e p =>
    simp only [hrun] at hclosed
    cases hclosed
  | ok a p =>
    simp only [hrun, Answer.moved.injEq] at hclosed
    rw [← hclosed.2]
    exact hends.ok hrun

-- A file that was closed with room for all of it is cached whole for those who open it.
theorem Ready.of_shelved (hshelved : CachedWriter.Shelved capacity j d name length x.site)
    (hfew : Grid.count length ≤ capacity) (hover : Over start i d j) (h : Intact start x)
    (hreads : d.readsCached name purpose = true)
    (hopened : (x.step (.openInput (.directory i) name purpose handle)).1.answer.isOpened = true) :
    ∃ label, label.length = length ∧ (x.step (.openInput (.directory i) name purpose handle)).2.Ready
      handle label (· < Grid.count label.length) := by
  obtain ⟨sh, file, hshelf, hfile, rfl, hrecent⟩ := hshelved
  refine ⟨_, rfl, Ready.openInput h hover hreads hshelf hfile (fun block hblock => ?_) hopened⟩
  exact (hrecent hfew).holds (FileCache.mem_backward.mpr hblock)

end Writes

theorem Over.admits (hover : Over start i d j) : (start.volume (.directory i)).isOk = true := by
  rw [Session.volume, hover.mounted]
  rfl

theorem Step.IsWrite.admits (hs : s.IsWrite out) (start : Session) : start.Admits s := by
  cases s with
  | write | flush => trivial
  | _ => exact hs.elim

-- After any steps over stores in memory, whatever they left in the cache: a read of a file that
-- succeeds, and whose blocks the cache has room for, is served without the store when it is made
-- again, by the same input, a copy of it, or one that is opened on the file while it is still what
-- it was; and a file that is created, written and closed without anything between, and that the
-- cache has room for, is read without the store from then on.
theorem served_warm {cache : Option Sizing} {memory : Memory} {depth : Nat}
    {backends : List BackendSpec} {directories : List DirectorySpec}
    (hmemory : ∀ spec ∈ backends, spec.InMemory)
    (hnew : new cache depth backends directories memory = .ok start) (hover : Over start i d j)
    (hlayout : start.site.tier.layout = some (capacity, size))
    (hreads : ∀ purpose, d.readsCached name purpose = true) (steps : List Step)
    (hsteps : ∀ s ∈ steps, start.Admits s) :
    let x := start.after steps
    (∀ handle position len bytes stamp,
      start.origins i j (fun _ => none) steps handle = some ⟨name, stamp⟩ →
      (x.step (.read handle len)).1.answer = .delivered ⟨bytes, none⟩ len (position + len) →
      (Grid.touched position len).length ≤ capacity →
      let y := (x.step (.read handle len)).2
      y.Warm handle position len ∧
        (∀ copy, (y.step (.clone handle copy)).1.answer.isOpened = true →
          (y.step (.clone handle copy)).2.Warm copy position len) ∧
        ∀ purpose copy, y.stampOf j name = some stamp →
          (y.step (.openInput (.directory i) name purpose copy)).1.answer.isOpened = true →
          (y.step (.openInput (.directory i) name purpose copy)).2.Warm copy position len) ∧
    ∀ purpose out calls length handle purpose' moves position len,
      d.writesCached name purpose = true →
      (x.step (.create (.directory i) name purpose out)).1.answer.isCreated = true →
      (∀ s ∈ calls, s.IsWrite out) →
      let written := (x.step (.create (.directory i) name purpose out)).2.after calls
      (written.step (.closeOutput out)).1.answer = .moved none length →
      Grid.count length ≤ capacity →
      let closed := (written.step (.closeOutput out)).2
      (closed.step (.openInput (.directory i) name purpose' handle)).1.answer.isOpened = true →
      (∀ s ∈ moves, s.IsRead handle) → position + len ≤ length →
      ((closed.step (.openInput (.directory i) name purpose' handle)).2.after moves).Warm
        handle position len := by
  have hstart := new_fresh hmemory hnew
  obtain ⟨hx, _⟩ := hstart.intact_start.after hstart hsteps
  refine ⟨?_, ?_⟩
  · intro handle position len bytes stamp horigin hread hfew
    have htraced : Traced d j start fun _ => none := fun _ _ ho => nomatch ho
    have htraces := htraced.after hover hstart.intact_start hstart hsteps handle _ horigin hreads
    exact htraces.warm_again hover hx hstart hlayout hreads hread hfew rfl
  · intro purpose out calls length handle purpose' moves position len hwrites hcreated hcalls written
      hclosed hfew closed hopened hmoves hin
    have hadmits : start.Admits (.create (.directory i) name purpose out) := hover.admits
    obtain ⟨hmade, _⟩ := hx.step hstart hadmits
    obtain ⟨hwritten, _⟩ := hmade.after hstart fun s hs => (hcalls s hs).admits start
    obtain ⟨hafter, _⟩ := hwritten.step (s := .closeOutput out) hstart trivial
    have hrecords := (hover.create_records hx.cleared hlayout hwrites hcreated).after hcalls
    obtain ⟨label, rfl, hready⟩ := Ready.of_shelved (hrecords.close hclosed) hfew hover hafter
      (hreads purpose') hopened
    exact (hready.after hmoves).warm hin fun span hspan => Grid.block_lt_count hspan hin

-- A cache of one block, which is read again and then replaced by that of the next version.
theorem served_warm_replaced : ∃ start,
    new (some (.ofLayout 1 2 8192)) 1 [.memory] [⟨"d", .backend 0, {}, false⟩] = .ok start ∧
      let steps : List Step := [.create (.directory 0) "f" .general "o", .write "o" ⟨#[1, 2, 3]⟩,
        .closeOutput "o", .openInput (.directory 0) "f" .general "h"]
      let x := start.after steps
      let y := (x.step (.read "h" 2)).2
      let written := (x.step (.create (.directory 0) "f" .general "o")).2.after
        [.write "o" ⟨#[4, 5]⟩, .flush "o", .write "o" ⟨#[6]⟩]
      let closed := (written.step (.closeOutput "o")).2
      y.Warm "h" 0 2 ∧ (y.step (.clone "h" "c")).2.Warm "c" 0 2 ∧
        (y.step (.openInput (.directory 0) "f" .merge "k")).2.Warm "k" 0 2 ∧
          ((closed.step (.openInput (.directory 0) "f" .general "r")).2.after [.read "r" 1]).Warm
            "r" 1 2 := by
  refine ⟨_, rfl, ?_⟩
  have hmemory : ∀ spec ∈ [BackendSpec.memory], spec.InMemory := by
    simp only [List.forall_mem_cons]
    exact ⟨trivial, List.forall_mem_nil _⟩
  obtain ⟨hagain, hwhole⟩ := served_warm hmemory
    (show new (some (.ofLayout 1 2 8192)) 1 [.memory] [⟨"d", .backend 0, {}, false⟩] = _ from rfl)
    (show Over _ 0 _ 0 from ⟨Nat.zero_lt_one, rfl⟩) rfl
    (show ∀ purpose, Directory.readsCached _ "f" purpose = true from fun _ => rfl)
    [.create (.directory 0) "f" .general "o", .write "o" ⟨#[1, 2, 3]⟩, .closeOutput "o",
      .openInput (.directory 0) "f" .general "h"] (by
      simp only [List.forall_mem_cons]
      exact ⟨rfl, trivial, trivial, rfl, List.forall_mem_nil _⟩)
  obtain ⟨hsame, hcopy, hopened⟩ := hagain "h" 0 2 ⟨#[1, 2]⟩ 2 (by decide +kernel)
    (by decide +kernel) (by decide +kernel)
  refine ⟨hsame, hcopy "c" (by decide +kernel), hopened .merge "k" (by decide +kernel)
    (by decide +kernel), ?_⟩
  refine hwhole .general "o" [.write "o" ⟨#[4, 5]⟩, .flush "o", .write "o" ⟨#[6]⟩] 3 "r" .general
    [.read "r" 1] 1 2 rfl (by decide +kernel) ?_ (by decide +kernel) (by decide +kernel)
    (by decide +kernel) ?_ (by decide)
  all_goals simp only [List.forall_mem_cons]
  · exact ⟨rfl, rfl, rfl, List.forall_mem_nil _⟩
  · exact ⟨rfl, List.forall_mem_nil _⟩

end Session

end Blockwise
