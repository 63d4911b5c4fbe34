import Blockwise.Proofs.Session.Built
import Blockwise.Proofs.Session.Replacement

namespace Blockwise

open Act

namespace Output

variable {ο β : Type} {g : Regime (Site β)} {sound : ο → Prop}

-- What is staged fits a block, on every layer, and so does what was handed on of it.
def StagedLayers : (n : Nat) → Layered ο (Site β) n → Prop
  | 0, _ => True
  | n + 1, (w : CachedWriter (Layered ο (Site β) n) (Site β)) =>
    (w.flushed ≤ w.staged.size ∧ w.staged.size ≤ Grid.blockSize) ∧ StagedLayers n w.below

def Staged (out : Output ο β) : Prop := StagedLayers out.layers out.stream

theorem SoundLayers.staged {n : Nat} {stream : Layered ο (Site β) n}
    (h : SoundLayers g sound n stream) : StagedLayers n stream := by
  induction n with
  | zero => trivial
  | succ n ih =>
    have h : CachedWriter.Sound g (SoundLayers g sound n) stream := h
    exact ⟨⟨h.flushed_le, h.staged_le⟩, ih h.below⟩

end Output

namespace Session

variable {x x' start : Session} {α : Type}

-- An answer that is no broken contract. What is delivered fits the buffer that was given.
def Answer.Unbroken : Answer → Prop
  | .failed e => e.Handled
  | .moved failure _ => ∀ e ∈ failure, e.Handled
  | .delivered delivery len _ => delivery.Within len
  | _ => True

-- A step names volumes that are there, and asks the cache itself for no more than a block holds.
def Admits (x : Session) : Step → Prop
  | .openInput on _ _ _ | .create on _ _ _ | .list on | .length on _ | .stamp on _ | .hasFile on _
  | .stamped on | .delete on _ | .sync on _ | .closeVolume on | .lock on _ _ | .readWhole on _ _
  | .writeWhole on _ _ _ => (x.volume on).isOk = true
  | .copy i dest _ _ _ => (x.mounted i).isOk = true ∧ (x.volume dest).isOk = true
  | .cacheName i _ | .choices i _ _ | .policy i | .cacheSize i => (x.mounted i).isOk = true
  | .put i _ _ | .makeDirectories i _ | .removeRoot i | .setFault i _ | .clearFault i _ =>
    (x.backend i).isOk = true
  | .cache s => Tier.StepFits x.site.tier.layout s
  | .unlock _ | .seek _ _ | .read _ _ | .clone _ _ | .wrapInput _ _ | .write _ _ | .flush _
  | .closeOutput _ | .wrapOutput _ _ _ _ | .drop _ => True

-- What the calls of a session keep that was fresh at first.
abbrev regime (start : Session) : Regime (Site World) :=
  Site.regime start.pools start.site.tier.layout (World.regime start.stores)

-- The volumes are those of the start, and every handle is on a store that is there.
structure Intact (start x : Session) : Prop where
  site : start.regime.holds x.site
  backends : x.backends = start.backends
  directories : x.directories = start.directories
  inputs : ∀ (handle : String) (r : Reader AnyInput), x.inputs[handle]? = some r →
    r.source.Sound start.pools (Sited.InMemory start.stores)
  outputs : ∀ (handle : String) (out : AnyOutput), x.outputs[handle]? = some out →
    out.Sound start.regime (Sited.InMemory start.stores)
  locks : ∀ (handle : String) (lock : World.Lock), x.locks[handle]? = some lock →
    lock.InMemory start.stores

theorem Fresh.intact_start (h : start.Fresh) : Intact start start := by
  refine ⟨⟨h.intact, rfl, h.dated⟩, rfl, rfl, fun handle r hr => ?_, fun handle out hout => ?_,
    fun handle lock hlock => ?_⟩
  · rw [h.inputs] at hr
    exact absurd hr (Maps.getElem?_empty_ne handle r)
  · rw [h.outputs] at hout
    exact absurd hout (Maps.getElem?_empty_ne handle out)
  · rw [h.locks] at hlock
    exact absurd hlock (Maps.getElem?_empty_ne handle lock)

-- How a step of an intact session ends.
structure Goes (start x : Session) (p : Answer × Session) : Prop where
  intact : Intact start p.2
  moves : start.regime.moves x.site p.2.site
  unbroken : p.1.Unbroken

namespace Intact

variable {site : Site World} {handle : String}

theorem volume_eq (h : Intact start x) (on : Target) : x.volume on = start.volume on := by
  cases on with
  | backend i => simp only [volume, backend, h.backends]
  | directory i => simp only [volume, mounted, h.directories]

theorem withSite (h : Intact start x) (hsite : start.regime.holds site) :
    Intact start { x with site } :=
  ⟨hsite, h.backends, h.directories, h.inputs, h.outputs, h.locks⟩

theorem keepInput (h : Intact start x) {r : Reader AnyInput}
    (hr : r.source.Sound start.pools (Sited.InMemory start.stores)) (handle : String) :
    Intact start (x.keepInput handle r) := by
  refine ⟨h.site, h.backends, h.directories, fun other r' hr' => ?_, h.outputs, h.locks⟩
  rw [Session.keepInput, Maps.getElem?_insert] at hr'
  split at hr'
  · exact Option.some.inj hr' ▸ hr
  · exact h.inputs other r' hr'

theorem putOutput (h : Intact start x) {out : AnyOutput}
    (hout : out.Sound start.regime (Sited.InMemory start.stores)) (handle : String) :
    Intact start { x with outputs := x.outputs.insert handle out } := by
  refine ⟨h.site, h.backends, h.directories, h.inputs, fun other out' hout' => ?_, h.locks⟩
  rw [Maps.getElem?_insert] at hout'
  split at hout'
  · exact Option.some.inj hout' ▸ hout
  · exact h.outputs other out' hout'

theorem sink_safe (start : Session) :
    sink.Safe start.regime (Output.Sound start.regime (Sited.InMemory start.stores)) :=
  Output.sink_safe (World.sink_safe start.stores)

theorem feed_safe (start : Session) :
    feed.Safe start.regime (Source.Sound start.pools (Sited.InMemory start.stores)) :=
  Source.feed_safe (World.feed_safe start.stores)

theorem dropOutput (h : Intact start x) (handle : String) :
    Intact start (x.dropOutput handle) ∧
      start.regime.moves x.site (x.dropOutput handle).site := by
  unfold Session.dropOutput
  cases hout : x.outputs[handle]? with
  | none => exact ⟨h, start.regime.refl _⟩
  | some out =>
    obtain ⟨hsite, hmoves⟩ := (sink_safe start).drop out x.site (h.outputs handle out hout) h.site
    refine ⟨⟨hsite, h.backends, h.directories, h.inputs, fun other out' hout' => ?_, h.locks⟩, hmoves⟩
    rw [Maps.getElem?_erase] at hout'
    split at hout'
    · cases hout'
    · exact h.outputs other out' hout'

theorem dropLock (h : Intact start x) (handle : String) :
    Intact start (x.dropLock handle) ∧ start.regime.moves x.site (x.dropLock handle).site := by
  unfold Session.dropLock
  cases hlock : x.locks[handle]? with
  | none => exact ⟨h, start.regime.refl _⟩
  | some lock =>
    have hleaves := Site.leaves_store h.site ((World.keeper_safe start.stores).drop lock x.site.store
      (h.locks handle lock hlock) h.site.2)
    refine ⟨⟨hleaves.1, h.backends, h.directories, h.inputs, h.outputs, fun other lock' hlock' => ?_⟩,
      hleaves.2⟩
    rw [Maps.getElem?_erase] at hlock'
    split at hlock'
    · cases hlock'
    · exact h.locks other lock' hlock'

theorem keepOutput (h : Intact start x) {out : AnyOutput}
    (hout : out.Sound start.regime (Sited.InMemory start.stores)) (handle : String) :
    Intact start (x.keepOutput handle out) ∧
      start.regime.moves x.site (x.keepOutput handle out).site :=
  ⟨(h.dropOutput handle).1.putOutput hout handle, (h.dropOutput handle).2⟩

theorem keepLock (h : Intact start x) {lock : World.Lock} (hlock : lock.InMemory start.stores)
    (handle : String) : Intact start (x.keepLock handle lock) ∧
      start.regime.moves x.site (x.keepLock handle lock).site := by
  obtain ⟨hdropped, hmoves⟩ := h.dropLock handle
  refine ⟨⟨hdropped.site, hdropped.backends, hdropped.directories, hdropped.inputs, hdropped.outputs,
    fun other lock' hlock' => ?_⟩, hmoves⟩
  rw [Session.keepLock, Maps.getElem?_insert] at hlock'
  split at hlock'
  · exact Option.some.inj hlock' ▸ hlock
  · exact hdropped.locks other lock' hlock'

-- Nothing happened but an answer.
theorem stays (h : Intact start x) {answer : Answer} (hanswer : answer.Unbroken) :
    Goes start x (answer, x) := ⟨h, start.regime.refl _, hanswer⟩

theorem answering (h : Intact start x) {act : Act (Site World) α} {done : α → Prop}
    (hact : Act.Safe start.regime act done) {answer : α → Answer}
    (hanswer : ∀ a, (answer a).Unbroken) : Goes start x (x.answering act answer) := by
  have hends := hact x.site h.site
  unfold Session.answering
  cases hrun : act x.site with
  | ok a site =>
    obtain ⟨hleaves, _⟩ := hends.ok hrun
    exact ⟨h.withSite hleaves.1, hleaves.2, hanswer a⟩
  | error e site =>
    obtain ⟨hleaves, hhandled⟩ := hends.error hrun
    exact ⟨h.withSite hleaves.1, hleaves.2, hhandled⟩

variable {on : Target} {handle : String}

-- A call of a volume that is there ends in a result or in an error.
theorem called (h : Intact start x) (hstart : start.Fresh) (hon : (start.volume on).isOk = true)
    {call : AnyVolume → Act (Site World) α} {sound : α → Prop}
    (hcall : ∀ v, Sturdy v start.stores start.pools start.site.tier.layout →
      Act.Safe start.regime (call v) sound) :
    ∃ v, x.volume on = .ok v ∧
      ((∃ a site, call v x.site = .ok a site ∧ start.regime.Leaves x.site site ∧ sound a) ∨
        ∃ e site, call v x.site = .error e site ∧ start.regime.Leaves x.site site ∧ e.Handled) := by
  cases hv : start.volume on with
  | error b =>
    rw [hv] at hon
    cases hon
  | ok v =>
    have hends := hcall v ((hstart.built hv).sturdy _) x.site h.site
    refine ⟨v, (h.volume_eq on).trans hv, ?_⟩
    cases hrun : call v x.site with
    | ok a site => exact .inl ⟨a, site, rfl, hends.ok hrun⟩
    | error e site => exact .inr ⟨e, site, rfl, hends.error hrun⟩

theorem onVolume (h : Intact start x) (hstart : start.Fresh) (hon : (start.volume on).isOk = true)
    {act : AnyVolume → Act (Site World) α} {done : α → Prop}
    (hact : ∀ v, Sturdy v start.stores start.pools start.site.tier.layout →
      Act.Safe start.regime (act v) done) {answer : α → Answer}
    (hanswer : ∀ a, (answer a).Unbroken) : Goes start x (x.onVolume on act answer) := by
  obtain ⟨v, hv, ⟨a, site, hrun, hleaves, _⟩ | ⟨e, site, hrun, hleaves, hhandled⟩⟩ :=
    h.called hstart hon hact
  · simp only [Session.onVolume, hv, Session.answering, hrun]
    exact ⟨h.withSite hleaves.1, hleaves.2, hanswer a⟩
  · simp only [Session.onVolume, hv, Session.answering, hrun]
    exact ⟨h.withSite hleaves.1, hleaves.2, hhandled⟩

theorem openInput (h : Intact start x) (hstart : start.Fresh) (hon : (start.volume on).isOk = true)
    (name : String) (purpose : Purpose) (handle : String) :
    Goes start x (x.openInput on name purpose handle) := by
  obtain ⟨v, hv, ⟨source, site, hrun, hleaves, hsource⟩ | ⟨e, site, hrun, hleaves, hhandled⟩⟩ :=
    h.called hstart hon fun _ hv => hv.openInput name purpose
  · simp only [Session.openInput, hv, hrun]
    exact ⟨(h.withSite hleaves.1).keepInput hsource handle, hleaves.2, trivial⟩
  · simp only [Session.openInput, hv, hrun]
    exact ⟨h.withSite hleaves.1, hleaves.2, hhandled⟩

theorem create (h : Intact start x) (hstart : start.Fresh) (hon : (start.volume on).isOk = true)
    (name : String) (purpose : Purpose) (handle : String) :
    Goes start x (x.create on name purpose handle) := by
  obtain ⟨v, hv, ⟨out, site, hrun, hleaves, hout⟩ | ⟨e, site, hrun, hleaves, hhandled⟩⟩ :=
    h.called hstart hon fun _ hv => hv.create name purpose
  · simp only [Session.create, hv, hrun]
    obtain ⟨hkept, hmoves⟩ := (h.withSite hleaves.1).keepOutput hout handle
    exact ⟨hkept, start.regime.trans hleaves.2 hmoves, trivial⟩
  · simp only [Session.create, hv, hrun]
    exact ⟨h.withSite hleaves.1, hleaves.2, hhandled⟩

theorem lock (h : Intact start x) (hstart : start.Fresh) (hon : (start.volume on).isOk = true)
    (name handle : String) : Goes start x (x.lock on name handle) := by
  obtain ⟨v, hv, ⟨lock, site, hrun, hleaves, hlock⟩ | ⟨e, site, hrun, hleaves, hhandled⟩⟩ :=
    h.called hstart hon fun _ hv => hv.lock name
  · simp only [Session.lock, hv, hrun]
    obtain ⟨hkept, hmoves⟩ := (h.withSite hleaves.1).keepLock hlock handle
    exact ⟨hkept, start.regime.trans hleaves.2 hmoves, trivial⟩
  · simp only [Session.lock, hv, hrun]
    exact ⟨h.withSite hleaves.1, hleaves.2, hhandled⟩

theorem unlock (h : Intact start x) (handle : String) : Goes start x (x.unlock handle) := by
  unfold Session.unlock
  cases hlock : x.locks[handle]? with
  | none => exact h.stays trivial
  | some lock =>
    have hkeeper := World.keeper_safe start.stores
    have hkeep (lock : World.Lock) (w : World) (hlock : lock.InMemory start.stores)
        (hleaves : (World.regime start.stores).Leaves x.site.store w) :
        Intact start { x with
            site := { x.site with store := World.keeper.drop lock w }
            locks := x.locks.erase handle } ∧
          start.regime.moves x.site { x.site with store := World.keeper.drop lock w } := by
      have hdropped := Site.leaves_store h.site
        (hleaves.trans (hkeeper.drop lock w hlock hleaves.1))
      refine ⟨⟨hdropped.1, h.backends, h.directories, h.inputs, h.outputs,
        fun other lock' hlock' => ?_⟩, hdropped.2⟩
      rw [Maps.getElem?_erase] at hlock'
      split at hlock'
      · cases hlock'
      · exact h.locks other lock' hlock'
    have hends := hkeeper.release (lock, x.site.store) ⟨h.locks handle lock hlock, h.site.2⟩
    simp only
    cases hrun : World.keeper.release (lock, x.site.store) with
    | ok a p =>
      obtain ⟨⟨⟨hlock', hw⟩, hmoves⟩, _⟩ := hends.ok hrun
      obtain ⟨hkept, hmoves'⟩ := hkeep p.1 p.2 hlock' ⟨hw, hmoves⟩
      exact ⟨hkept, hmoves', trivial⟩
    | error e p =>
      obtain ⟨⟨⟨hlock', hw⟩, hmoves⟩, hhandled⟩ := hends.error hrun
      obtain ⟨hkept, hmoves'⟩ := hkeep p.1 p.2 hlock' ⟨hw, hmoves⟩
      exact ⟨hkept, hmoves', hhandled⟩

theorem seek (h : Intact start x) (handle : String) (position : Nat) :
    Goes start x (x.seek handle position) := by
  unfold Session.seek onInput
  cases hr : x.inputs[handle]? with
  | none => exact h.stays trivial
  | some r =>
    have hsource := h.inputs handle r hr
    have hends := (feed_safe start).seek r.source position hsource x.site h.site
    simp only [Reader.seek]
    cases hrun : feed.seek r.source position x.site with
    | ok a site =>
      obtain ⟨hleaves, _⟩ := hends.ok hrun
      exact ⟨(h.withSite hleaves.1).keepInput (r := { r with position }) hsource handle, hleaves.2,
        fun e he => absurd he (Option.not_mem_none e)⟩
    | error e site =>
      obtain ⟨hleaves, hhandled⟩ := hends.error hrun
      exact ⟨(h.withSite hleaves.1).keepInput hsource handle, hleaves.2,
        fun _ he => Option.some.inj he ▸ hhandled⟩

theorem read (h : Intact start x) (handle : String) (len : Nat) :
    Goes start x (x.read handle len) := by
  unfold Session.read onInput
  cases hr : x.inputs[handle]? with
  | none => exact h.stays trivial
  | some r =>
    have hsource := h.inputs handle r hr
    obtain ⟨hleaves, hwithin⟩ := (feed_safe start).read r.source r.position len x.site hsource h.site
    simp only [Reader.read]
    rcases hrun : feed.read r.source r.position len x.site with ⟨⟨bytes, failure⟩, site⟩
    rw [hrun] at hleaves hwithin
    cases failure with
    | none =>
      exact ⟨(h.withSite hleaves.1).keepInput (r := { r with position := r.position + len }) hsource
        handle, hleaves.2, hwithin⟩
    | some e => exact ⟨(h.withSite hleaves.1).keepInput hsource handle, hleaves.2, hwithin⟩

theorem clone (h : Intact start x) (handle copy : String) :
    Goes start x (x.clone handle copy) := by
  unfold Session.clone onInput
  cases hr : x.inputs[handle]? with
  | none => exact h.stays trivial
  | some r =>
    have hclone : Act.Safe start.regime (r.clone feed) fun r' =>
        r'.source.Sound start.pools (Sited.InMemory start.stores) :=
      ((feed_safe start).clone r.source (h.inputs handle r hr)).bind fun _ hsource => .pure hsource
    have hends := hclone x.site h.site
    simp only
    cases hrun : r.clone feed x.site with
    | error e site =>
      obtain ⟨hleaves, hhandled⟩ := hends.error hrun
      exact ⟨h.withSite hleaves.1, hleaves.2, hhandled⟩
    | ok r' site =>
      obtain ⟨hleaves, hsource⟩ := hends.ok hrun
      exact ⟨(h.withSite hleaves.1).keepInput hsource copy, hleaves.2, trivial⟩

-- An input may be wrapped at any time, since the shared pool is always there.
theorem wrapInput (h : Intact start x) (hstart : start.Fresh) (handle cacheName : String) :
    Goes start x (x.wrapInput handle cacheName) := by
  unfold Session.wrapInput onInput
  cases hr : x.inputs[handle]? with
  | none => exact h.stays trivial
  | some r =>
    refine ⟨h.keepInput ?_ handle, start.regime.refl _, trivial⟩
    exact ⟨h.inputs handle r hr, hstart.pools_pos⟩

theorem onOutput (h : Intact start x) (handle : String) {act : Act (AnyOutput × Site World) Unit}
    (hact : Act.Safe (start.regime.withHandle
      (Output.Sound start.regime (Sited.InMemory start.stores))) act fun _ => True) :
    Goes start x (x.onOutput handle act) := by
  unfold Session.onOutput
  cases hout : x.outputs[handle]? with
  | none => exact h.stays trivial
  | some out =>
    have hends := hact (out, x.site) ⟨h.outputs handle out hout, h.site⟩
    simp only
    cases hrun : act (out, x.site) with
    | ok a p =>
      obtain ⟨⟨⟨hsound, hsite⟩, hmoves⟩, _⟩ := hends.ok hrun
      exact ⟨(h.withSite hsite).putOutput hsound handle, hmoves, nofun⟩
    | error e p =>
      obtain ⟨⟨⟨hsound, hsite⟩, hmoves⟩, hhandled⟩ := hends.error hrun
      exact ⟨(h.withSite hsite).putOutput hsound handle, hmoves,
        fun _ he => Option.some.inj he ▸ hhandled⟩

theorem wrapOutput (h : Intact start x) (handle location : String) (final : Option String)
    (name : String) : Goes start x (x.wrapOutput handle location final name) := by
  unfold Session.wrapOutput
  cases hout : x.outputs[handle]? with
  | none => exact h.stays trivial
  | some out =>
    refine ⟨h.putOutput ((h.outputs handle out hout).cached location ?_) handle,
      start.regime.refl _, trivial⟩
    cases final with
    | some cacheName => exact .pure trivial
    | none => exact .fail _

theorem drop (h : Intact start x) (handle : String) : Goes start x (x.drop handle) := by
  have herased : Intact start { x with inputs := x.inputs.erase handle } := by
    refine ⟨h.site, h.backends, h.directories, fun other r hr => ?_, h.outputs, h.locks⟩
    rw [Maps.getElem?_erase] at hr
    split at hr
    · cases hr
    · exact h.inputs other r hr
  obtain ⟨houtput, hmoves⟩ := herased.dropOutput handle
  obtain ⟨hlock, hmoves'⟩ := houtput.dropLock handle
  exact ⟨hlock, start.regime.trans hmoves hmoves', trivial⟩

theorem onBackend (h : Intact start x) {i : Nat} (hi : (start.backend i).isOk = true)
    {f : Guarded Faults MemoryStore → Guarded Faults MemoryStore}
    (hf : ∀ t, World.memoryRegime.holds t → World.memoryRegime.Leaves t (f t))
    (g : Guarded Faults DiskStore → Guarded Faults DiskStore) {answer : Answer}
    (hanswer : answer.Unbroken) : Goes start x (x.onBackend i f g answer) := by
  unfold Session.onBackend
  have hbackend : x.backend i = start.backend i := by simp only [backend, h.backends]
  rw [hbackend]
  cases hb : start.backend i with
  | error b =>
    rw [hb] at hi
    cases hi
  | ok b =>
    have hstore : (World.regime start.stores).Leaves x.site.store
        (World.dropHandle (fun _ => f) (fun _ => g) b.address x.site.store) :=
      World.leaves_dropHandle (fun _ t => hf t) h.site.2
    have hleaves := Site.leaves_store h.site hstore
    exact ⟨h.withSite hleaves.1, hleaves.2, hanswer⟩

theorem onDirectory (h : Intact start x) (hstart : start.Fresh) {i : Nat}
    (hi : (start.mounted i).isOk = true) {f : Mounted → Answer × Session}
    (hf : ∀ m : Mounted, Sturdy m.below start.stores start.pools start.site.tier.layout →
      Sturdy m.volume start.stores start.pools start.site.tier.layout → Goes start x (f m)) :
    Goes start x (x.onDirectory i f) := by
  unfold Session.onDirectory
  have hmounted : x.mounted i = start.mounted i := by simp only [mounted, h.directories]
  rw [hmounted]
  cases hm : start.mounted i with
  | error b =>
    rw [hm] at hi
    cases hi
  | ok m =>
    obtain ⟨hbelow, hvolume⟩ := hstart.directories m (mem_of_elementAt hm)
    exact hf m (hbelow.sturdy _) (hvolume.sturdy _)

-- One case per step: each is a call that is safe, or it calls nothing.
theorem perform (h : Intact start x) (hstart : start.Fresh) {s : Step} (hs : start.Admits s) :
    Goes start x (x.perform s) := by
  cases s with
  | openInput on name purpose handle => exact h.openInput hstart hs name purpose handle
  | create on name purpose handle => exact h.create hstart hs name purpose handle
  | list on => exact h.onVolume hstart hs (fun _ hv => hv.list) fun _ => trivial
  | length on name => exact h.onVolume hstart hs (fun _ hv => hv.length name) fun _ => trivial
  | stamp on name => exact h.onVolume hstart hs (fun _ hv => hv.stamp name) fun _ => trivial
  | hasFile on name => exact h.onVolume hstart hs (fun _ hv => hv.hasFile name) fun _ => trivial
  | stamped on =>
    have hstamped (v : AnyVolume) :
        Act.Safe start.regime (pure v.stamped : Act (Site World) Bool) fun _ => True := .pure trivial
    exact h.onVolume hstart hs (fun v _ => hstamped v) fun _ => trivial
  | delete on name => exact h.onVolume hstart hs (fun _ hv => hv.delete name) fun _ => trivial
  | sync on names => exact h.onVolume hstart hs (fun _ hv => hv.sync names) fun _ => trivial
  | closeVolume on => exact h.onVolume hstart hs (fun _ hv => hv.close) fun _ => trivial
  | lock on name handle => exact h.lock hstart hs name handle
  | unlock handle => exact h.unlock handle
  | readWhole on name purpose =>
    exact h.onVolume hstart hs (fun _ hv => hv.readWhole (feed_safe start) name purpose)
      fun _ => trivial
  | writeWhole on name purpose data =>
    exact h.onVolume hstart hs (fun _ hv => hv.writeWhole (sink_safe start) name purpose data)
      fun _ => trivial
  | copy i dest name destName purpose =>
    obtain ⟨hi, hdest⟩ := hs
    exact h.onDirectory hstart hi fun m _ hvolume => h.onVolume hstart hdest (fun _ hv =>
      hvolume.copy (feed_safe start) hv (sink_safe start) name destName purpose) fun _ => trivial
  | cacheName i name =>
    exact h.onDirectory hstart hs fun m hbelow _ =>
      h.answering (Directory.safe_cacheName hbelow name) fun _ => trivial
  | choices i name purpose => exact h.onDirectory hstart hs fun _ _ _ => h.stays trivial
  | policy i => exact h.onDirectory hstart hs fun _ _ _ => h.stays trivial
  | cacheSize i => exact h.onDirectory hstart hs fun _ _ _ => h.stays trivial
  | seek handle position => exact h.seek handle position
  | read handle len => exact h.read handle len
  | clone handle copy => exact h.clone handle copy
  | wrapInput handle cacheName => exact h.wrapInput hstart handle cacheName
  | write handle data => exact h.onOutput handle ((sink_safe start).write data)
  | flush handle => exact h.onOutput handle (sink_safe start).flush
  | closeOutput handle => exact h.onOutput handle (sink_safe start).close
  | wrapOutput handle location final name => exact h.wrapOutput handle location final name
  | drop handle => exact h.drop handle
  | put i name data =>
    refine h.onBackend hs (fun t ht => ?_) _ trivial
    exact MemoryStore.leaves_publish ht name data
  | makeDirectories i name => exact h.onBackend hs (fun _ ht => .refl ht) _ trivial
  | removeRoot i => exact h.onBackend hs (fun _ ht => .refl ht) _ trivial
  | setFault i fault =>
    refine h.onBackend hs (fun t ht => ?_) _ trivial
    exact ⟨ht, MemoryStore.regime.refl t.inner⟩
  | clearFault i kind =>
    refine h.onBackend hs (fun t ht => ?_) _ trivial
    exact ⟨ht, MemoryStore.regime.refl t.inner⟩
  | cache s => exact h.answering (Site.safe_onTier (Tier.safe_step hs)) fun _ => trivial

theorem step (h : Intact start x) (hstart : start.Fresh) {s : Step} (hs : start.Admits s) :
    Intact start (x.step s).2 ∧ start.regime.moves x.site (x.step s).2.site ∧
      (x.step s).1.answer.Unbroken := by
  have hfresh : Intact start
      { x with site := { x.site with tier := { x.site.tier with journal := #[] } } } :=
    h.withSite ⟨h.site.1.of_files rfl, h.site.2⟩
  obtain ⟨hintact, hmoves, hunbroken⟩ := hfresh.perform hstart hs
  exact ⟨hintact, hmoves, hunbroken⟩

theorem after (h : Intact start x) (hstart : start.Fresh) {steps : List Step}
    (hsteps : ∀ s ∈ steps, start.Admits s) :
    Intact start (x.after steps) ∧ start.regime.moves x.site (x.after steps).site := by
  induction steps generalizing x with
  | nil => exact ⟨h, start.regime.refl _⟩
  | cons s rest ih =>
    obtain ⟨hs, hrest⟩ := List.forall_mem_cons.mp hsteps
    obtain ⟨hstep, hmoves, _⟩ := h.step hstart hs
    obtain ⟨hafter, hmoves'⟩ := ih hstep hrest
    exact ⟨hafter, start.regime.trans hmoves hmoves'⟩

end Intact

-- After any steps on stores in memory, whether they succeeded or not, the next step answers without
-- a broken contract, and what it leaves staged in the outputs fits a block.
theorem step_unbroken {cache : Option Sizing} {memory : Memory} {depth : Nat}
    {backends : List BackendSpec} {directories : List DirectorySpec}
    (hmemory : ∀ spec ∈ backends, spec.InMemory)
    (hnew : new cache depth backends directories memory = .ok start) (steps : List Step)
    (hsteps : ∀ s ∈ steps, start.Admits s) {s : Step} (hs : start.Admits s) :
    ((start.after steps).step s).1.answer.Unbroken ∧
      ∀ (handle : String) (out : AnyOutput),
        ((start.after steps).step s).2.outputs[handle]? = some out → out.Staged := by
  have hstart := new_fresh hmemory hnew
  obtain ⟨hafter, _⟩ := hstart.intact_start.after hstart hsteps
  obtain ⟨hstep, _, hunbroken⟩ := hafter.step hstart hs
  exact ⟨hunbroken, fun handle out hout => (hstep.outputs handle out hout).staged⟩

-- A write that fails leaves a full block staged, and the next one hands it on; then an input is read
-- at the last position there is.
theorem step_unbroken_refused : ∃ start,
    new (some (.ofLayout 2 2 8192)) 1 [.memory, .minimal]
      [⟨"d", .backend 0, {}, true⟩, ⟨"e", .directory 0, {}, false⟩] = .ok start ∧
      let steps : List Step := [.create (.directory 1) "f" .general "o",
        .setFault 0 ⟨.write, "", 0, false⟩, .write "o" (Bytes.replicate 8192 1),
        .clearFault 0 .write, .write "o" ⟨#[1]⟩, .closeOutput "o",
        .openInput (.directory 1) "f" .general "r", .seek "r" 18446744073709551615]
      (∀ spec ∈ [BackendSpec.memory, .minimal], spec.InMemory) ∧ (∀ s ∈ steps, start.Admits s) ∧
        start.Admits (.read "r" 2) ∧
        ((start.after steps).step (.read "r" 2)).1.answer.Unbroken ∧
          ∀ (handle : String) (out : AnyOutput),
            ((start.after steps).step (.read "r" 2)).2.outputs[handle]? = some out → out.Staged := by
  refine ⟨_, rfl, ?_⟩
  have hmemory : ∀ spec ∈ [BackendSpec.memory, .minimal], spec.InMemory := by
    simp only [List.forall_mem_cons]
    exact ⟨trivial, trivial, List.forall_mem_nil _⟩
  refine ⟨hmemory, ?_, trivial, step_unbroken hmemory
    (show new (some (.ofLayout 2 2 8192)) 1 [.memory, .minimal]
      [⟨"d", .backend 0, {}, true⟩, ⟨"e", .directory 0, {}, false⟩] = _ from rfl) _ ?_ trivial⟩
  all_goals
    simp only [List.forall_mem_cons]
    exact ⟨rfl, rfl, trivial, rfl, trivial, trivial, rfl, trivial, List.forall_mem_nil _⟩

end Session

end Blockwise
