import Blockwise.Proofs.Client
import Blockwise.Proofs.Regime

namespace Blockwise

open Act

variable {ω β ι ο κ α : Type}

namespace Directory

variable {d : Directory} {v : Volume β ι ο κ} {below : Below β ι ο κ} {feed : Feed ι β}
  {name : String} {policy : Policy} {pool : Nat}

theorem eq_of_new (h : new name policy pool below = .ok d) : d = ⟨name, policy.normalized, pool⟩ := by
  unfold new at h
  dsimp only at h
  split at h
  · cases h
  · exact (Except.ok.inj h).symm

-- Without caching there is no difference to the volume below.
theorem volume_eq_below (hreads : d.policy.readCache = false) (hwrites : d.policy.writeCache = false) :
    d.volume feed below = below := by
  have hopen : d.openInput feed below = below.openInput := by
    funext name purpose
    simp [openInput, readsCached, hreads]
  have hcreate : d.create below = below.create := by
    funext name purpose
    simp [create, writesCached, hwrites]
  have hdelete : d.delete below = below.delete := by
    funext name
    simp [delete, Policy.enabled, hreads, hwrites]
  have hclose : d.close below = below.close := by
    simp [close, Policy.enabled, hreads, hwrites]
  rw [volume, hopen, hcreate, hdelete, hclose]

end Directory

namespace Policy

-- The allow-list of the policy has no ending that the name ends with.
def Excludes (p : Policy) (name : String) : Prop :=
  ∃ endings, p.endings = some endings ∧ endings.isEmpty = false ∧
    ∀ ending ∈ endings.toList, name.endsWith ending = false

theorem Excludes.not_admits {p : Policy} {name : String} (h : p.Excludes name) :
    p.normalized.admits name = false := by
  obtain ⟨endings, hendings, hsome, hnone⟩ := h
  have hsame : p.normalized = p := by simp [normalized, hendings, hsome]
  simp only [hsame, admits, hendings, List.any_eq_false]
  intro ending hmem
  simp [hnone ending hmem]

theorem normalized_readCache (p : Policy) : p.normalized.readCache = p.readCache := by
  unfold normalized
  split <;> rfl

theorem normalized_writeCache (p : Policy) : p.normalized.writeCache = p.writeCache := by
  unfold normalized
  split <;> rfl

end Policy

section Off

variable {tier : Tier} {p : Port ω β β ι ο κ} {dirs : ω → Directory}

-- A store, and the same store behind a tier that stays as it is.
def Behind (tier : Tier) (s : β) (t : Site β) : Prop := t = ⟨tier, s⟩

theorem matches_onStore (x : Act β α) : Matches (Behind tier) Eq x (Site.onStore x) := by
  rintro s _ rfl
  unfold Site.onStore onPart
  cases x s with
  | ok a s' => exact .ok rfl rfl
  | error e s' => exact .error rfl

theorem matches_onStore_map {α' : Type} {rel : α → α' → Prop} (x : Act β α) (f : α → α')
    (h : ∀ a, rel a (f a)) : Matches (Behind tier) rel x (f <$> Site.onStore x) := by
  have hmap : Matches (Behind tier) rel (id <$> x) (f <$> Site.onStore x) :=
    (matches_onStore x).map fun a _ hab => hab ▸ h a
  rwa [id_map] at hmap

-- A handle, and the same handle as one of a directory that does not cache.
def Unwrapped {α α' : Type} (wrap : α → α') (a : Opened ω α) (b : Opened ω α') : Prop :=
  b.handle = wrap a.handle

theorem matches_onPlain (x : Act (ο × β) Unit)
    (n : (n : Nat) → Act (Layered ο (Site β) n × Site β) Unit)
    (hzero : n 0 = onPart (fun (o, s) => (o, s.store))
      (fun (_, s) (o, store) => (o, { s with store })) x)
    (on : ω) (name : String) (purpose : Purpose) :
    Matches (Joined (Opened.Alike (Unwrapped Output.plain) on name purpose) (Behind tier)) Eq x
      (Output.onStream n) := by
  rintro ⟨o, s⟩ ⟨_, _⟩ ⟨rfl, rfl⟩
  simp only [Output.onStream, Output.plain]
  rw [hzero]
  simp only [onPart]
  cases x (o, s) with
  | ok a r => exact .ok rfl ⟨rfl, rfl⟩
  | error e r => exact .error ⟨rfl, rfl⟩

theorem matches_through (hreads : ∀ on, (dirs on).policy.readCache = false)
    (hwrites : ∀ on, (dirs on).policy.writeCache = false) :
    Port.Matches (Behind tier) (Unwrapped Source.plain) (Unwrapped Output.plain) p
      (p.through dirs) := by
  have hvolume : ∀ on, (p.through dirs).volume on = Directory.plain (p.volume on) := fun on =>
    Directory.volume_eq_below (hreads on) (hwrites on)
  constructor
  case openInput =>
    intro on name purpose
    rw [hvolume]
    exact matches_onStore_map _ _ fun _ => rfl
  case create =>
    intro on name purpose
    rw [hvolume]
    exact matches_onStore_map _ _ fun _ => rfl
  case lock =>
    intro on name
    rw [hvolume]
    exact matches_onStore_map _ _ fun _ => rfl
  case shown =>
    rintro on name purpose i _ rfl
    exact ⟨rfl, rfl⟩
  case seek =>
    rintro on name purpose i _ position rfl
    exact matches_onStore _
  case clone =>
    rintro on name purpose i _ rfl
    exact matches_onStore_map _ _ fun _ => rfl
  case written =>
    rintro on name purpose o _ rfl
    exact ⟨rfl, rfl⟩
  case write =>
    exact fun on name purpose data =>
      matches_onPlain _ (fun n => (Output.layeredSink p.sink n).write data) rfl on name purpose
  case flush =>
    exact fun on name purpose =>
      matches_onPlain _ (fun n => (Output.layeredSink p.sink n).flush) rfl on name purpose
  case closeOutput =>
    exact fun on name purpose =>
      matches_onPlain _ (fun n => (Output.layeredSink p.sink n).close) rfl on name purpose
  case drop =>
    rintro on name purpose o _ s _ rfl rfl
    rfl
  case release =>
    rintro ⟨lock, s⟩ ⟨_, _⟩ ⟨rfl, rfl⟩
    simp only [Port.through, Keeper.onSite, onPart]
    cases p.keeper.release (lock, s) with
    | ok a r => exact .ok rfl ⟨rfl, rfl⟩
    | error e r => exact .error ⟨rfl, rfl⟩
  case dropLock =>
    rintro lock s _ rfl
    rfl
  case outside =>
    rintro change s _ rfl
    rfl
  case stamped =>
    intro on
    rw [hvolume]
    rfl
  case lockName => rfl
  all_goals
    intros
    rw [hvolume]
    exact matches_onStore _

theorem delivers_through :
    Port.Delivers (Behind tier) (Unwrapped Source.plain) p (p.through dirs) := by
  rintro on name purpose i _ position len s _ rfl rfl
  exact ⟨rfl, rfl⟩

end Off

section Uncached

variable {p : Port ω β β ι ο κ} {dirs : ω → Directory}

-- An input of a file whose reads are not cached is the input of the volume below.
def InputBare (dirs : ω → Directory) (held : Opened ω (Source ι)) : Prop :=
  (dirs held.on).readsCached held.name held.purpose = false → ∃ input, held.handle = .plain input

def OutputBare (dirs : ω → Directory) (held : Opened ω (Output ο β)) : Prop :=
  (dirs held.on).writesCached held.name held.purpose = false → held.handle.layers = 0

variable {d : Directory} {v : Volume β ι ο κ} {name : String} {purpose : Purpose}

theorem openInput_bare {feed : Feed ι β} (hreads : d.readsCached name purpose = false) :
    d.openInput feed (Directory.plain v) name purpose =
      Source.plain <$> Site.onStore (v.openInput name purpose) := by
  simp [Directory.openInput, hreads, Directory.plain, Volume.lift]

theorem create_bare (hwrites : d.writesCached name purpose = false) :
    d.create (Directory.plain v) name purpose =
      Output.plain <$> Site.onStore (v.create name purpose) := by
  simp [Directory.create, hwrites, Directory.plain, Volume.lift]

-- An action beside itself, with what holds of the handles it makes.
theorem matches_itself {σ : Type} {good : Opened ω α → Prop} {x : Act σ α} {on : ω}
    (h : ∀ s, Ends x s (fun a _ => good ⟨on, name, purpose, a⟩) (fun _ _ => True)) :
    Matches Eq (Opened.Alike (Same good) on name purpose) x x := by
  rintro s _ rfl
  cases hx : x s with
  | ok a s' => exact .ok ⟨rfl, (h s).ok hx⟩ rfl
  | error e s' => exact .error rfl

-- Writing does not take caching layers away or put them on.
theorem onStream_layers (x : (n : Nat) → Act (Layered ο (Site β) n × Site β) α) (o : Output ο β)
    (s : Site β) : Ends (Output.onStream x) (o, s) (fun _ r => r.1.layers = o.layers)
      (fun _ r => r.1.layers = o.layers) := by
  unfold Ends Output.onStream
  dsimp only
  rcases x o.layers (o.stream, s) with ⟨a, stream, s'⟩ | ⟨e, stream, s'⟩
  · rfl
  · rfl

theorem matches_onStream (x : (n : Nat) → Act (Layered ο (Site β) n × Site β) Unit)
    (on : ω) (name : String) (purpose : Purpose) :
    Matches (Joined (Opened.Alike (Same (OutputBare dirs)) on name purpose) Eq) Eq
      (Output.onStream x) (Output.onStream x) := by
  rintro ⟨o, s⟩ ⟨_, _⟩ ⟨⟨hsame, hbare⟩, rfl⟩
  cases hsame
  have hlayers := onStream_layers x o s
  cases hrun : Output.onStream x (o, s) with
  | ok a r => exact .ok rfl ⟨⟨rfl, fun hwrites => (hlayers.ok hrun).trans (hbare hwrites)⟩, rfl⟩
  | error e r => exact .error ⟨⟨rfl, fun hwrites => (hlayers.error hrun).trans (hbare hwrites)⟩, rfl⟩

-- Every handle that a run makes is bare where its file is not cached.
theorem bare_through : Port.Matches Eq (Same (InputBare dirs)) (Same (OutputBare dirs))
    (p.through dirs) (p.through dirs) := by
  constructor
  case openInput =>
    intro on name purpose
    refine matches_itself fun s => ?_
    cases hreads : (dirs on).readsCached name purpose with
    | true => exact .always (fun _ _ hoff => by simp [hreads] at hoff) fun _ _ => trivial
    | false =>
      change Ends ((dirs on).openInput p.feed (Directory.plain (p.volume on)) name purpose) s _ _
      rw [openInput_bare hreads, ends_map]
      exact .always (fun input _ _ => ⟨input, rfl⟩) fun _ _ => trivial
  case create =>
    intro on name purpose
    refine matches_itself fun s => ?_
    cases hwrites : (dirs on).writesCached name purpose with
    | true => exact .always (fun _ _ hoff => by simp [hwrites] at hoff) fun _ _ => trivial
    | false =>
      change Ends ((dirs on).create (Directory.plain (p.volume on)) name purpose) s _ _
      rw [create_bare hwrites, ends_map]
      exact .always (fun _ _ _ => rfl) fun _ _ => trivial
  case clone =>
    rintro on name purpose source _ ⟨hsame, hbare⟩
    cases hsame
    refine matches_itself fun s => ?_
    cases source with
    | plain input =>
      change Ends (Source.plain <$> _) s _ _
      rw [ends_map]
      exact .always (fun input _ _ => ⟨input, rfl⟩) fun _ _ => trivial
    | cached below label =>
      refine .always (fun _ _ hreads => ?_) fun _ _ => trivial
      obtain ⟨input, hplain⟩ := hbare hreads
      cases hplain
  case shown =>
    rintro on name purpose source _ ⟨hsame, _⟩
    cases hsame
    exact ⟨rfl, rfl⟩
  case seek =>
    rintro on name purpose source _ position ⟨hsame, _⟩
    cases hsame
    exact .refl _
  case written =>
    rintro on name purpose out _ ⟨hsame, _⟩
    cases hsame
    exact ⟨rfl, rfl⟩
  case write =>
    exact fun on name purpose data =>
      matches_onStream (fun n => (Output.layeredSink p.sink n).write data) on name purpose
  case flush =>
    exact fun on name purpose =>
      matches_onStream (fun n => (Output.layeredSink p.sink n).flush) on name purpose
  case closeOutput =>
    exact fun on name purpose =>
      matches_onStream (fun n => (Output.layeredSink p.sink n).close) on name purpose
  case drop =>
    rintro on name purpose out _ s _ ⟨hsame, _⟩ rfl
    cases hsame
    rfl
  case release =>
    rintro r _ ⟨hlock, hworld⟩
    obtain rfl := Prod.ext hlock hworld
    cases (p.through dirs).keeper.release r with
    | ok a r' => exact .ok rfl ⟨rfl, rfl⟩
    | error e r' => exact .error ⟨rfl, rfl⟩
  case dropLock =>
    rintro lock s _ rfl
    rfl
  case outside =>
    rintro change s _ rfl
    rfl
  case stamped => exact fun _ => rfl
  case lockName => rfl
  all_goals
    intros
    exact .refl _

theorem bare_delivers :
    Port.Delivers Eq (Same (InputBare dirs)) (p.through dirs) (p.through dirs) := by
  rintro on name purpose source _ position len s _ ⟨hsame, _⟩ rfl
  cases hsame
  exact ⟨rfl, rfl⟩

namespace Client

variable {x : Client ω (Site β) (Source ι) (Output ο β) κ} {policies : ω → Policy}
  {call : Call ω β}

-- The calls that have no business with the cache: on files that are kept out of it, or in a
-- direction in which it is off.
def Spares (policies : ω → Policy) (x : Client ω (Site β) (Source ι) (Output ο β) κ) :
    Call ω β → Prop
  | .openInput on name _ _ => (policies on).readCache = false ∨ (policies on).Excludes name
  | .create on name purpose _ =>
    (policies on).writeCache = false ∨ (policies on).Excludes name ∨ purpose = .merge
  | .seek handle _ | .read handle _ | .clone handle _ => ∃ held, x.inputs handle = some held ∧
    ((policies held.on).readCache = false ∨ (policies held.on).Excludes held.name)
  | .write handle _ | .flush handle | .closeOutput handle => ∃ held, x.outputs handle = some held ∧
    ((policies held.on).writeCache = false ∨ (policies held.on).Excludes held.name ∨
      held.purpose = .merge)
  | _ => False

def Aside (s s' : Site β) : Prop := s'.tier = s.tier

theorem aside_onStore (act : Act β α) (s : Site β) :
    Ends (Site.onStore act) s (fun _ => Aside s) (fun _ => Aside s) := by
  rw [Site.onStore, ends_onPart]
  exact .always (fun _ _ => rfl) fun _ _ => rfl

theorem aside_running {act : Act (Site β) α}
    {done : α → Client ω (Site β) (Source ι) (Output ο β) κ →
      Session.Answer × Client ω (Site β) (Source ι) (Output ο β) κ}
    (hact : Ends act x.world (fun _ => Aside x.world) (fun _ => Aside x.world))
    (hdone : ∀ a x, Aside x.world (done a x).2.world) :
    Aside x.world (x.running act done).2.world := by
  unfold running
  cases hrun : act x.world with
  | ok a s => exact (hdone a _).trans (hact.ok hrun)
  | error e s => exact hact.error hrun

-- Dropping an output drops the one at the bottom, through whatever layers.
theorem aside_drop (out : Output ο β) (s : Site β) :
    Aside s ((Output.sink p.sink).drop out s) := by
  obtain ⟨layers, stream⟩ := out
  simp only [Output.sink]
  induction layers with
  | zero => rfl
  | succ n ih => exact ih _

theorem aside_dropOutput (handle : String) :
    Aside x.world (x.dropOutput (p.through dirs) handle).world := by
  unfold dropOutput
  cases x.outputs handle with
  | none => rfl
  | some held => exact aside_drop held.handle x.world

theorem aside_onOutput {handle : String} {held : Opened ω (Output ο β)}
    (hheld : x.outputs handle = some held) (hlayers : held.handle.layers = 0)
    (y : (n : Nat) → Act (Layered ο (Site β) n × Site β) Unit) (z : Act (ο × β) Unit)
    (hzero : y 0 = onPart (fun (o, s) => (o, s.store))
      (fun (_, s) (o, store) => (o, { s with store })) z) :
    Aside x.world (x.onOutput (p.through dirs) handle (Output.onStream y)).2.world := by
  obtain ⟨on, name, purpose, layers, stream⟩ := held
  obtain rfl : layers = 0 := hlayers
  simp only [onOutput, hheld, Output.onStream, hzero, onPart]
  rcases z (stream, x.world.store) with ⟨a, o, s⟩ | ⟨e, o, s⟩
  · rfl
  · rfl

-- The caching choices of directories that were made from the policies.
theorem readsCached_eq_false {d : Directory} {policy : Policy} (hpolicy : d.policy = policy.normalized)
    (h : policy.readCache = false ∨ policy.Excludes name) : d.readsCached name purpose = false := by
  rw [Directory.readsCached, hpolicy, policy.normalized_readCache, Bool.and_eq_false_iff]
  exact h.imp id Policy.Excludes.not_admits

theorem writesCached_eq_false {d : Directory} {policy : Policy}
    (hpolicy : d.policy = policy.normalized)
    (h : policy.writeCache = false ∨ policy.Excludes name ∨ purpose = .merge) :
    d.writesCached name purpose = false := by
  rw [Directory.writesCached, hpolicy, policy.normalized_writeCache]
  rcases h with hoff | hexcluded | rfl
  · simp [hoff]
  · simp [hexcluded.not_admits]
  · simp

-- What a match of a client with itself says of its handles.
theorem input_bare
    (hx : Matches Eq (Same (InputBare dirs)) (Same (OutputBare (β := β) (ο := ο) dirs)) x x)
    {handle : String} {held : Opened ω (Reader (Source ι))} (hheld : x.inputs handle = some held)
    (hreads : (dirs held.on).readsCached held.name held.purpose = false) :
    ∃ input, held.handle.source = .plain input := by
  have hself := hx.inputs handle
  rw [hheld] at hself
  cases hself with
  | some h => exact h.2 hreads

theorem output_bare
    (hx : Matches Eq (Same (InputBare dirs)) (Same (OutputBare (β := β) (ο := ο) dirs)) x x)
    {handle : String} {held : Opened ω (Output ο β)} (hheld : x.outputs handle = some held)
    (hwrites : (dirs held.on).writesCached held.name held.purpose = false) :
    held.handle.layers = 0 := by
  have hself := hx.outputs handle
  rw [hheld] at hself
  cases hself with
  | some h => exact h.2 hwrites

theorem aside_openInput {on : ω} {handle : String}
    (hreads : (dirs on).readsCached name purpose = false) :
    Aside x.world (x.openInput (p.through dirs) on name purpose handle).2.world := by
  refine aside_running ?_ fun _ _ => rfl
  change Ends ((dirs on).openInput p.feed (Directory.plain (p.volume on)) name purpose) _ _ _
  rw [openInput_bare hreads, ends_map]
  exact aside_onStore _ _

theorem aside_create {on : ω} {handle : String}
    (hwrites : (dirs on).writesCached name purpose = false) :
    Aside x.world (x.create (p.through dirs) on name purpose handle).2.world := by
  refine aside_running ?_ fun _ x => aside_dropOutput handle
  change Ends ((dirs on).create (Directory.plain (p.volume on)) name purpose) _ _ _
  rw [create_bare hwrites, ends_map]
  exact aside_onStore _ _

theorem aside_output {handle : String}
    (hpolicy : ∀ on, (dirs on).policy = (policies on).normalized)
    (hx : Matches Eq (Same (InputBare dirs)) (Same (OutputBare (β := β) (ο := ο) dirs)) x x)
    (hspares : ∃ held, x.outputs handle = some held ∧ ((policies held.on).writeCache = false ∨
      (policies held.on).Excludes held.name ∨ held.purpose = .merge))
    (y : (n : Nat) → Act (Layered ο (Site β) n × Site β) Unit) (z : Act (ο × β) Unit)
    (hzero : y 0 = onPart (fun (o, s) => (o, s.store))
      (fun (_, s) (o, store) => (o, { s with store })) z) :
    Aside x.world (x.onOutput (p.through dirs) handle (Output.onStream y)).2.world := by
  obtain ⟨held, hheld, hoff⟩ := hspares
  have hlayers := output_bare hx hheld (writesCached_eq_false (hpolicy _) hoff)
  exact aside_onOutput hheld hlayers y z hzero

theorem perform_aside (hpolicy : ∀ on, (dirs on).policy = (policies on).normalized)
    (hx : Matches Eq (Same (InputBare dirs)) (Same (OutputBare (β := β) (ο := ο) dirs)) x x)
    (hspares : Spares policies x call) :
    Aside x.world (x.perform (p.through dirs) call).2.world := by
  cases call with
  | openInput on name purpose handle =>
    exact aside_openInput (readsCached_eq_false (hpolicy on) hspares)
  | create on name purpose handle =>
    exact aside_create (writesCached_eq_false (hpolicy on) hspares)
  | seek handle position =>
    obtain ⟨⟨on, name, purpose, source, start⟩, hheld, hoff⟩ := hspares
    obtain ⟨input, rfl⟩ := input_bare hx hheld (readsCached_eq_false (hpolicy _) hoff)
    have hseek := aside_onStore (p.feed.seek input position) x.world
    simp only [perform, seek, onInput, hheld, Reader.seek]
    change Ends ((p.through dirs).feed.seek (.plain input) position) _ _ _ at hseek
    cases hrun : (p.through dirs).feed.seek (.plain input) position x.world with
    | ok a s => exact hseek.ok hrun
    | error e s => exact hseek.error hrun
  | read handle len =>
    obtain ⟨⟨on, name, purpose, source, start⟩, hheld, hoff⟩ := hspares
    obtain ⟨input, rfl⟩ := input_bare hx hheld (readsCached_eq_false (hpolicy _) hoff)
    have htier : ((p.through dirs).feed.read (.plain input) start len x.world).2.tier =
      x.world.tier := rfl
    simp only [perform, read, onInput, hheld, Reader.read]
    generalize (p.through dirs).feed.read (.plain input) start len x.world = r at htier ⊢
    rcases r with ⟨⟨bytes, _ | e⟩, s⟩
    · exact htier
    · exact htier
  | clone handle copy =>
    obtain ⟨⟨on, name, purpose, source, start⟩, hheld, hoff⟩ := hspares
    obtain ⟨input, rfl⟩ := input_bare hx hheld (readsCached_eq_false (hpolicy _) hoff)
    simp only [perform, clone, onInput, hheld]
    refine aside_running ?_ fun _ _ => rfl
    simp only [Reader.clone, ends_bind, ends_pure]
    change Ends (Source.plain <$> Site.onStore (p.feed.clone input)) _ _ _
    rw [ends_map]
    exact aside_onStore _ _
  | write handle data =>
    exact aside_output hpolicy hx hspares (fun n => (Output.layeredSink p.sink n).write data) _ rfl
  | flush handle =>
    exact aside_output hpolicy hx hspares (fun n => (Output.layeredSink p.sink n).flush) _ rfl
  | closeOutput handle =>
    exact aside_output hpolicy hx hspares (fun n => (Output.layeredSink p.sink n).close) _ rfl
  | _ => exact hspares.elim

theorem matches_fresh {σ τ ι' δ δ' : Type} {R : σ → τ → Prop}
    {inRel : Opened ω ι → Opened ω ι' → Prop} {outRel : Opened ω δ → Opened ω δ' → Prop}
    {s : σ} {t : τ} (h : R s t) :
    Matches R inRel outRel ({ world := s } : Client ω σ ι δ κ) { world := t } :=
  ⟨h, fun _ => .none, fun _ => .none, rfl⟩

-- Directories over plain volumes of any store, in any run of calls from any start. With caching off
-- everywhere the answers are those of the volumes themselves and the tier is left as it was. With
-- any caching, a call that a policy keeps away from the cache leaves the tier as it was.
theorem uncached_invisible {names : ω → String} {pools : ω → Nat}
    (hdirs : ∀ on, Directory.new (names on) (policies on) (pools on)
      (Directory.plain (κ := κ) (p.volume on)) = .ok (dirs on))
    (tier : Tier) (store : β) (calls : List (Call ω β)) :
    ((∀ on, (policies on).readCache = false ∧ (policies on).writeCache = false) →
      let bare : Client ω β ι ο κ := { world := store }
      let x : Client ω (Site β) (Source ι) (Output ο β) κ := { world := ⟨tier, store⟩ }
      x.answers (p.through dirs) calls = bare.answers p calls ∧
        (x.after (p.through dirs) calls).world = ⟨tier, (bare.after p calls).world⟩) ∧
    let x := after (p.through dirs) { world := ⟨tier, store⟩ } calls
    ∀ call, Spares policies x call →
      (x.perform (p.through dirs) call).2.world.tier = x.world.tier := by
  have hpolicy : ∀ on, (dirs on).policy = (policies on).normalized := by
    intro on
    rw [Directory.eq_of_new (hdirs on)]
  constructor
  · intro hoff bare x
    have hreads : ∀ on, (dirs on).policy.readCache = false := by
      intro on
      rw [hpolicy, Policy.normalized_readCache, (hoff on).1]
    have hwrites : ∀ on, (dirs on).policy.writeCache = false := by
      intro on
      rw [hpolicy, Policy.normalized_writeCache, (hoff on).2]
    have hstart : Matches (Behind tier) (Unwrapped Source.plain) (Unwrapped Output.plain) bare x :=
      matches_fresh rfl
    obtain ⟨hanswers, hlast⟩ := hstart.run (matches_through hreads hwrites) delivers_through calls
    exact ⟨hanswers.symm, hlast.world⟩
  · intro x call hspares
    have hstart : Matches Eq (Same (InputBare dirs)) (Same (OutputBare dirs))
        ({ world := ⟨tier, store⟩ } : Client ω (Site β) (Source ι) (Output ο β) κ)
        { world := ⟨tier, store⟩ } := matches_fresh rfl
    exact perform_aside hpolicy (hstart.run bare_through bare_delivers calls).2 hspares

-- One memory store as a port.
def memoryPort (stamped : Bool) :
    Port Unit MemoryStore MemoryStore MemoryInput MemoryOutput MemoryLock where
  volume _ := MemoryStore.volume stamped
  feed := MemoryStore.feed
  sink := MemoryStore.sink
  keeper := MemoryStore.keeper
  outside change := change

-- A file is written and opened, once with caching off on a store without stamps, and once through a
-- directory that caches other files only. The directory leaves the tier alone when the file is read.
theorem uncached_invisible_memory :
    let tier : Tier := { files := none, pools := #[.ofDepth 1] }
    let calls : List (Call Unit MemoryStore) := [.create () "a.dat" .general "o",
      .write "o" ⟨#[1, 2]⟩, .closeOutput "o", .openInput () "a.dat" .general "h"]
    let listed : Policy := { endings := some (Std.TreeSet.ofList [".idx"]) }
    let off : Unit → Directory := fun _ => ⟨"d", .disabled, 0⟩
    let on : Unit → Directory := fun _ => ⟨"d", listed.normalized, 0⟩
    let x := after ((memoryPort true).through on) { world := ⟨tier, {}⟩ } calls
    answers ((memoryPort false).through off) { world := ⟨tier, {}⟩ } calls =
      answers (memoryPort false) { world := {} } calls ∧
    Spares (fun _ => listed) x (.read "h" 2) ∧
    (x.perform ((memoryPort true).through on) (.read "h" 2)).2.world.tier = x.world.tier := by
  intro tier calls listed off on x
  have hoff : ∀ u, Directory.new "d" .disabled 0 (Directory.plain ((memoryPort false).volume u)) =
      .ok (off u) := fun _ => rfl
  have hon : ∀ u, Directory.new "d" listed 0 (Directory.plain ((memoryPort true).volume u)) =
      .ok (on u) := fun _ => rfl
  have hheld : Spares (fun _ => listed) x (.read "h" 2) := by
    have hname : (x.inputs "h").map (·.name) = some "a.dat" := by decide +kernel
    obtain ⟨held, hheld, hname⟩ := Option.map_eq_some_iff.mp hname
    refine ⟨held, hheld, .inr ⟨_, rfl, by decide +kernel, ?_⟩⟩
    rw [hname]
    decide +kernel
  exact ⟨((uncached_invisible hoff tier {} calls).1 fun _ => ⟨rfl, rfl⟩).1, hheld,
    (uncached_invisible hon tier {} calls).2 _ hheld⟩

end Client

end Uncached

end Blockwise
