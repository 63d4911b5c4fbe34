import Blockwise.Proofs.Client
import Blockwise.Proofs.Volume.Safety

namespace Blockwise

open Act

namespace Volume

variable {σ ι δ κ : Type} {ok : String → Prop} [DecidablePred ok] {name : String}

-- The volume without its locks, where files are made and deleted under certain names only.
def confined (v : Volume σ ι δ κ) (ok : String → Prop) [DecidablePred ok] : Volume σ ι δ κ :=
  { v with
    create := fun name purpose =>
      if ok name then v.create name purpose else Act.fail (.fileNotFound name)
    delete := fun name => if ok name then v.delete name else Act.fail (.fileNotFound name)
    lock := fun name => Act.fail (.unsupported (.locking name)) }

theorem confined_create (v : Volume σ ι δ κ) (hok : ok name) (purpose : Purpose) :
    (v.confined ok).create name purpose = v.create name purpose := if_pos hok

theorem confined_delete (v : Volume σ ι δ κ) (hok : ok name) :
    (v.confined ok).delete name = v.delete name := if_pos hok

variable {g : Regime σ} {input : ι → Prop} {out : δ → Prop} {lock : κ → Prop} {v u : Volume σ ι δ κ}

-- Nothing has to be shown of locks, or of files of other names.
theorem safe_confined (h : u.Safe g input out lock)
    (hsame : { v.confined ok with create := u.create, delete := u.delete, lock := u.lock } = u)
    (hcreate : ∀ name purpose, ok name → v.create name purpose = u.create name purpose)
    (hdelete : ∀ name, ok name → v.delete name = u.delete name) :
    (v.confined ok).Safe g input out lock := by
  rw [← hsame] at h
  refine { h with
    create := fun name purpose => ?_
    delete := fun name => ?_
    lock := fun name => .fail _ }
  · by_cases hok : ok name
    · rw [confined_create v hok, hcreate name purpose hok]
      exact h.create name purpose
    · simp only [confined, if_neg hok]
      exact .fail _
  · by_cases hok : ok name
    · rw [confined_delete v hok, hdelete name hok]
      exact h.delete name
    · simp only [confined, if_neg hok]
      exact .fail _

end Volume

namespace Directory

variable {β ι ο κ : Type} {pools : Nat} {shape : Option (Nat × Nat)} {store : Regime β}
  {input : ι → Prop} {out : ο → Prop} {lock : κ → Prop} {feed : Feed ι β} {ok : String → Prop}
  [DecidablePred ok]

theorem plain_confined {v : Volume β ι ο κ} (h : (v.confined ok).Safe store input out lock) :
    Below.Sturdy ((plain v).confined ok) pools shape store input out lock := by
  refine Volume.safe_confined (plain_safe h) rfl ?_ ?_
  · intro name purpose hok
    simp only [plain, Volume.lift, v.confined_create hok]
  · intro name hok
    simp only [plain, Volume.lift, v.confined_delete hok]

theorem volume_confined {below : Below β ι ο κ} {d : Directory}
    (h : Below.Sturdy (below.confined ok) pools shape store input out lock) (hpool : d.pool < pools) :
    Below.Sturdy ((d.volume feed below).confined ok) pools shape store input out lock := by
  have hvolume : Below.Sturdy (d.volume feed (below.confined ok)) pools shape store input out lock :=
    volume_safe h hpool
  refine Volume.safe_confined hvolume rfl ?_ ?_
  · intro name purpose hok
    simp only [volume, create, below.confined_create hok]
    rfl
  · intro name hok
    simp only [volume, delete, below.confined_delete hok]
    rfl

end Directory

variable {ω β σ ι δ κ α : Type} {p : Port ω β σ ι δ κ} {g : Regime σ} {ok : String → Prop}
  [DecidablePred ok] {input : ι → Prop} {out : δ → Prop}

-- What a port offers keeps to the regime, apart from locks and from files of other names.
structure Port.Safe (p : Port ω β σ ι δ κ) (g : Regime σ) (ok : String → Prop) [DecidablePred ok]
    (input : ι → Prop) (out : δ → Prop) : Prop where
  volume : ∀ on, ((p.volume on).confined ok).Safe g input out fun _ => True
  feed : p.feed.Safe g input
  sink : p.sink.Safe g out
  outside : ∀ change s, g.holds s → g.Leaves s (p.outside change s)

namespace Client

-- No file is made or deleted but under names that are given.
def Call.Spares (ok : String → Prop) : Call ω β → Prop
  | .create _ name _ _ | .delete _ name => ok name
  | _ => True

def Call.onLock : Call ω β → Bool
  | .lock .. | .unlock .. | .drop .. => true
  | _ => false

-- The world is in the regime, and all handles are sound.
structure Sound (g : Regime σ) (input : ι → Prop) (out : δ → Prop) (x : Client ω σ ι δ κ) :
    Prop where
  world : g.holds x.world
  inputs : ∀ handle held, x.inputs handle = some held → input held.handle.source
  outputs : ∀ handle held, x.outputs handle = some held → out held.handle

-- What is left by a call that has to do with files only.
structure Steady (g : Regime σ) (input : ι → Prop) (out : δ → Prop) (x y : Client ω σ ι δ κ) :
    Prop where
  sound : y.Sound g input out
  moves : g.moves x.world y.world
  locks : y.locks = x.locks

variable {x y z : Client ω σ ι δ κ} {s : σ}

theorem Sound.stays (h : x.Sound g input out) : Steady g input out x x := ⟨h, g.refl _, rfl⟩

theorem Steady.trans (h : Steady g input out x y) (h' : Steady g input out y z) :
    Steady g input out x z :=
  ⟨h'.sound, g.trans h.moves h'.moves, h'.locks.trans h.locks⟩

theorem Sound.withWorld (h : x.Sound g input out) (hs : g.Leaves x.world s) :
    Steady g input out x { x with world := s } :=
  ⟨⟨hs.1, h.inputs, h.outputs⟩, hs.2, rfl⟩

theorem forall_update {τ : Type} {table : String → Option τ} {good : τ → Prop}
    (h : ∀ handle a, table handle = some a → good a) {entry : Option τ}
    (hentry : ∀ a, entry = some a → good a) (handle : String) :
    ∀ other a, Function.update table handle entry other = some a → good a :=
  (Function.forall_update_iff table fun _ entry => ∀ a, entry = some a → good a).mpr
    ⟨hentry, fun other _ => h other⟩

theorem Sound.keepInput (h : x.Sound g input out) {held : Opened ω (Reader ι)}
    (hheld : input held.handle.source) (handle : String) :
    Steady g input out x (x.keepInput handle held) := by
  have hentry : ∀ held', some held = some held' → input held'.handle.source := fun _ hsame =>
    Option.some.inj hsame ▸ hheld
  exact ⟨⟨h.world, forall_update h.inputs hentry handle, h.outputs⟩, g.refl _, rfl⟩

theorem Sound.putOutput (h : x.Sound g input out) {held : Opened ω δ} (hheld : out held.handle)
    (handle : String) :
    Steady g input out x { x with outputs := Function.update x.outputs handle (some held) } := by
  have hentry : ∀ held', some held = some held' → out held'.handle := fun _ hsame =>
    Option.some.inj hsame ▸ hheld
  exact ⟨⟨h.world, h.inputs, forall_update h.outputs hentry handle⟩, g.refl _, rfl⟩

theorem Sound.eraseInput (h : x.Sound g input out) (handle : String) :
    Steady g input out x { x with inputs := Function.update x.inputs handle none } :=
  ⟨⟨h.world, forall_update h.inputs (by nofun) handle, h.outputs⟩, g.refl _, rfl⟩

theorem Sound.dropOutput (h : x.Sound g input out) (hp : p.Safe g ok input out) (handle : String) :
    Steady g input out x (x.dropOutput p handle) := by
  unfold Client.dropOutput
  cases hheld : x.outputs handle with
  | none => exact h.stays
  | some held =>
    obtain ⟨hworld, hmoves⟩ := hp.sink.drop held.handle x.world (h.outputs handle held hheld) h.world
    exact ⟨⟨hworld, h.inputs, forall_update h.outputs (by nofun) handle⟩, hmoves, rfl⟩

theorem Sound.running (h : x.Sound g input out) {act : Act σ α} {result : α → Prop}
    {done : α → Client ω σ ι δ κ → Session.Answer × Client ω σ ι δ κ} (hact : Act.Safe g act result)
    (hdone : ∀ a y, result a → y.Sound g input out → Steady g input out y (done a y).2) :
    Steady g input out x (x.running act done).2 := by
  have hends := hact x.world h.world
  unfold Client.running
  cases hrun : act x.world with
  | ok a s =>
    obtain ⟨hleaves, hresult⟩ := hends.ok hrun
    have hstep := h.withWorld hleaves
    exact hstep.trans (hdone a _ hresult hstep.sound)
  | error e s => exact h.withWorld (hends.error hrun).1

theorem Sound.answering (h : x.Sound g input out) {act : Act σ α} {result : α → Prop}
    (hact : Act.Safe g act result) (answer : α → Session.Answer) :
    Steady g input out x (x.answering act answer).2 :=
  h.running hact fun _ _ _ hy => hy.stays

theorem Sound.create (h : x.Sound g input out) (hp : p.Safe g ok input out) (on : ω) {name : String}
    (hok : ok name) (purpose : Purpose) (handle : String) :
    Steady g input out x (x.create p on name purpose handle).2 := by
  have hcreate := (hp.volume on).create name purpose
  rw [Volume.confined_create _ hok] at hcreate
  apply h.running hcreate
  intro o y ho hy
  have hdrop := hy.dropOutput hp handle
  have hheld : out (⟨on, name, purpose, o⟩ : Opened ω δ).handle := ho
  exact hdrop.trans (hdrop.sound.putOutput hheld handle)

theorem Sound.delete (h : x.Sound g input out) (hp : p.Safe g ok input out) (on : ω) {name : String}
    (hok : ok name) (answer : Unit → Session.Answer) :
    Steady g input out x (x.answering ((p.volume on).delete name) answer).2 := by
  have hdelete := (hp.volume on).delete name
  rw [Volume.confined_delete _ hok] at hdelete
  exact h.answering hdelete answer

theorem Sound.seek (h : x.Sound g input out) (hp : p.Safe g ok input out) (handle : String)
    (position : Nat) : Steady g input out x (x.seek p handle position).2 := by
  unfold Client.seek onInput
  cases hheld : x.inputs handle with
  | none => exact h.stays
  | some held =>
    have hsource := h.inputs handle held hheld
    have hends := hp.feed.seek held.handle.source position hsource x.world h.world
    simp only [Reader.seek]
    cases hrun : p.feed.seek held.handle.source position x.world with
    | ok a s =>
      have hstep := h.withWorld (hends.ok hrun).1
      refine hstep.trans (hstep.sound.keepInput ?_ handle)
      exact hsource
    | error e s =>
      have hstep := h.withWorld (hends.error hrun).1
      refine hstep.trans (hstep.sound.keepInput ?_ handle)
      exact hsource

theorem Sound.read (h : x.Sound g input out) (hp : p.Safe g ok input out) (handle : String)
    (len : Nat) : Steady g input out x (x.read p handle len).2 := by
  unfold Client.read onInput
  cases hheld : x.inputs handle with
  | none => exact h.stays
  | some held =>
    have hsource := h.inputs handle held hheld
    have hread := hp.feed.read held.handle.source held.handle.position len x.world hsource h.world
    simp only [Reader.read]
    rcases hrun : p.feed.read held.handle.source held.handle.position len x.world
      with ⟨⟨bytes, failure⟩, s⟩
    rw [hrun] at hread
    have hstep := h.withWorld hread.1
    cases failure with
    | none =>
      refine hstep.trans (hstep.sound.keepInput ?_ handle)
      exact hsource
    | some e =>
      refine hstep.trans (hstep.sound.keepInput ?_ handle)
      exact hsource

theorem Sound.clone (h : x.Sound g input out) (hp : p.Safe g ok input out) (handle copy : String) :
    Steady g input out x (x.clone p handle copy).2 := by
  unfold Client.clone onInput
  cases hheld : x.inputs handle with
  | none => exact h.stays
  | some held =>
    have hclone : Act.Safe g (held.handle.clone p.feed) fun r => input r.source :=
      (hp.feed.clone held.handle.source (h.inputs handle held hheld)).bind fun _ hsource =>
        .pure hsource
    exact h.running hclone fun r y hr hy => hy.keepInput hr copy

theorem Sound.onOutput (h : x.Sound g input out) {act : Act (δ × σ) Unit}
    (hact : Act.Safe (g.withHandle out) act fun _ => True) (handle : String) :
    Steady g input out x (x.onOutput p handle act).2 := by
  unfold Client.onOutput
  cases hheld : x.outputs handle with
  | none => exact h.stays
  | some held =>
    have hends := hact (held.handle, x.world) ⟨h.outputs handle held hheld, h.world⟩
    simp only
    cases hrun : act (held.handle, x.world) with
    | ok a r =>
      obtain ⟨⟨⟨hout, hworld⟩, hmoves⟩, _⟩ := hends.ok hrun
      have hheld : out { held with handle := r.1 }.handle := hout
      have hstep := h.withWorld ⟨hworld, hmoves⟩
      exact hstep.trans (hstep.sound.putOutput hheld handle)
    | error e r =>
      obtain ⟨⟨⟨hout, hworld⟩, hmoves⟩, _⟩ := hends.error hrun
      have hheld : out { held with handle := r.1 }.handle := hout
      have hstep := h.withWorld ⟨hworld, hmoves⟩
      exact hstep.trans (hstep.sound.putOutput hheld handle)

theorem Sound.perform (h : x.Sound g input out) (hp : p.Safe g ok input out) {c : Call ω β}
    (hspares : c.Spares ok) (hlock : c.onLock = false) :
    Steady g input out x (x.perform p c).2 := by
  cases c with
  | openInput on name purpose handle =>
    exact h.running ((hp.volume on).openInput name purpose) fun _ _ hsource hy =>
      hy.keepInput hsource handle
  | create on name purpose handle => exact h.create hp on hspares purpose handle
  | list on => exact h.answering (hp.volume on).list _
  | length on name => exact h.answering ((hp.volume on).length name) _
  | stamp on name => exact h.answering ((hp.volume on).stamp name) _
  | hasFile on name => exact h.answering ((hp.volume on).hasFile name) _
  | stamped on => exact h.stays
  | delete on name => exact h.delete hp on hspares _
  | sync on names => exact h.answering ((hp.volume on).sync names) _
  | closeVolume on => exact h.answering (hp.volume on).close _
  | seek handle position => exact h.seek hp handle position
  | read handle len => exact h.read hp handle len
  | clone handle copy => exact h.clone hp handle copy
  | write handle data => exact h.onOutput (hp.sink.write data) handle
  | flush handle => exact h.onOutput hp.sink.flush handle
  | closeOutput handle => exact h.onOutput hp.sink.close handle
  | outside change => exact h.withWorld (hp.outside change x.world h.world)
  | lock | unlock | drop => cases hlock

end Client

end Blockwise
