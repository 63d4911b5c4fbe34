import Blockwise.Session
import Blockwise.Proofs.Matching
import Mathlib.Logic.Function.Basic
import Mathlib.Data.Option.Basic

namespace Blockwise

open Act

-- The volumes of a world, under whatever they are told apart by, with the streams and locks they
-- hand out. `outside` is what a change of the store below comes to in this world.
structure Port (ω β σ ι δ κ : Type) where
  volume : ω → Volume σ ι δ κ
  feed : Feed ι σ
  sink : Sink δ σ
  keeper : Keeper κ σ
  outside : (β → β) → σ → σ

-- Locks of a store, before which a tier stands.
def Keeper.onSite {κ β : Type} (keeper : Keeper κ β) : Keeper κ (Site β) where
  name := keeper.name
  release := onPart (fun (lock, s) => (lock, s.store))
    (fun (_, s) (lock, store) => (lock, { s with store })) keeper.release
  drop lock s := { s with store := keeper.drop lock s.store }

-- Each volume of a store through a directory over it.
def Port.through {ω β ι ο κ : Type} (p : Port ω β β ι ο κ) (dirs : ω → Directory) :
    Port ω β (Site β) (Source ι) (Output ο β) κ where
  volume on := (dirs on).volume p.feed (Directory.plain (p.volume on))
  feed := Source.feed p.feed
  sink := Output.sink p.sink
  keeper := p.keeper.onSite
  outside change s := { s with store := p.outside change s.store }

-- A handle with the volume, the name and the purpose it was made for.
structure Opened (ω α : Type) where
  on : ω
  name : String
  purpose : Purpose
  handle : α

-- A user of volumes, with the streams and locks they handed out.
structure Client (ω σ ι δ κ : Type) where
  world : σ
  inputs : String → Option (Opened ω (Reader ι)) := fun _ => none
  outputs : String → Option (Opened ω δ) := fun _ => none
  locks : String → Option κ := fun _ => none

namespace Client

open Session (Answer)

inductive Call (ω β : Type) where
  | openInput (on : ω) (name : String) (purpose : Purpose) (handle : String)
  | create (on : ω) (name : String) (purpose : Purpose) (handle : String)
  | list (on : ω)
  | length (on : ω) (name : String)
  | stamp (on : ω) (name : String)
  | hasFile (on : ω) (name : String)
  | stamped (on : ω)
  | delete (on : ω) (name : String)
  | sync (on : ω) (names : List String)
  | closeVolume (on : ω)
  | lock (on : ω) (name handle : String)
  | unlock (handle : String)
  | seek (handle : String) (position : Nat)
  | read (handle : String) (len : Nat)
  | clone (handle copy : String)
  | write (handle : String) (data : Bytes)
  | flush (handle : String)
  | closeOutput (handle : String)
  | drop (handle : String)
  | outside (change : β → β)

section Calls

variable {ω β σ ι δ κ α : Type} (p : Port ω β σ ι δ κ) (x : Client ω σ ι δ κ)

-- Runs an action on the world, and goes on with its result if it has one.
def running (act : Act σ α) (done : α → Client ω σ ι δ κ → Answer × Client ω σ ι δ κ) :
    Answer × Client ω σ ι δ κ :=
  match act x.world with
  | .ok a world => done a { x with world }
  | .error e world => (.failed e, { x with world })

def answering (act : Act σ α) (answer : α → Answer) : Answer × Client ω σ ι δ κ :=
  x.running act fun a x => (answer a, x)

-- A new handle takes the place of the old one of that name, which is dropped after it was made.
def keepInput (handle : String) (input : Opened ω (Reader ι)) : Client ω σ ι δ κ :=
  { x with inputs := Function.update x.inputs handle (some input) }

def dropOutput (handle : String) : Client ω σ ι δ κ :=
  match x.outputs handle with
  | none => x
  | some out => { x with
      world := p.sink.drop out.handle x.world
      outputs := Function.update x.outputs handle none }

def keepOutput (handle : String) (out : Opened ω δ) : Client ω σ ι δ κ :=
  let x := x.dropOutput p handle
  { x with outputs := Function.update x.outputs handle (some out) }

def dropLock (handle : String) : Client ω σ ι δ κ :=
  match x.locks handle with
  | none => x
  | some lock => { x with
      world := p.keeper.drop lock x.world
      locks := Function.update x.locks handle none }

def keepLock (handle : String) (lock : κ) : Client ω σ ι δ κ :=
  let x := x.dropLock p handle
  { x with locks := Function.update x.locks handle (some lock) }

def openedAnswer (r : Reader ι) : Answer :=
  .opened (p.feed.name r.source) (p.feed.length r.source) r.position

def createdAnswer (out : δ) : Answer := .created (p.sink.name out) (p.sink.position out)

def openInput (on : ω) (name : String) (purpose : Purpose) (handle : String) :
    Answer × Client ω σ ι δ κ :=
  x.running ((p.volume on).openInput name purpose) fun source x =>
    (openedAnswer p { source }, x.keepInput handle ⟨on, name, purpose, { source }⟩)

def create (on : ω) (name : String) (purpose : Purpose) (handle : String) :
    Answer × Client ω σ ι δ κ :=
  x.running ((p.volume on).create name purpose) fun out x =>
    (createdAnswer p out, x.keepOutput p handle ⟨on, name, purpose, out⟩)

def lock (on : ω) (name handle : String) : Answer × Client ω σ ι δ κ :=
  x.running ((p.volume on).lock name) fun lock x =>
    (.text (p.keeper.name lock), x.keepLock p handle lock)

-- A lock is released and then dropped, whether or not the release succeeds.
def unlock (handle : String) : Answer × Client ω σ ι δ κ :=
  match x.locks handle with
  | none => (.noHandle, x)
  | some lock =>
    let keep (lock : κ) (world : σ) : Client ω σ ι δ κ := { x with
      world := p.keeper.drop lock world
      locks := Function.update x.locks handle none }
    match p.keeper.release (lock, x.world) with
    | .ok _ (lock, world) => (.done, keep lock world)
    | .error e (lock, world) => (.failed e, keep lock world)

def onInput (handle : String)
    (f : Opened ω (Reader ι) → Answer × Client ω σ ι δ κ) : Answer × Client ω σ ι δ κ :=
  match x.inputs handle with
  | none => (.noHandle, x)
  | some held => f held

def seek (handle : String) (position : Nat) : Answer × Client ω σ ι δ κ :=
  x.onInput handle fun held =>
    let (result, r, world) := held.handle.seek p.feed position x.world
    let failure := match result with
      | .ok _ => none
      | .error e => some e
    (.moved failure r.position, { x with world }.keepInput handle { held with handle := r })

def read (handle : String) (len : Nat) : Answer × Client ω σ ι δ κ :=
  x.onInput handle fun held =>
    let (delivery, r, world) := held.handle.read p.feed len x.world
    (.delivered delivery len r.position,
      { x with world }.keepInput handle { held with handle := r })

def clone (handle copy : String) : Answer × Client ω σ ι δ κ :=
  x.onInput handle fun held =>
    x.running (held.handle.clone p.feed) fun r x =>
      (openedAnswer p r, x.keepInput copy { held with handle := r })

-- Runs an action of an output and keeps the output as the action leaves it.
def onOutput (handle : String) (act : Act (δ × σ) Unit) : Answer × Client ω σ ι δ κ :=
  match x.outputs handle with
  | none => (.noHandle, x)
  | some held =>
    let keep (failure : Option Failure) (out : δ) (world : σ) : Answer × Client ω σ ι δ κ :=
      (.moved failure (p.sink.position out), { x with
        world
        outputs := Function.update x.outputs handle (some { held with handle := out }) })
    match act (held.handle, x.world) with
    | .ok _ (out, world) => keep none out world
    | .error e (out, world) => keep (some e) out world

def drop (handle : String) : Answer × Client ω σ ι δ κ :=
  (.dropped (x.inputs handle).isSome (x.outputs handle).isSome (x.locks handle).isSome,
    ({ x with inputs := Function.update x.inputs handle none }.dropOutput p handle).dropLock p
      handle)

def perform : Call ω β → Answer × Client ω σ ι δ κ
  | .openInput on name purpose handle => x.openInput p on name purpose handle
  | .create on name purpose handle => x.create p on name purpose handle
  | .list on => x.answering (p.volume on).list .names
  | .length on name => x.answering ((p.volume on).length name) .number
  | .stamp on name => x.answering ((p.volume on).stamp name) .stamp
  | .hasFile on name => x.answering ((p.volume on).hasFile name) .flag
  | .stamped on => (.flag (p.volume on).stamped, x)
  | .delete on name => x.answering ((p.volume on).delete name) fun _ => .done
  | .sync on names => x.answering ((p.volume on).sync names) fun _ => .done
  | .closeVolume on => x.answering (p.volume on).close fun _ => .done
  | .lock on name handle => x.lock p on name handle
  | .unlock handle => x.unlock p handle
  | .seek handle position => x.seek p handle position
  | .read handle len => x.read p handle len
  | .clone handle copy => x.clone p handle copy
  | .write handle data => x.onOutput p handle (p.sink.write data)
  | .flush handle => x.onOutput p handle p.sink.flush
  | .closeOutput handle => x.onOutput p handle p.sink.close
  | .drop handle => x.drop p handle
  | .outside change => (.done, { x with world := p.outside change x.world })

-- The client after a run of calls, whichever of them fail.
def after (calls : List (Call ω β)) : Client ω σ ι δ κ :=
  calls.foldl (fun x call => (x.perform p call).2) x

def answers : Client ω σ ι δ κ → List (Call ω β) → List Answer
  | _, [] => []
  | x, call :: calls => (x.perform p call).1 :: answers (x.perform p call).2 calls

end Calls

end Client

section Matching

variable {ω β σ τ ι ι' δ δ' κ α α' : Type} {R R' : σ → τ → Prop}
  {inRel : Opened ω ι → Opened ω ι' → Prop} {outRel : Opened ω δ → Opened ω δ' → Prop}
  {p : Port ω β σ ι δ κ} {q : Port ω β τ ι' δ' κ}

-- The sources of two handles that were made for the same thing.
def Opened.Alike (rel : Opened ω α → Opened ω α' → Prop) (on : ω) (name : String)
    (purpose : Purpose) (a : α) (a' : α') : Prop :=
  rel ⟨on, name, purpose, a⟩ ⟨on, name, purpose, a'⟩

-- All calls on two ports but the reads of inputs.
structure Port.Matches (R : σ → τ → Prop) (inRel : Opened ω ι → Opened ω ι' → Prop)
    (outRel : Opened ω δ → Opened ω δ' → Prop) (p : Port ω β σ ι δ κ) (q : Port ω β τ ι' δ' κ) :
    Prop where
  openInput : ∀ on name purpose, Act.Matches R (Opened.Alike inRel on name purpose)
    ((p.volume on).openInput name purpose) ((q.volume on).openInput name purpose)
  create : ∀ on name purpose, Act.Matches R (Opened.Alike outRel on name purpose)
    ((p.volume on).create name purpose) ((q.volume on).create name purpose)
  list : ∀ on, Act.Matches R Eq (p.volume on).list (q.volume on).list
  length : ∀ on name, Act.Matches R Eq ((p.volume on).length name) ((q.volume on).length name)
  stamp : ∀ on name, Act.Matches R Eq ((p.volume on).stamp name) ((q.volume on).stamp name)
  hasFile : ∀ on name, Act.Matches R Eq ((p.volume on).hasFile name) ((q.volume on).hasFile name)
  stamped : ∀ on, (p.volume on).stamped = (q.volume on).stamped
  delete : ∀ on name, Act.Matches R Eq ((p.volume on).delete name) ((q.volume on).delete name)
  sync : ∀ on names, Act.Matches R Eq ((p.volume on).sync names) ((q.volume on).sync names)
  lock : ∀ on name, Act.Matches R Eq ((p.volume on).lock name) ((q.volume on).lock name)
  close : ∀ on, Act.Matches R Eq (p.volume on).close (q.volume on).close
  shown : ∀ on name purpose i j, inRel ⟨on, name, purpose, i⟩ ⟨on, name, purpose, j⟩ →
    p.feed.name i = q.feed.name j ∧ p.feed.length i = q.feed.length j
  seek : ∀ on name purpose i j position, inRel ⟨on, name, purpose, i⟩ ⟨on, name, purpose, j⟩ →
    Act.Matches R Eq (p.feed.seek i position) (q.feed.seek j position)
  clone : ∀ on name purpose i j, inRel ⟨on, name, purpose, i⟩ ⟨on, name, purpose, j⟩ →
    Act.Matches R (Opened.Alike inRel on name purpose) (p.feed.clone i) (q.feed.clone j)
  written : ∀ on name purpose o u, outRel ⟨on, name, purpose, o⟩ ⟨on, name, purpose, u⟩ →
    p.sink.name o = q.sink.name u ∧ p.sink.position o = q.sink.position u
  write : ∀ on name purpose data,
    Act.Matches (Joined (Opened.Alike outRel on name purpose) R) Eq (p.sink.write data)
      (q.sink.write data)
  flush : ∀ on name purpose,
    Act.Matches (Joined (Opened.Alike outRel on name purpose) R) Eq p.sink.flush q.sink.flush
  closeOutput : ∀ on name purpose,
    Act.Matches (Joined (Opened.Alike outRel on name purpose) R) Eq p.sink.close q.sink.close
  drop : ∀ on name purpose o u s t, outRel ⟨on, name, purpose, o⟩ ⟨on, name, purpose, u⟩ →
    R s t → R (p.sink.drop o s) (q.sink.drop u t)
  lockName : p.keeper.name = q.keeper.name
  release : Act.Matches (Joined Eq R) Eq p.keeper.release q.keeper.release
  dropLock : ∀ lock s t, R s t → R (p.keeper.drop lock s) (q.keeper.drop lock t)
  outside : ∀ change s t, R s t → R (p.outside change s) (q.outside change t)

-- Reads of inputs deliver the same and keep the relation.
def Port.Delivers (R : σ → τ → Prop) (inRel : Opened ω ι → Opened ω ι' → Prop)
    (p : Port ω β σ ι δ κ) (q : Port ω β τ ι' δ' κ) : Prop :=
  ∀ on name purpose i j position len s t,
    inRel ⟨on, name, purpose, i⟩ ⟨on, name, purpose, j⟩ → R s t →
    (p.feed.read i position len s).1 = (q.feed.read j position len t).1 ∧
      R (p.feed.read i position len s).2 (q.feed.read j position len t).2

-- Two handles for the same thing, with the same position.
inductive Opened.Readers (rel : Opened ω ι → Opened ω ι' → Prop) :
    Option (Opened ω (Reader ι)) → Option (Opened ω (Reader ι')) → Prop where
  | none : Readers rel none none
  | some {on name purpose i j position} (h : rel ⟨on, name, purpose, i⟩ ⟨on, name, purpose, j⟩) :
    Readers rel (some ⟨on, name, purpose, ⟨i, position⟩⟩)
      (some ⟨on, name, purpose, ⟨j, position⟩⟩)

inductive Opened.Writers (rel : Opened ω δ → Opened ω δ' → Prop) :
    Option (Opened ω δ) → Option (Opened ω δ') → Prop where
  | none : Writers rel none none
  | some {on name purpose o u} (h : rel ⟨on, name, purpose, o⟩ ⟨on, name, purpose, u⟩) :
    Writers rel (some ⟨on, name, purpose, o⟩) (some ⟨on, name, purpose, u⟩)

namespace Client

open Session (Answer)

structure Matches (R : σ → τ → Prop) (inRel : Opened ω ι → Opened ω ι' → Prop)
    (outRel : Opened ω δ → Opened ω δ' → Prop) (x : Client ω σ ι δ κ) (y : Client ω τ ι' δ' κ) :
    Prop where
  world : R x.world y.world
  inputs : ∀ handle, Opened.Readers inRel (x.inputs handle) (y.inputs handle)
  outputs : ∀ handle, Opened.Writers outRel (x.outputs handle) (y.outputs handle)
  locks : x.locks = y.locks

-- The same answer, and clients that match again.
def Agree (R : σ → τ → Prop) (inRel : Opened ω ι → Opened ω ι' → Prop)
    (outRel : Opened ω δ → Opened ω δ' → Prop) (r : Answer × Client ω σ ι δ κ)
    (r' : Answer × Client ω τ ι' δ' κ) : Prop :=
  r.1 = r'.1 ∧ Matches R inRel outRel r.2 r'.2

variable {x : Client ω σ ι δ κ} {y : Client ω τ ι' δ' κ} {handle : String}

theorem Matches.withWorld (h : Matches R inRel outRel x y) {s : σ} {t : τ} (hst : R' s t) :
    Matches R' inRel outRel { x with world := s } { y with world := t } :=
  ⟨hst, h.inputs, h.outputs, h.locks⟩

theorem readers_update {f : String → Option (Opened ω (Reader ι))}
    {g : String → Option (Opened ω (Reader ι'))} {r : Option (Opened ω (Reader ι))}
    {r' : Option (Opened ω (Reader ι'))} (h : ∀ handle, Opened.Readers inRel (f handle) (g handle))
    (hr : Opened.Readers inRel r r') (handle handle' : String) :
    Opened.Readers inRel (Function.update f handle r handle')
      (Function.update g handle r' handle') := by
  by_cases hsame : handle' = handle
  · subst hsame
    simpa using hr
  · simpa [hsame] using h handle'

theorem writers_update {f : String → Option (Opened ω δ)} {g : String → Option (Opened ω δ')}
    {o : Option (Opened ω δ)} {u : Option (Opened ω δ')}
    (h : ∀ handle, Opened.Writers outRel (f handle) (g handle)) (ho : Opened.Writers outRel o u)
    (handle handle' : String) :
    Opened.Writers outRel (Function.update f handle o handle')
      (Function.update g handle u handle') := by
  by_cases hsame : handle' = handle
  · subst hsame
    simpa using ho
  · simpa [hsame] using h handle'

theorem Matches.keepInput (h : Matches R inRel outRel x y) {on : ω} {name : String}
    {purpose : Purpose} {i : ι} {j : ι'} (position : Nat)
    (hinput : inRel ⟨on, name, purpose, i⟩ ⟨on, name, purpose, j⟩) (handle : String) :
    Matches R inRel outRel (x.keepInput handle ⟨on, name, purpose, ⟨i, position⟩⟩)
      (y.keepInput handle ⟨on, name, purpose, ⟨j, position⟩⟩) :=
  ⟨h.world, readers_update h.inputs (.some hinput) handle, h.outputs, h.locks⟩

theorem Matches.running {rel : α → α' → Prop} {act : Act σ α} {act' : Act τ α'}
    {done : α → Client ω σ ι δ κ → Answer × Client ω σ ι δ κ}
    {done' : α' → Client ω τ ι' δ' κ → Answer × Client ω τ ι' δ' κ}
    (h : Matches R inRel outRel x y) (hact : Act.Matches R rel act act')
    (hdone : ∀ a a' (x : Client ω σ ι δ κ) (y : Client ω τ ι' δ' κ), rel a a' →
      Matches R inRel outRel x y → Agree R inRel outRel (done a x) (done' a' y)) :
    Agree R inRel outRel (x.running act done) (y.running act' done') := by
  have hmet := hact _ _ h.world
  unfold Client.running
  generalize act x.world = r at hmet ⊢
  generalize act' y.world = r' at hmet ⊢
  cases hmet with
  | ok hrel hstate => exact hdone _ _ _ _ hrel (h.withWorld hstate)
  | error hstate => exact ⟨rfl, h.withWorld hstate⟩

theorem Matches.answering {act : Act σ α} {act' : Act τ α} (h : Matches R inRel outRel x y)
    (hact : Act.Matches R Eq act act') (answer : α → Answer) :
    Agree R inRel outRel (x.answering act answer) (y.answering act' answer) :=
  h.running hact fun _ _ _ _ hrel hxy => ⟨congrArg answer hrel, hxy⟩

theorem Matches.dropOutput (h : Matches R inRel outRel x y)
    (hp : Port.Matches R inRel outRel p q) (handle : String) :
    Matches R inRel outRel (x.dropOutput p handle) (y.dropOutput q handle) := by
  have hheld := h.outputs handle
  unfold Client.dropOutput
  generalize x.outputs handle = o at hheld ⊢
  generalize y.outputs handle = u at hheld ⊢
  cases hheld with
  | none => exact h
  | some hrel =>
    exact ⟨hp.drop _ _ _ _ _ _ _ hrel h.world, h.inputs, writers_update h.outputs .none handle,
      h.locks⟩

theorem Matches.dropLock (h : Matches R inRel outRel x y)
    (hp : Port.Matches R inRel outRel p q) (handle : String) :
    Matches R inRel outRel (x.dropLock p handle) (y.dropLock q handle) := by
  unfold Client.dropLock
  rw [← h.locks]
  cases x.locks handle with
  | none => exact h
  | some lock => exact ⟨hp.dropLock _ _ _ h.world, h.inputs, h.outputs, by simp [h.locks]⟩

theorem Matches.openInput (h : Matches R inRel outRel x y)
    (hp : Port.Matches R inRel outRel p q) (on : ω) (name : String) (purpose : Purpose)
    (handle : String) :
    Agree R inRel outRel (x.openInput p on name purpose handle)
      (y.openInput q on name purpose handle) := by
  refine h.running (hp.openInput on name purpose) ?_
  intro i j x y hinput hxy
  have hshown := hp.shown on name purpose i j hinput
  exact ⟨by simp [openedAnswer, hshown], hxy.keepInput 0 hinput handle⟩

theorem Matches.create (h : Matches R inRel outRel x y)
    (hp : Port.Matches R inRel outRel p q) (on : ω) (name : String) (purpose : Purpose)
    (handle : String) :
    Agree R inRel outRel (x.create p on name purpose handle)
      (y.create q on name purpose handle) := by
  refine h.running (hp.create on name purpose) ?_
  intro o u x y houtput hxy
  have hwritten := hp.written on name purpose o u houtput
  have hdropped := hxy.dropOutput hp handle
  exact ⟨by simp [createdAnswer, hwritten], hdropped.world, hdropped.inputs,
    writers_update hdropped.outputs (.some houtput) handle, hdropped.locks⟩

theorem Matches.lock (h : Matches R inRel outRel x y)
    (hp : Port.Matches R inRel outRel p q) (on : ω) (name handle : String) :
    Agree R inRel outRel (x.lock p on name handle) (y.lock q on name handle) := by
  refine h.running (hp.lock on name) ?_
  rintro lock _ x y rfl hxy
  have hdropped := hxy.dropLock hp handle
  exact ⟨by simp [hp.lockName], hdropped.world, hdropped.inputs, hdropped.outputs,
    by simp [keepLock, hdropped.locks]⟩

theorem Matches.unlock (h : Matches R inRel outRel x y)
    (hp : Port.Matches R inRel outRel p q) (handle : String) :
    Agree R inRel outRel (x.unlock p handle) (y.unlock q handle) := by
  unfold Client.unlock
  rw [← h.locks]
  cases x.locks handle with
  | none => exact ⟨rfl, h⟩
  | some lock =>
    have hmet := hp.release (lock, x.world) (lock, y.world) ⟨rfl, h.world⟩
    obtain ⟨_, _, lock', _, s, t, hr, hr', _, rfl, hst⟩ | ⟨e, lock', _, s, t, hr, hr', rfl, hst⟩ :=
      hmet.joined
    all_goals
      simp only [hr, hr']
      exact ⟨rfl, hp.dropLock _ _ _ hst, h.inputs, h.outputs, rfl⟩

theorem Matches.onInput {f : Opened ω (Reader ι) → Answer × Client ω σ ι δ κ}
    {g : Opened ω (Reader ι') → Answer × Client ω τ ι' δ' κ} (h : Matches R inRel outRel x y)
    (handle : String) (hnone : x.inputs handle = none → R' x.world y.world)
    (hsome : ∀ on name purpose i j position,
      x.inputs handle = some ⟨on, name, purpose, ⟨i, position⟩⟩ →
      inRel ⟨on, name, purpose, i⟩ ⟨on, name, purpose, j⟩ →
      Agree R' inRel outRel (f ⟨on, name, purpose, ⟨i, position⟩⟩)
        (g ⟨on, name, purpose, ⟨j, position⟩⟩)) :
    Agree R' inRel outRel (x.onInput handle f) (y.onInput handle g) := by
  have hheld := h.inputs handle
  unfold Client.onInput
  generalize hinput : x.inputs handle = r at hheld
  generalize y.inputs handle = r' at hheld ⊢
  cases hheld with
  | none => exact ⟨rfl, h.withWorld (hnone hinput)⟩
  | some hrel => exact hsome _ _ _ _ _ _ hinput hrel

theorem Matches.seek (h : Matches R inRel outRel x y)
    (hp : Port.Matches R inRel outRel p q) (handle : String) (position : Nat) :
    Agree R inRel outRel (x.seek p handle position) (y.seek q handle position) := by
  refine h.onInput handle (fun _ => h.world) ?_
  intro on name purpose i j start _ hinput
  have hmet := hp.seek on name purpose i j position hinput _ _ h.world
  simp only [Reader.seek]
  generalize p.feed.seek i position x.world = r at hmet ⊢
  generalize q.feed.seek j position y.world = r' at hmet ⊢
  cases hmet with
  | ok hrel hstate => exact ⟨rfl, (h.withWorld hstate).keepInput position hinput handle⟩
  | error hstate => exact ⟨rfl, (h.withWorld hstate).keepInput start hinput handle⟩

theorem Matches.clone (h : Matches R inRel outRel x y)
    (hp : Port.Matches R inRel outRel p q) (handle copy : String) :
    Agree R inRel outRel (x.clone p handle copy) (y.clone q handle copy) := by
  refine h.onInput handle (fun _ => h.world) ?_
  intro on name purpose i j position _ hinput
  refine h.running (?_ : Act.Matches R (fun r r' => ∃ i j, r = ⟨i, position⟩ ∧
    r' = ⟨j, position⟩ ∧ inRel ⟨on, name, purpose, i⟩ ⟨on, name, purpose, j⟩) _ _) ?_
  · refine (hp.clone on name purpose i j hinput).bind fun i' j' hclone => .pure ?_
    exact ⟨i', j', rfl, rfl, hclone⟩
  · rintro _ _ x y ⟨i', j', rfl, rfl, hclone⟩ hxy
    have hshown := hp.shown on name purpose i' j' hclone
    exact ⟨by simp [openedAnswer, hshown], hxy.keepInput position hclone copy⟩

theorem Matches.onOutput {act : Act (δ × σ) Unit} {act' : Act (δ' × τ) Unit}
    (h : Matches R inRel outRel x y) (hp : Port.Matches R inRel outRel p q)
    (hact : ∀ on name purpose,
      Act.Matches (Joined (Opened.Alike outRel on name purpose) R) Eq act act')
    (handle : String) :
    Agree R inRel outRel (x.onOutput p handle act) (y.onOutput q handle act') := by
  have hheld := h.outputs handle
  unfold Client.onOutput
  generalize x.outputs handle = o at hheld ⊢
  generalize y.outputs handle = u at hheld ⊢
  cases hheld with
  | none => exact ⟨rfl, h⟩
  | @some on name purpose o u hrel =>
    have hmet := hact on name purpose (o, x.world) (u, y.world) ⟨hrel, h.world⟩
    obtain ⟨_, _, o', u', s, t, hr, hr', _, houtput, hst⟩ |
      ⟨e, o', u', s, t, hr, hr', houtput, hst⟩ := hmet.joined
    all_goals
      have hwritten := hp.written on name purpose o' u' houtput
      simp only [hr, hr']
      exact ⟨by simp [hwritten], hst, h.inputs, writers_update h.outputs (.some houtput) handle,
        h.locks⟩

theorem Matches.drop (h : Matches R inRel outRel x y)
    (hp : Port.Matches R inRel outRel p q) (handle : String) :
    Agree R inRel outRel (x.drop p handle) (y.drop q handle) := by
  have hinput := h.inputs handle
  have houtput := h.outputs handle
  have hbare : Matches R inRel outRel
      { x with inputs := Function.update x.inputs handle none }
      { y with inputs := Function.update y.inputs handle none } :=
    ⟨h.world, readers_update h.inputs .none handle, h.outputs, h.locks⟩
  refine ⟨?_, (hbare.dropOutput hp handle).dropLock hp handle⟩
  simp only [Client.drop, h.locks]
  generalize x.inputs handle = r at hinput ⊢
  generalize y.inputs handle = r' at hinput ⊢
  generalize x.outputs handle = o at houtput ⊢
  generalize y.outputs handle = u at houtput ⊢
  cases hinput <;> cases houtput <;> rfl

-- A read may go from worlds of one relation to worlds of another.
theorem Matches.read (h : Matches R inRel outRel x y) (handle : String) (len : Nat)
    (hnone : x.inputs handle = none → R' x.world y.world)
    (hread : ∀ on name purpose i j position,
      x.inputs handle = some ⟨on, name, purpose, ⟨i, position⟩⟩ →
      inRel ⟨on, name, purpose, i⟩ ⟨on, name, purpose, j⟩ →
      (p.feed.read i position len x.world).1 = (q.feed.read j position len y.world).1 ∧
        R' (p.feed.read i position len x.world).2 (q.feed.read j position len y.world).2) :
    Agree R' inRel outRel (x.read p handle len) (y.read q handle len) := by
  refine h.onInput handle hnone ?_
  intro on name purpose i j position hheld hinput
  obtain ⟨hsame, hworld⟩ := hread on name purpose i j position hheld hinput
  simp only [Reader.read]
  generalize p.feed.read i position len x.world = r at hsame hworld ⊢
  generalize q.feed.read j position len y.world = r' at hsame hworld ⊢
  obtain ⟨⟨bytes, failure⟩, s⟩ := r
  obtain ⟨_, t⟩ := r'
  obtain rfl := hsame
  cases failure with
  | none => exact ⟨rfl, (h.withWorld hworld).keepInput (position + len) hinput handle⟩
  | some e => exact ⟨rfl, (h.withWorld hworld).keepInput position hinput handle⟩

def Call.isRead : Call ω β → Bool
  | .read .. => true
  | _ => false

-- One case for each call: it is a call of the port, and what it keeps of its handles matches.
theorem Matches.perform (h : Matches R inRel outRel x y)
    (hp : Port.Matches R inRel outRel p q) {call : Call ω β} (hcall : call.isRead = false) :
    Agree R inRel outRel (x.perform p call) (y.perform q call) := by
  cases call with
  | openInput on name purpose handle => exact h.openInput hp on name purpose handle
  | create on name purpose handle => exact h.create hp on name purpose handle
  | list on => exact h.answering (hp.list on) _
  | length on name => exact h.answering (hp.length on name) _
  | stamp on name => exact h.answering (hp.stamp on name) _
  | hasFile on name => exact h.answering (hp.hasFile on name) _
  | stamped on => exact ⟨congrArg Answer.flag (hp.stamped on), h⟩
  | delete on name => exact h.answering (hp.delete on name) _
  | sync on names => exact h.answering (hp.sync on names) _
  | closeVolume on => exact h.answering (hp.close on) _
  | lock on name handle => exact h.lock hp on name handle
  | unlock handle => exact h.unlock hp handle
  | seek handle position => exact h.seek hp handle position
  | read handle len => simp [Call.isRead] at hcall
  | clone handle copy => exact h.clone hp handle copy
  | write handle data => exact h.onOutput hp (fun on name purpose => hp.write on name purpose data) _
  | flush handle => exact h.onOutput hp hp.flush _
  | closeOutput handle => exact h.onOutput hp hp.closeOutput _
  | drop handle => exact h.drop hp handle
  | outside change => exact ⟨rfl, h.withWorld (hp.outside change _ _ h.world)⟩

-- Where reads keep the relation too, whole runs answer the same.
theorem Matches.run (h : Matches R inRel outRel x y)
    (hp : Port.Matches R inRel outRel p q) (hread : Port.Delivers R inRel p q)
    (calls : List (Call ω β)) :
    x.answers p calls = y.answers q calls ∧
      Matches R inRel outRel (x.after p calls) (y.after q calls) := by
  induction calls generalizing x y with
  | nil => exact ⟨rfl, h⟩
  | cons call calls ih =>
    have hagree : Agree R inRel outRel (x.perform p call) (y.perform q call) := by
      cases hcall : call.isRead with
      | false => exact h.perform hp hcall
      | true =>
        cases call with
        | read handle len =>
          refine h.read handle len (fun _ => h.world) fun on name purpose i j position _ hinput => ?_
          exact hread on name purpose i j position len _ _ hinput h.world
        | _ => cases hcall
    obtain ⟨hsame, hnext⟩ := hagree
    obtain ⟨hrest, hlast⟩ := ih hnext
    exact ⟨by simp only [Client.answers, hsame, hrest], hlast⟩

end Client

end Matching

end Blockwise
