import Blockwise.Proofs.Client
import Blockwise.Proofs.Volume.Safety
import Blockwise.Proofs.Volume.Shelf

namespace Blockwise

open Act
open Session (Answer)

namespace MemoryStore

variable {s s' : MemoryStore} {α : Type}

-- Any number of clones of one store, all with stamps. They share its files, its clock and its locks.
def clones (ω : Type) : Port ω Empty MemoryStore MemoryInput MemoryOutput MemoryLock where
  volume _ := volume true
  feed := feed
  sink := sink
  keeper := keeper
  outside _ s := s

-- Files may go, and none is published.
structure Quiet (s s' : MemoryStore) : Prop where
  clock : s'.clock = s.clock
  files : ∀ (name : String) (file : MemoryFile), s'.files[name]? = some file →
    s.files[name]? = some file

theorem Quiet.same (h : (s'.files, s'.clock) = (s.files, s.clock)) : Quiet s s' := by
  obtain ⟨hfiles, hclock⟩ := Prod.mk.inj h
  exact ⟨hclock, fun name file hfile => hfiles ▸ hfile⟩

def unpublished : Regime MemoryStore where
  holds _ := True
  moves := Quiet
  refl _ := .same rfl
  trans h h' := ⟨h'.clock.trans h.clock, fun name file hfile =>
    h.files name file (h'.files name file hfile)⟩

theorem leaves_same (h : (s'.files, s'.clock) = (s.files, s.clock)) : unpublished.Leaves s s' :=
  ⟨trivial, .same h⟩

-- An action that publishes nothing.
abbrev Idle (x : Act MemoryStore α) : Prop := Safe unpublished x fun _ => True

theorem idle_requireOpen : Idle requireOpen := by
  refine .get fun s hs => ?_
  split
  · exact ⟨.refl hs, trivial⟩
  · exact ⟨.refl hs, trivial⟩

theorem idle_find (name : String) : Idle (find name) := by
  refine .get fun s hs => ?_
  cases s.files[name]? with
  | none => exact ⟨.refl hs, trivial⟩
  | some file => exact ⟨.refl hs, trivial⟩

theorem idle_delete (name : String) : Idle (delete name) := by
  refine idle_requireOpen.bind fun _ _ => (idle_find name).bind fun _ _ => .modify fun s _ => ?_
  refine ⟨trivial, rfl, fun other file hfile => ?_⟩
  rw [Maps.getElem?_erase] at hfile
  split at hfile
  · cases hfile
  · exact hfile

theorem idle_lock (name : String) : Idle (lock name) := by
  refine idle_requireOpen.bind fun _ _ => .get fun s hs => ?_
  split
  · exact ⟨.refl hs, trivial⟩
  · exact ⟨leaves_same rfl, trivial⟩

theorem idle_openInput (name : String) (purpose : Purpose) :
    Idle ((volume true).openInput name purpose) :=
  idle_requireOpen.bind fun _ _ => (idle_find name).bind fun _ _ => .pure trivial

theorem idle_list : Idle (volume true).list :=
  idle_requireOpen.bind fun _ _ => .get fun _ hs => ⟨.refl hs, trivial⟩

theorem idle_hasFile (name : String) : Idle ((volume true).hasFile name) :=
  .get fun _ hs => ⟨.refl hs, trivial⟩

theorem idle_length (name : String) : Idle ((volume true).length name) :=
  (idle_find name).bind fun _ _ => .pure trivial

theorem idle_stamp (name : String) : Idle ((volume true).stamp name) :=
  (idle_find name).bind fun _ _ => .pure trivial

theorem idle_sync (names : List String) : Idle ((volume true).sync names) :=
  .forM fun name => (idle_find name).bind fun _ _ => .pure trivial

theorem idle_close : Idle (volume true).close := .modify fun _ _ => leaves_same rfl

theorem quiet_free (lock : MemoryLock) (s : MemoryStore) : Quiet s (keeper.drop lock s) := by
  simp only [keeper]
  split
  · exact .same rfl
  · exact .same rfl

end MemoryStore

-- What the user of an output knows of it: the bytes that it accepted, and whether some of them came
-- in since it last published.
structure Account where
  name : String
  accepted : Bytes := ByteArray.empty
  pending : Bool := false

-- What an output has to publish, if anything.
def Account.due (a : Account) : Option (String × Bytes) :=
  if a.pending then some (a.name, a.accepted) else none

structure Publication where
  name : String
  data : Bytes
  stamp : Nat

abbrev MemoryUser (ω : Type) := Client ω MemoryStore MemoryInput MemoryOutput MemoryLock

-- A call on one of the clones or on what they handed out, or a whole file that is put past them.
inductive Move (ω : Type) where
  | put (name : String) (data : Bytes)
  | call (c : Client.Call ω Empty)

namespace Move

variable {ω : Type}

def perform (x : MemoryUser ω) : Move ω → Answer × MemoryUser ω
  | .put name data => (.done, { x with world := x.world.publish name data })
  | .call c => x.perform (MemoryStore.clones ω) c

-- The file that a move publishes, told from its answer and from what was accepted before.
def publishes (accounts : String → Option Account) : Move ω → Answer → Option (String × Bytes)
  | .put name data, _ => some (name, data)
  | .call (.create _ name _ _), .created _ _ => some (name, ByteArray.empty)
  | .call (.flush handle), .moved none _ => (accounts handle).bind Account.due
  | .call (.closeOutput handle), .moved none _ => (accounts handle).bind Account.due
  | _, _ => none

-- The accounts after a move, told from its answer.
def book (accounts : String → Option Account) : Move ω → Answer → (String → Option Account)
  | .call (.create _ name _ handle), .created _ _ =>
    Function.update accounts handle (some { name })
  | .call (.write handle data), .moved none _ =>
    Function.update accounts handle <| (accounts handle).map fun a =>
      { a with accepted := a.accepted ++ data, pending := true }
  | .call (.flush handle), .moved none _ =>
    Function.update accounts handle <| (accounts handle).map ({ · with pending := false })
  | .call (.closeOutput handle), .moved none _ =>
    Function.update accounts handle <| (accounts handle).map ({ · with pending := false })
  | .call (.drop handle), _ => Function.update accounts handle none
  | _, _ => accounts

end Move

-- A user of a store from its start, with the accounts of the outputs and all that was published.
structure Chronicle (ω : Type) where
  client : MemoryUser ω := { world := {} }
  accounts : String → Option Account := fun _ => none
  published : List Publication := []

namespace Chronicle

variable {ω : Type}

def store (x : Chronicle ω) : MemoryStore := x.client.world

def answer (x : Chronicle ω) (move : Move ω) : Answer := (move.perform x.client).1

-- What a move publishes at this point of the run.
def publishes (x : Chronicle ω) (move : Move ω) : Option (String × Bytes) :=
  move.publishes x.accounts (x.answer move)

-- A publication is entered with the stamp that its file is seen with.
def step (x : Chronicle ω) (move : Move ω) : Chronicle ω :=
  let client := (move.perform x.client).2
  let entry := (x.publishes move).bind fun (name, data) =>
    client.world.files[name]?.map fun file => Publication.mk name data file.stamp
  { client
    accounts := move.book x.accounts (x.answer move)
    published := x.published ++ entry.toList }

def after (x : Chronicle ω) (moves : List (Move ω)) : Chronicle ω := moves.foldl step x

-- What outputs hold, as their users account for it.
def accountsOf (outputs : String → Option (Opened ω MemoryOutput)) (handle : String) :
    Option Account :=
  (outputs handle).map fun held => ⟨held.handle.name, held.handle.buffer, held.handle.dirty⟩

-- An output that was closed has nothing left to publish.
def Clean (outputs : String → Option (Opened ω MemoryOutput)) : Prop :=
  ∀ handle held, outputs handle = some held → held.handle.closed = true → held.handle.dirty = false

-- At most one file is published, and nothing else comes in.
def Published (s s' : MemoryStore) : Option (String × Bytes) → Prop
  | none => MemoryStore.Quiet s s'
  | some (name, data) =>
    s'.clock = s.clock + 1 ∧ s'.files = s.files.insert name ⟨data, s.clock + 1⟩

structure Moved (x : MemoryUser ω) (move : Move ω) (r : Answer × MemoryUser ω) : Prop where
  store : Published x.world r.2.world (move.publishes (accountsOf x.outputs) r.1)
  accounts : move.book (accountsOf x.outputs) r.1 = accountsOf r.2.outputs
  clean : Clean r.2.outputs

variable {x : MemoryUser ω} {handle : String} {α : Type}
  {outputs : String → Option (Opened ω MemoryOutput)}

theorem accountsOf_update (handle : String) (held : Option (Opened ω MemoryOutput)) :
    accountsOf (Function.update outputs handle held) = Function.update (accountsOf outputs) handle
      (held.map fun held => ⟨held.handle.name, held.handle.buffer, held.handle.dirty⟩) := by
  funext other
  by_cases hsame : other = handle
  · subst hsame
    simp only [accountsOf, Function.update_self]
  · simp only [accountsOf, Function.update_of_ne hsame]

theorem Clean.update (h : Clean outputs) {held : Option (Opened ω MemoryOutput)}
    (hheld : ∀ out, held = some out → out.handle.closed = true → out.handle.dirty = false) :
    Clean (Function.update outputs handle held) := by
  intro other out hout
  by_cases hsame : other = handle
  · subst hsame
    rw [Function.update_self] at hout
    exact hheld out hout
  · rw [Function.update_of_ne hsame] at hout
    exact h other out hout

-- A call that neither publishes anything nor touches an output.
structure Untouched (x : MemoryUser ω) (r : Answer × MemoryUser ω) : Prop where
  world : MemoryStore.Quiet x.world r.2.world
  outputs : r.2.outputs = x.outputs

theorem Untouched.running {act : Act MemoryStore α}
    {done : α → MemoryUser ω → Answer × MemoryUser ω} (hact : MemoryStore.Idle act)
    (hdone : ∀ a y, Untouched y (done a y)) : Untouched x (x.running act done) := by
  have hends := hact x.world trivial
  unfold Client.running
  cases hx : act x.world with
  | ok a s =>
    have hquiet : MemoryStore.Quiet x.world s := (hends.ok hx).1.2
    have hlast := hdone a { x with world := s }
    exact ⟨MemoryStore.unpublished.trans hquiet hlast.world, hlast.outputs⟩
  | error e s => exact ⟨(hends.error hx).1.2, rfl⟩

theorem Untouched.answering {act : Act MemoryStore α} (hact : MemoryStore.Idle act)
    (answer : α → Answer) : Untouched x (x.answering act answer) :=
  .running hact fun _ _ => ⟨.same rfl, rfl⟩

theorem untouched_dropLock (x : MemoryUser ω) (handle : String) :
    MemoryStore.Quiet x.world (x.dropLock (MemoryStore.clones ω) handle).world ∧
      (x.dropLock (MemoryStore.clones ω) handle).outputs = x.outputs := by
  unfold Client.dropLock
  cases x.locks handle with
  | none => exact ⟨.same rfl, rfl⟩
  | some lock => exact ⟨MemoryStore.quiet_free lock x.world, rfl⟩

theorem untouched_unlock (x : MemoryUser ω) (handle : String) :
    Untouched x (x.unlock (MemoryStore.clones ω) handle) := by
  unfold Client.unlock
  cases x.locks handle with
  | none => exact ⟨.same rfl, rfl⟩
  | some lock => exact ⟨.same rfl, rfl⟩

theorem untouched_onInput {f : Opened ω (Reader MemoryInput) → Answer × MemoryUser ω}
    (hf : ∀ held, Untouched x (f held)) : Untouched x (x.onInput handle f) := by
  unfold Client.onInput
  cases x.inputs handle with
  | none => exact ⟨.same rfl, rfl⟩
  | some held => exact hf held

theorem untouched_read (x : MemoryUser ω) (handle : String) (len : Nat) :
    Untouched x (x.read (MemoryStore.clones ω) handle len) := by
  refine untouched_onInput fun held => ?_
  have hsame := (MemoryStore.readAt_within held.handle.source held.handle.position len x.world).2
  simp only [Reader.read, MemoryStore.clones, MemoryStore.feed]
  generalize MemoryStore.readAt held.handle.source held.handle.position len x.world = r at hsame ⊢
  obtain ⟨⟨bytes, failure⟩, s⟩ := r
  cases failure with
  | none => exact ⟨.same hsame, rfl⟩
  | some e => exact ⟨.same hsame, rfl⟩

theorem moved_of_untouched {c : Client.Call ω Empty} (hclean : Clean x.outputs)
    (h : Untouched x (x.perform (MemoryStore.clones ω) c))
    (hpublishes : ∀ accounts answer, (Move.call c).publishes accounts answer = none)
    (hbook : ∀ accounts answer, (Move.call c).book accounts answer = accounts) :
    Moved x (.call c) (x.perform (MemoryStore.clones ω) c) := by
  refine ⟨?_, ?_, h.outputs ▸ hclean⟩
  · rw [hpublishes]
    exact h.world
  · rw [hbook, h.outputs]

theorem dropOutput_eq (x : MemoryUser ω) (handle : String) :
    (x.dropOutput (MemoryStore.clones ω) handle).world = x.world ∧
      (x.dropOutput (MemoryStore.clones ω) handle).outputs = Function.update x.outputs handle none := by
  unfold Client.dropOutput
  cases hout : x.outputs handle with
  | none => exact ⟨rfl, (Function.update_eq_self_iff.mpr hout.symm).symm⟩
  | some out => exact ⟨rfl, rfl⟩

theorem keepOutput_eq (x : MemoryUser ω) (handle : String) (out : Opened ω MemoryOutput) :
    (x.keepOutput (MemoryStore.clones ω) handle out).world = x.world ∧
      (x.keepOutput (MemoryStore.clones ω) handle out).outputs =
        Function.update x.outputs handle (some out) := by
  obtain ⟨hworld, houtputs⟩ := dropOutput_eq x handle
  refine ⟨hworld, ?_⟩
  show Function.update (x.dropOutput (MemoryStore.clones ω) handle).outputs handle (some out) = _
  rw [houtputs, Function.update_idem]

theorem create_moved (hclean : Clean x.outputs) (on : ω) (name : String) (purpose : Purpose)
    (handle : String) : Moved x (.call (.create on name purpose handle))
      (x.create (MemoryStore.clones ω) on name purpose handle) := by
  have hends := MemoryStore.create_ends true x.world name purpose
  unfold Client.create Client.running
  cases hx : ((MemoryStore.clones ω).volume on).create name purpose x.world with
  | error e s =>
    have hsame := hends.error hx
    exact ⟨.same (Prod.ext (congrArg Shelf.files hsame) (congrArg Shelf.clock hsame)), rfl, hclean⟩
  | ok out s =>
    obtain ⟨hshelf, rfl⟩ := hends.ok hx
    obtain ⟨hworld, houtputs⟩ := keepOutput_eq { x with world := s } handle
      (⟨on, name, purpose, { name }⟩ : Opened ω MemoryOutput)
    refine ⟨?_, ?_, ?_⟩
    · dsimp only
      rw [hworld]
      exact ⟨congrArg Shelf.clock hshelf, congrArg Shelf.files hshelf⟩
    · dsimp only
      rw [houtputs, accountsOf_update]
      rfl
    · dsimp only
      rw [houtputs]
      refine hclean.update fun out hout hclosed => ?_
      obtain rfl := Option.some.inj hout
      cases hclosed

-- The state with an output and a store as an action of the output leaves them.
def withOutput (x : MemoryUser ω) (handle : String) (held : Opened ω MemoryOutput)
    (p : MemoryOutput × MemoryStore) : MemoryUser ω :=
  { x with
    world := p.2
    outputs := Function.update x.outputs handle (some { held with handle := p.1 }) }

theorem onOutput_spec {held : Opened ω MemoryOutput} (hheld : x.outputs handle = some held)
    {act : Act (MemoryOutput × MemoryStore) Unit} {P : Answer × MemoryUser ω → Prop}
    (h : Ends act (held.handle, x.world)
      (fun _ p => P (.moved none p.1.buffer.size, withOutput x handle held p))
      (fun e p => P (.moved (some e) p.1.buffer.size, withOutput x handle held p))) :
    P (x.onOutput (MemoryStore.clones ω) handle act) := by
  unfold Client.onOutput
  rw [hheld]
  cases hact : act (held.handle, x.world) with
  | ok u p =>
    simp only [hact]
    exact h.ok hact
  | error e p =>
    simp only [hact]
    exact h.error hact

-- An output that could not be used is as it was.
theorem withOutput_self {held : Opened ω MemoryOutput} (hheld : x.outputs handle = some held)
    (s : MemoryStore) : (withOutput x handle held (held.handle, s)).outputs = x.outputs :=
  Function.update_eq_self_iff.mpr hheld.symm

theorem noHandle_moved {move : Move ω} (hclean : Clean x.outputs)
    (hpublishes : move.publishes (accountsOf x.outputs) .noHandle = none)
    (hbook : move.book (accountsOf x.outputs) .noHandle = accountsOf x.outputs) :
    Moved x move (.noHandle, x) := by
  refine ⟨?_, hbook, hclean⟩
  rw [hpublishes]
  exact .same rfl

theorem write_moved (hclean : Clean x.outputs) (handle : String) (data : Bytes) :
    Moved x (.call (.write handle data))
      (x.onOutput (MemoryStore.clones ω) handle (MemoryStore.sink.write data)) := by
  cases hheld : x.outputs handle with
  | none =>
    rw [Client.onOutput, hheld]
    exact noHandle_moved hclean rfl rfl
  | some held =>
    refine onOutput_spec hheld ((MemoryStore.write_ends true x.world held.handle data).imp ?_ ?_)
    · intro _ p hdone
      obtain ⟨out, s⟩ := p
      obtain ⟨hshelf, hopen, rfl⟩ := hdone
      refine ⟨.same (Prod.ext (congrArg Shelf.files hshelf) (congrArg Shelf.clock hshelf)), ?_, ?_⟩
      · simp only [Move.book, withOutput, accountsOf_update]
        simp only [accountsOf, hheld, Option.map_some]
      · refine hclean.update fun out hout hclosed => ?_
        obtain rfl := Option.some.inj hout
        cases hopen.symm.trans hclosed
    · intro e p hfailed
      obtain ⟨out, s⟩ := p
      obtain ⟨hshelf, rfl⟩ := hfailed
      refine ⟨.same (Prod.ext (congrArg Shelf.files hshelf) (congrArg Shelf.clock hshelf)), ?_, ?_⟩
      · rw [withOutput_self hheld]
        rfl
      · rw [withOutput_self hheld]
        exact hclean

-- An output publishes all that it accepted, once it was asked to and if there is anything new.
theorem flushed_moved {move : Move ω} {act : Act (MemoryOutput × MemoryStore) Unit}
    (hmove : move = .call (.flush handle) ∨ move = .call (.closeOutput handle))
    (hclean : Clean x.outputs)
    (hact : ∀ held, x.outputs handle = some held → Ends act (held.handle, x.world)
      (fun _ p => p.2.shelf true = (x.world.shelf true).flush held.handle ∧
        ∃ closed, p.1 = { held.handle with dirty := false, closed })
      (fun _ p => p.2.shelf true = x.world.shelf true ∧ p.1 = held.handle)) :
    Moved x move (x.onOutput (MemoryStore.clones ω) handle act) := by
  have hquiet : ∀ accounts answer, answer = .noHandle ∨
      (∃ e position, answer = .moved (some e) position) →
      move.publishes accounts answer = none ∧ move.book accounts answer = accounts := by
    intro accounts answer hanswer
    rcases hmove with rfl | rfl <;> rcases hanswer with rfl | ⟨e, position, rfl⟩ <;>
      exact ⟨rfl, rfl⟩
  have hdone : ∀ accounts position,
      move.publishes accounts (.moved none position) = (accounts handle).bind Account.due ∧
      move.book accounts (.moved none position) =
        Function.update accounts handle ((accounts handle).map ({ · with pending := false })) := by
    rcases hmove with rfl | rfl <;> exact fun _ _ => ⟨rfl, rfl⟩
  cases hheld : x.outputs handle with
  | none =>
    rw [Client.onOutput, hheld]
    obtain ⟨hpublishes, hbook⟩ := hquiet (accountsOf x.outputs) .noHandle (.inl rfl)
    exact noHandle_moved hclean hpublishes hbook
  | some held =>
    refine onOutput_spec hheld ((hact held hheld).imp ?_ ?_)
    · intro _ p hfinished
      obtain ⟨out, s⟩ := p
      obtain ⟨hshelf, closed, rfl⟩ := hfinished
      obtain ⟨hpublishes, hbook⟩ := hdone (accountsOf x.outputs) held.handle.buffer.size
      have haccount : accountsOf x.outputs handle =
          some ⟨held.handle.name, held.handle.buffer, held.handle.dirty⟩ := by
        rw [accountsOf, hheld, Option.map_some]
      refine ⟨?_, ?_, ?_⟩
      · dsimp only
        rw [hpublishes, haccount, Option.bind_some, Account.due]
        cases hdirty : held.handle.dirty with
        | false =>
          rw [Shelf.flush, hdirty] at hshelf
          exact .same (Prod.ext (congrArg Shelf.files hshelf) (congrArg Shelf.clock hshelf))
        | true =>
          rw [Shelf.flush, hdirty] at hshelf
          exact ⟨congrArg Shelf.clock hshelf, congrArg Shelf.files hshelf⟩
      · dsimp only
        rw [hbook, haccount, withOutput, accountsOf_update]
        rfl
      · refine hclean.update fun out hout _ => ?_
        obtain rfl := Option.some.inj hout
        rfl
    · intro e p hfailed
      obtain ⟨out, s⟩ := p
      obtain ⟨hshelf, rfl⟩ := hfailed
      obtain ⟨hpublishes, hbook⟩ := hquiet (accountsOf x.outputs)
        (.moved (some e) held.handle.buffer.size) (.inr ⟨e, _, rfl⟩)
      refine ⟨?_, ?_, ?_⟩
      · dsimp only
        rw [hpublishes]
        exact .same (Prod.ext (congrArg Shelf.files hshelf) (congrArg Shelf.clock hshelf))
      · dsimp only
        rw [hbook, withOutput_self hheld]
      · dsimp only
        rw [withOutput_self hheld]
        exact hclean

theorem drop_moved (hclean : Clean x.outputs) (handle : String) :
    Moved x (.call (.drop handle)) (x.drop (MemoryStore.clones ω) handle) := by
  obtain ⟨hworld, houtputs⟩ :=
    dropOutput_eq { x with inputs := Function.update x.inputs handle none } handle
  obtain ⟨hquiet, hsame⟩ := untouched_dropLock
    (({ x with inputs := Function.update x.inputs handle none } : MemoryUser ω).dropOutput
      (MemoryStore.clones ω) handle) handle
  refine ⟨?_, ?_, ?_⟩
  · dsimp only [Client.drop]
    rw [hworld] at hquiet
    exact hquiet
  · dsimp only [Client.drop]
    rw [hsame, houtputs, accountsOf_update]
    rfl
  · dsimp only [Client.drop]
    rw [hsame, houtputs]
    exact hclean.update nofun

theorem perform_moved (hclean : Clean x.outputs) (move : Move ω) : Moved x move (move.perform x) := by
  cases move with
  | put name data => exact ⟨⟨rfl, rfl⟩, rfl, hclean⟩
  | call c =>
    cases c with
    | create on name purpose handle => exact create_moved hclean on name purpose handle
    | write handle data => exact write_moved hclean handle data
    | flush handle =>
      show Moved x _ (x.onOutput (MemoryStore.clones ω) handle MemoryStore.sink.flush)
      refine flushed_moved (.inl rfl) hclean fun held _ => ?_
      refine (MemoryStore.flush_ends true x.world held.handle).imp ?_ fun _ _ => id
      intro _ p hdone
      exact ⟨hdone.1, held.handle.closed, hdone.2⟩
    | closeOutput handle =>
      show Moved x _ (x.onOutput (MemoryStore.clones ω) handle MemoryStore.sink.close)
      refine flushed_moved (.inr rfl) hclean fun held hheld => ?_
      refine (MemoryStore.close_ends true x.world held.handle (hclean handle held hheld)).imp ?_
        fun _ _ => id
      intro _ p hdone
      exact ⟨hdone.1, true, hdone.2⟩
    | drop handle => exact drop_moved hclean handle
    | openInput on name purpose handle =>
      refine moved_of_untouched hclean ?_ (fun _ _ => rfl) fun _ _ => rfl
      show Untouched x (x.openInput (MemoryStore.clones ω) on name purpose handle)
      exact .running (MemoryStore.idle_openInput name purpose) fun _ _ => ⟨.same rfl, rfl⟩
    | list on =>
      exact moved_of_untouched hclean (.answering MemoryStore.idle_list _) (fun _ _ => rfl)
        fun _ _ => rfl
    | length on name =>
      exact moved_of_untouched hclean (.answering (MemoryStore.idle_length name) _)
        (fun _ _ => rfl) fun _ _ => rfl
    | stamp on name =>
      exact moved_of_untouched hclean (.answering (MemoryStore.idle_stamp name) _)
        (fun _ _ => rfl) fun _ _ => rfl
    | hasFile on name =>
      exact moved_of_untouched hclean (.answering (MemoryStore.idle_hasFile name) _)
        (fun _ _ => rfl) fun _ _ => rfl
    | stamped on => exact moved_of_untouched hclean ⟨.same rfl, rfl⟩ (fun _ _ => rfl) fun _ _ => rfl
    | delete on name =>
      exact moved_of_untouched hclean (.answering (MemoryStore.idle_delete name) _)
        (fun _ _ => rfl) fun _ _ => rfl
    | sync on names =>
      exact moved_of_untouched hclean (.answering (MemoryStore.idle_sync names) _)
        (fun _ _ => rfl) fun _ _ => rfl
    | closeVolume on =>
      exact moved_of_untouched hclean (.answering MemoryStore.idle_close _) (fun _ _ => rfl)
        fun _ _ => rfl
    | lock on name handle =>
      refine moved_of_untouched hclean ?_ (fun _ _ => rfl) fun _ _ => rfl
      show Untouched x (x.lock (MemoryStore.clones ω) on name handle)
      refine .running (MemoryStore.idle_lock name) fun _ y => ?_
      exact ⟨(untouched_dropLock y handle).1, (untouched_dropLock y handle).2⟩
    | unlock handle =>
      exact moved_of_untouched hclean (untouched_unlock x handle) (fun _ _ => rfl) fun _ _ => rfl
    | seek handle position =>
      refine moved_of_untouched hclean ?_ (fun _ _ => rfl) fun _ _ => rfl
      exact untouched_onInput fun _ => ⟨.same rfl, rfl⟩
    | read handle len =>
      exact moved_of_untouched hclean (untouched_read x handle len) (fun _ _ => rfl) fun _ _ => rfl
    | clone handle copy =>
      refine moved_of_untouched hclean ?_ (fun _ _ => rfl) fun _ _ => rfl
      refine untouched_onInput fun held => .running (fun s hs => ?_) fun _ _ => ⟨.same rfl, rfl⟩
      exact ⟨.refl hs, trivial⟩
    | outside change =>
      exact moved_of_untouched hclean ⟨.same rfl, rfl⟩ (fun _ _ => rfl) fun _ _ => rfl

-- The accounts are right, and the publications are in order and hold all that is visible.
structure Kept (x : Chronicle ω) : Prop where
  accounts : x.accounts = accountsOf x.client.outputs
  clean : Clean x.client.outputs
  ordered : x.published.Pairwise (·.stamp < ·.stamp)
  dated : ∀ p ∈ x.published, p.stamp ≤ x.store.clock
  visible : ∀ (name : String) (file : MemoryFile), x.store.files[name]? = some file →
    ⟨name, file.data, file.stamp⟩ ∈ x.published

-- What a move adds to the publications and to the files that are seen.
def Enters (x x' : Chronicle ω) : Option (String × Bytes) → Prop
  | none => x'.published = x.published ∧ ∀ (name : String) (file : MemoryFile),
      x'.store.files[name]? = some file → x.store.files[name]? = some file
  | some (name, data) => ∃ stamp, x'.published = x.published ++ [⟨name, data, stamp⟩] ∧
      x'.store.files[name]? = some ⟨data, stamp⟩ ∧ ∀ p ∈ x.published, p.stamp < stamp

theorem Kept.step {x : Chronicle ω} (h : x.Kept) (move : Move ω) :
    (x.step move).Kept ∧ Enters x (x.step move) (x.publishes move) := by
  have hmoved := perform_moved h.clean move
  have haccounts : (x.step move).accounts = accountsOf (x.step move).client.outputs := by
    refine Eq.trans ?_ hmoved.accounts
    rw [← h.accounts]
    rfl
  have hstore : Published x.store (x.step move).store (x.publishes move) := by
    have hmoved := hmoved.store
    rw [← h.accounts] at hmoved
    exact hmoved
  have hclean : Clean (x.step move).client.outputs := hmoved.clean
  have hentries : (x.step move).published = x.published ++
      ((x.publishes move).bind fun (name, data) =>
        (x.step move).store.files[name]?.map fun file => ⟨name, data, file.stamp⟩).toList := rfl
  cases hpublishes : x.publishes move with
  | none =>
    rw [hpublishes] at hstore hentries
    have hsame : (x.step move).published = x.published := hentries.trans (List.append_nil _)
    refine ⟨⟨haccounts, hclean, ?_, ?_, ?_⟩, hsame, hstore.files⟩
    · rw [hsame]
      exact h.ordered
    · rw [hsame, hstore.clock]
      exact h.dated
    · intro name file hfile
      rw [hsame]
      exact h.visible name file (hstore.files name file hfile)
  | some entry =>
    obtain ⟨name, data⟩ := entry
    rw [hpublishes] at hstore hentries
    obtain ⟨hclock, hfiles⟩ := hstore
    have hget : ∀ other : String, (x.step move).store.files[other]? =
        if name = other then some ⟨data, x.store.clock + 1⟩ else x.store.files[other]? := by
      intro other
      rw [hfiles]
      exact Maps.getElem?_insert _ _ _ _
    have hself := (hget name).trans (if_pos rfl)
    rw [Option.bind_some] at hentries
    dsimp only at hentries
    rw [hself, Option.map_some, Option.toList_some] at hentries
    have hnewer : ∀ p ∈ x.published, p.stamp < x.store.clock + 1 := fun p hp =>
      Nat.lt_succ_of_le (h.dated p hp)
    refine ⟨⟨haccounts, hclean, ?_, ?_, ?_⟩, _, hentries, hself, hnewer⟩
    · rw [hentries, List.pairwise_append]
      refine ⟨h.ordered, List.pairwise_singleton _ _, fun p hp q hq => ?_⟩
      rw [List.mem_singleton.mp hq]
      exact hnewer p hp
    · intro p hp
      rw [hentries, List.mem_append, List.mem_singleton] at hp
      rw [hclock]
      rcases hp with hp | rfl
      · exact Nat.le_of_lt (hnewer p hp)
      · exact Nat.le_refl _
    · intro other file hfile
      rw [hentries, List.mem_append, List.mem_singleton]
      rw [hget] at hfile
      split at hfile
      · next hsame =>
        obtain rfl := Option.some.inj hfile
        exact .inr (hsame ▸ rfl)
      · exact .inl (h.visible other file hfile)

theorem kept_fresh : ({} : Chronicle ω).Kept where
  accounts := rfl
  clean _ _ := nofun
  ordered := List.Pairwise.nil
  dated _ := nofun
  visible name file hfile := absurd hfile (Maps.getElem?_empty_ne name file)

theorem Kept.after {x : Chronicle ω} (h : x.Kept) (moves : List (Move ω)) :
    (x.after moves).Kept ∧ x.published <+: (x.after moves).published := by
  induction moves generalizing x with
  | nil => exact ⟨h, List.prefix_rfl⟩
  | cons move moves ih =>
    obtain ⟨hkept, hentered⟩ := ih (h.step move).1
    refine ⟨hkept, List.IsPrefix.trans ?_ hentered⟩
    exact List.prefix_append _ _

-- A stamp belongs to one publication.
theorem Kept.eq_of_stamp {x : Chronicle ω} (h : x.Kept) {p q : Publication} (hp : p ∈ x.published)
    (hq : q ∈ x.published) (hstamp : p.stamp = q.stamp) : p = q := by
  have hstamps : (x.published.map (·.stamp)).Nodup :=
    List.pairwise_map.mpr (h.ordered.imp Nat.ne_of_lt)
  exact List.inj_on_of_nodup_map hstamps hp hq hstamp

-- Two files that are seen with one stamp, now or later, are one version of one file.
theorem Kept.same_version {x : Chronicle ω} (h : x.Kept) (more : List (Move ω)) {a b : String}
    {file file' : MemoryFile} (hfile : x.store.files[a]? = some file)
    (hfile' : (x.after more).store.files[b]? = some file') (hstamp : file.stamp = file'.stamp) :
    a = b ∧ file.data = file'.data := by
  obtain ⟨hkept, hentered⟩ := h.after more
  have hsame := hkept.eq_of_stamp (hentered.subset (h.visible a file hfile))
    (hkept.visible b file' hfile') hstamp
  injection hsame with hname hdata
  exact ⟨hname, hdata⟩

-- The bytes that are seen of a file.
def content (x : Chronicle ω) (name : String) : Option Bytes :=
  x.store.files[name]?.map (·.data)

theorem stamp_answer {x : Chronicle ω} {on : ω} {name : String} {n : Nat}
    (h : (outcome (((MemoryStore.clones ω).volume on).stamp name) x.store).1 = .ok n) :
    ∃ file, x.store.files[name]? = some file ∧ n = file.stamp :=
  ((MemoryStore.stamp_ends true x.store name).ok (eq_ok_of_outcome h)).2

-- A cache name is made of the stamp that the file is seen with.
theorem cacheName_answer {x : Chronicle ω} {d : Directory} {tier : Tier} {name label : String}
    (h : (outcome (d.cacheName (Directory.plain (MemoryStore.volume true)) name)
      ⟨tier, x.store⟩).1 = .ok label) :
    ∃ file, x.store.files[name]? = some file ∧ label = d.version name file.stamp := by
  have hends : Ends (d.cacheName (Directory.plain (MemoryStore.volume true)) name) ⟨tier, x.store⟩
      (fun label _ => ∃ file, x.store.files[name]? = some file ∧ label = d.version name file.stamp)
      (fun _ _ => True) := by
    simp only [Directory.cacheName, Directory.plain, Volume.lift, ends_bind, Site.ends_onStore,
      ends_pure]
    refine (MemoryStore.stamp_ends true x.store name).imp ?_ fun _ _ _ => trivial
    intro stamp _ hdone
    obtain ⟨_, file, hfile, rfl⟩ := hdone
    exact ⟨file, hfile, rfl⟩
  exact hends.ok (eq_ok_of_outcome h)

-- Whatever the users of a store and of its clones do from its start, with as many outputs as they
-- like on the same or on different files. Every move enters at most one publication, which is the
-- file that is put, an empty new file, or all that an output accepted if something of it is new; its
-- stamp is above all that were handed out before. So a file that has the same stamp at two moments
-- has the same bytes, and a cache name stands for one content of one file.
theorem content_of_version (moves more : List (Move ω)) :
    let x := ({} : Chronicle ω).after moves
    let y := x.after more
    (∀ move, Enters x (x.step move) (x.publishes move)) ∧
    (∀ (name : String) (file : MemoryFile), x.store.files[name]? = some file →
      ⟨name, file.data, file.stamp⟩ ∈ x.published) ∧
    x.published <+: y.published ∧
    (∀ on on' name n,
      (outcome (((MemoryStore.clones ω).volume on).stamp name) x.store).1 = .ok n →
      (outcome (((MemoryStore.clones ω).volume on').stamp name) y.store).1 = .ok n →
      ∃ data, x.content name = some data ∧ y.content name = some data) ∧
    ∀ (d : Directory) (tier tier' : Tier) (a b label : String),
      let cacheName := d.cacheName (Directory.plain (MemoryStore.volume true))
      (outcome (cacheName a) ⟨tier, x.store⟩).1 = .ok label →
      (outcome (cacheName b) ⟨tier', y.store⟩).1 = .ok label →
      a = b ∧ ∃ data, x.content a = some data ∧ y.content b = some data := by
  intro x y
  have hx : x.Kept := (kept_fresh.after moves).1
  refine ⟨fun move => (hx.step move).2, hx.visible, (hx.after more).2, ?_, ?_⟩
  · intro on on' name n hnow hlater
    obtain ⟨file, hfile, rfl⟩ := stamp_answer hnow
    obtain ⟨file', hfile', hstamp⟩ := stamp_answer hlater
    obtain ⟨_, hdata⟩ := hx.same_version more hfile hfile' hstamp
    refine ⟨file.data, ?_, ?_⟩
    · rw [content, hfile, Option.map_some]
    · rw [content, hfile', Option.map_some, hdata]
  · intro d tier tier' a b label cacheName hnow hlater
    obtain ⟨file, hfile, hlabel⟩ := cacheName_answer hnow
    obtain ⟨file', hfile', hlabel'⟩ := cacheName_answer hlater
    obtain ⟨rfl, hstamp⟩ := Directory.version_inj (hlabel.symm.trans hlabel')
    obtain ⟨_, hdata⟩ := hx.same_version more hfile hfile' hstamp
    refine ⟨rfl, file.data, ?_, ?_⟩
    · rw [content, hfile, Option.map_some]
    · rw [content, hfile', Option.map_some, hdata]

-- Two outputs on one file take turns, it is deleted and made again after that, and one of them still
-- publishes after the store was closed. In between the stamp of the file does not change.
theorem content_of_version_interleaved :
    let moves : List (Move Bool) := [.call (.create true "a" .general "o"),
      .call (.create false "a" .general "w"), .call (.write "o" ⟨#[1]⟩), .call (.write "w" ⟨#[2]⟩),
      .call (.flush "w"), .call (.flush "w"), .call (.flush "o"), .call (.delete true "a"),
      .put "a" ⟨#[3]⟩, .call (.write "w" ⟨#[4]⟩), .call (.closeVolume false),
      .call (.closeOutput "w")]
    let more : List (Move Bool) := [.call (.closeOutput "w"), .put "b" ⟨#[5]⟩, .call (.drop "o"),
      .call (.create true "a" .general "o")]
    let x := ({} : Chronicle Bool).after moves
    let y := x.after more
    x.published.map (fun p => (p.name, p.data.data, p.stamp)) =
      [("a", #[], 1), ("a", #[], 2), ("a", #[2], 3), ("a", #[1], 4), ("a", #[3], 5),
        ("a", #[2, 4], 6)] ∧
    ∃ data, x.content "a" = some data ∧ y.content "a" = some data := by
  intro moves more x y
  obtain ⟨_, _, _, hstamp, _⟩ := content_of_version moves more
  exact ⟨by decide +kernel, hstamp true false "a" 6 (by decide +kernel) (by decide +kernel)⟩

end Chronicle

end Blockwise
