import Blockwise.Proofs.Maps
import Blockwise.Proofs.Stream.Safety
import Blockwise.Volume.World

namespace Blockwise

open Act

-- Calls on a volume, and the handles they give out.
structure Volume.Safe {σ ι δ κ : Type} (v : Volume σ ι δ κ) (g : Regime σ) (input : ι → Prop)
    (out : δ → Prop) (lock : κ → Prop) : Prop where
  openInput : ∀ name purpose, Act.Safe g (v.openInput name purpose) input
  create : ∀ name purpose, Act.Safe g (v.create name purpose) out
  list : Act.Safe g v.list fun _ => True
  delete : ∀ name, Act.Safe g (v.delete name) fun _ => True
  hasFile : ∀ name, Act.Safe g (v.hasFile name) fun _ => True
  length : ∀ name, Act.Safe g (v.length name) fun _ => True
  stamp : ∀ name, Act.Safe g (v.stamp name) fun _ => True
  sync : ∀ names, Act.Safe g (v.sync names) fun _ => True
  lock : ∀ name, Act.Safe g (v.lock name) lock
  close : Act.Safe g v.close fun _ => True

structure Keeper.Safe {κ σ : Type} (keeper : Keeper κ σ) (g : Regime σ) (sound : κ → Prop) :
    Prop where
  release : Act.Safe (g.withHandle sound) keeper.release fun _ => True
  drop : ∀ lock s, sound lock → g.holds s → g.Leaves s (keeper.drop lock s)

namespace Sink

variable {δ σ α : Type} {sink : Sink δ σ} {g : Regime σ} {sound : δ → Prop}

theorem Safe.during (h : sink.Safe g sound) {handle : δ} (hhandle : sound handle)
    {x : Act (δ × σ) α} {done : α → Prop} (hx : Act.Safe (g.withHandle sound) x done) :
    Act.Safe g (sink.during handle x) done := by
  intro s hs
  have hends := hx (handle, s) ⟨hhandle, hs⟩
  simp only [Ends, Sink.during] at hends ⊢
  cases hrun : x (handle, s) with
  | ok a p =>
    obtain ⟨out, s'⟩ := p
    rw [hrun] at hends
    obtain ⟨⟨⟨hout, hs'⟩, hmoves⟩, hdone⟩ := hends
    exact ⟨Regime.Leaves.trans ⟨hs', hmoves⟩ (h.drop out s' hout hs'), hdone⟩
  | error e p =>
    obtain ⟨out, s'⟩ := p
    rw [hrun] at hends
    obtain ⟨⟨⟨hout, hs'⟩, hmoves⟩, hhandled⟩ := hends
    exact ⟨Regime.Leaves.trans ⟨hs', hmoves⟩ (h.drop out s' hout hs'), hhandled⟩

end Sink

namespace Volume

variable {σ τ ι δ κ ι' δ' κ' : Type} {v : Volume σ ι δ κ} {g : Regime σ} {input : ι → Prop}
  {out : δ → Prop} {lock : κ → Prop}

theorem Safe.lift {v : Volume τ ι δ κ} {g' : Regime τ} (h : v.Safe g' input out lock)
    {run : {α : Type} → Act τ α → Act σ α}
    (hrun : ∀ {α : Type} {x : Act τ α} {done : α → Prop}, Act.Safe g' x done →
      Act.Safe g (run x) done)
    {toInput : ι → ι'} {toOut : δ → δ'} {toLock : κ → κ'} {input' : ι' → Prop} {out' : δ' → Prop}
    {lock' : κ' → Prop} (hinput : ∀ i, input i → input' (toInput i))
    (hout : ∀ o, out o → out' (toOut o)) (hlock : ∀ l, lock l → lock' (toLock l)) :
    (v.lift run toInput toOut toLock).Safe g input' out' lock' where
  openInput name purpose := (hrun (h.openInput name purpose)).map hinput
  create name purpose := (hrun (h.create name purpose)).map hout
  list := hrun h.list
  delete name := hrun (h.delete name)
  hasFile name := hrun (h.hasFile name)
  length name := hrun (h.length name)
  stamp name := hrun (h.stamp name)
  sync names := hrun (h.sync names)
  lock name := (hrun (h.lock name)).map hlock
  close := hrun h.close

theorem Safe.minimal (h : v.Safe g input out lock) : v.minimal.Safe g input out lock :=
  { h with
    stamp := fun _ => .fail _
    lock := fun _ => .fail _ }

theorem Safe.readWhole (h : v.Safe g input out lock) {feed : Feed ι σ} (hfeed : feed.Safe g input)
    (name : String) (purpose : Purpose) :
    Act.Safe g (v.readWhole feed name purpose) fun _ => True := by
  refine (h.openInput name purpose).bind fun source hsource => ?_
  have hread : Act.Safe g (modifyGet (feed.read source 0 (feed.length source))) fun d =>
      d.Within (feed.length source) := fun s hs => hfeed.read source 0 _ s hsource hs
  refine hread.bind fun delivery hwithin => ?_
  cases hfailure : delivery.failure with
  | none => exact .pure trivial
  | some e => exact .throw (hwithin.handled e hfailure)

theorem Safe.writeWhole (h : v.Safe g input out lock) {sink : Sink δ σ} (hsink : sink.Safe g out)
    (name : String) (purpose : Purpose) (data : Bytes) :
    Act.Safe g (v.writeWhole sink name purpose data) fun _ => True :=
  (h.create name purpose).bind fun _ hout =>
    hsink.during hout ((hsink.write data).bind fun _ _ => hsink.close)

theorem safe_copyPart {feed : Feed ι σ} (hfeed : feed.Safe g input) {out' : δ' → Prop}
    {sink : Sink δ' σ} (hsink : sink.Safe g out') {source : ι} (hsource : input source)
    (position len : Nat) :
    Act.Safe (g.withHandle out') (copyPart feed sink source position len) fun _ => True := by
  intro p hp
  obtain ⟨o, s⟩ := p
  obtain ⟨hleaves, hwithin⟩ := hfeed.read source position len s hsource hp.2
  rcases hread : feed.read source position len s with ⟨⟨bytes, failure⟩, s'⟩
  rw [hread] at hleaves hwithin
  cases failure with
  | some e =>
    simp only [Ends, copyPart, hread]
    exact ⟨Regime.leaves_withHandle hp.1 hleaves, hwithin.handled e rfl⟩
  | none =>
    have hwritten := hsink.write bytes (o, s') ⟨hp.1, hleaves.1⟩
    simp only [Ends, copyPart, hread] at hwritten ⊢
    exact Ends.imp hwritten
      (fun _ _ h => ⟨Regime.Leaves.trans (Regime.leaves_withHandle hp.1 hleaves) h.1, h.2⟩)
      fun _ _ h => ⟨Regime.Leaves.trans (Regime.leaves_withHandle hp.1 hleaves) h.1, h.2⟩

theorem safe_copyParts {feed : Feed ι σ} (hfeed : feed.Safe g input) {out' : δ' → Prop}
    {sink : Sink δ' σ} (hsink : sink.Safe g out') {source : ι} (hsource : input source)
    (position : Nat) (parts : List Nat) :
    Act.Safe (g.withHandle out') (copyParts feed sink source position parts) fun _ => True := by
  induction parts generalizing position with
  | nil => exact .pure trivial
  | cons len rest ih =>
    exact (safe_copyPart hfeed hsink hsource position len).bind fun _ _ => ih (position + len)

theorem Safe.copy (h : v.Safe g input out lock) {feed : Feed ι σ} (hfeed : feed.Safe g input)
    {input' : ι' → Prop} {out' : δ' → Prop} {lock' : κ' → Prop} {dest : Volume σ ι' δ' κ'}
    (hdest : dest.Safe g input' out' lock') {sink : Sink δ' σ} (hsink : sink.Safe g out')
    (name destName : String) (purpose : Purpose) :
    Act.Safe g (v.copy feed dest sink name destName purpose) fun _ => True :=
  (h.openInput name purpose).bind fun source hsource =>
    (hdest.create destName purpose).bind fun _ hout =>
      hsink.during hout ((safe_copyParts hfeed hsink hsource 0 (Grid.parts (feed.length source))).bind
        fun _ _ => hsink.close)

end Volume

namespace MemoryStore

variable {t t' : MemoryStore}

-- No file has a stamp that was not given out yet.
def Dated (t : MemoryStore) : Prop :=
  ∀ (name : String) (file : MemoryFile), t.files[name]? = some file → file.stamp ≤ t.clock

-- A file is what it was, or it is newer than all that was there.
structure Grows (t t' : MemoryStore) : Prop where
  clock : t.clock ≤ t'.clock
  files : ∀ (name : String) (file : MemoryFile), t'.files[name]? = some file →
    t.files[name]? = some file ∨ t.clock < file.stamp

def regime : Regime MemoryStore where
  holds := Dated
  moves := Grows
  refl _ := ⟨Nat.le_refl _, fun _ _ h => .inl h⟩
  trans h h' := by
    refine ⟨Nat.le_trans h.clock h'.clock, fun name file hfile => ?_⟩
    rcases h'.files name file hfile with hold | hnew
    · exact h.files name file hold
    · exact .inr (Nat.lt_of_le_of_lt h.clock hnew)

theorem leaves_of_files (ht : regime.holds t) (hsame : (t'.files, t'.clock) = (t.files, t.clock)) :
    regime.Leaves t t' := by
  obtain ⟨hfiles, hclock⟩ := Prod.mk.inj hsame
  refine ⟨fun name file hfile => ?_, Nat.le_of_eq hclock.symm, fun name file hfile => ?_⟩
  · rw [hclock]
    exact ht name file (hfiles ▸ hfile)
  · exact .inl (hfiles ▸ hfile)

theorem leaves_publish (ht : regime.holds t) (name : String) (data : Bytes) :
    regime.Leaves t (t.publish name data) := by
  have hget (other : String) (file : MemoryFile)
      (hfile : (t.publish name data).files[other]? = some file) :
      t.files[other]? = some file ∨ file.stamp = t.clock + 1 := by
    rw [publish, Maps.getElem?_insert] at hfile
    split at hfile
    · exact .inr (congrArg MemoryFile.stamp (Option.some.inj hfile).symm)
    · exact .inl hfile
  have hclock : (t.publish name data).clock = t.clock + 1 := rfl
  refine ⟨fun other file hfile => ?_, Nat.le_succ _, fun other file hfile => ?_⟩
  · rcases hget other file hfile with hold | hnew
    · have hle := ht other file hold
      omega
    · omega
  · exact (hget other file hfile).imp_right fun hnew => by omega

theorem leaves_erase (ht : regime.holds t) (name : String) :
    regime.Leaves t { t with files := t.files.erase name } := by
  have hget (other : String) (file : MemoryFile)
      (hfile : (t.files.erase name)[other]? = some file) : t.files[other]? = some file := by
    rw [Maps.getElem?_erase] at hfile
    split at hfile
    · cases hfile
    · exact hfile
  exact ⟨fun other file hfile => ht other file (hget other file hfile), Nat.le_refl _,
    fun other file hfile => .inl (hget other file hfile)⟩

theorem safe_requireOpen : Safe regime requireOpen fun _ => True := by
  refine .get fun t ht => ?_
  split
  · exact ⟨.refl ht, trivial⟩
  · exact ⟨.refl ht, trivial⟩

theorem safe_find (name : String) : Safe regime (find name) fun _ => True := by
  refine .get fun t ht => ?_
  cases t.files[name]? with
  | none => exact ⟨.refl ht, trivial⟩
  | some file => exact ⟨.refl ht, trivial⟩

theorem safe_lock (name : String) : Safe regime (lock name) fun _ => True := by
  refine safe_requireOpen.bind fun _ _ => .get fun t ht => ?_
  split
  · exact ⟨.refl ht, trivial⟩
  · exact ⟨leaves_of_files ht rfl, trivial⟩

theorem volume_safe (stamped : Bool) :
    (volume stamped).Safe regime (fun _ => True) (fun _ => True) fun _ => True where
  openInput name _ := safe_requireOpen.bind fun _ _ => (safe_find name).bind fun _ _ => .pure trivial
  create name _ := safe_requireOpen.bind fun _ _ =>
    (Safe.modify fun _ ht => leaves_publish ht name _).bind fun _ _ => .pure trivial
  list := safe_requireOpen.bind fun _ _ => .get fun _ ht => ⟨.refl ht, trivial⟩
  delete name := safe_requireOpen.bind fun _ _ => (safe_find name).bind fun _ _ =>
    .modify fun _ ht => leaves_erase ht name
  hasFile _ := .get fun _ ht => ⟨.refl ht, trivial⟩
  length name := (safe_find name).bind fun _ _ => .pure trivial
  stamp name := by
    cases stamped with
    | true => exact (safe_find name).bind fun _ _ => .pure trivial
    | false => exact .fail _
  sync names := .forM fun name => (safe_find name).bind fun _ _ => .pure trivial
  lock := safe_lock
  close := .modify fun _ ht => leaves_of_files ht rfl

-- A read is refused past the end, and delivers all it is asked for before it.
theorem readAt_within (input : MemoryInput) (position len : Nat) (t : MemoryStore) :
    (readAt input position len t).1.Within len ∧
      ((readAt input position len t).2.files, (readAt input position len t).2.clock) =
        (t.files, t.clock) := by
  simp only [readAt, readPastEof]
  by_cases hpast : input.data.size < position + len
  · rw [if_pos hpast]
    exact ⟨Delivery.within_refused _ len, rfl⟩
  · rw [if_neg hpast]
    have hsize : (Bytes.slice input.data position len).size = len :=
      Bytes.size_slice_of_le (Nat.not_lt.mp hpast)
    exact ⟨⟨Nat.le_of_eq hsize, fun _ => hsize, fun e he => absurd he (Option.not_mem_none e)⟩, rfl⟩

theorem feed_safe : feed.Safe regime fun _ => True where
  seek _ _ _ := .pure trivial
  read input position len t _ ht := by
    obtain ⟨hwithin, hfiles⟩ := readAt_within input position len t
    exact ⟨leaves_of_files ht hfiles, hwithin⟩
  clone _ _ := .pure trivial

theorem safe_flush : Safe (regime.withHandle fun _ => True) flush fun _ => True := by
  intro p hp
  obtain ⟨⟨name, buffer, dirty, closed⟩, t⟩ := p
  cases dirty with
  | true => exact ⟨Regime.leaves_withHandle trivial (leaves_publish hp.2 name buffer), trivial⟩
  | false => exact ⟨.refl hp, trivial⟩

theorem sink_safe : sink.Safe regime fun _ => True where
  write data := by
    intro p hp
    obtain ⟨⟨name, buffer, dirty, closed⟩, t⟩ := p
    cases closed with
    | true => exact ⟨.refl hp, trivial⟩
    | false => exact ⟨Regime.leaves_withHandle trivial (.refl hp.2), trivial⟩
  flush := safe_flush
  close := by
    intro p hp
    obtain ⟨⟨name, buffer, dirty, closed⟩, t⟩ := p
    cases closed with
    | true => exact ⟨.refl hp, trivial⟩
    | false =>
      exact (safe_flush.bind fun _ _ => .modify fun _ hp => ⟨hp, regime.refl _⟩)
        (⟨name, buffer, dirty, false⟩, t) hp
  drop _ _ _ ht := .refl ht

theorem keeper_safe : keeper.Safe regime fun _ => True where
  release := .modify fun p hp => by
    obtain ⟨lock, t⟩ := p
    exact Regime.leaves_withHandle trivial (leaves_of_files hp.2 rfl)
  drop lock t _ ht := by
    simp only [keeper]
    split
    · exact leaves_of_files ht rfl
    · exact .refl ht

end MemoryStore

namespace Guarded

variable {γ β ι δ κ α : Type} {g : Regime β} {verdict : Verdict γ}

-- The store behind a guard keeps to its regime, whatever the guard does.
def regime (g : Regime β) : Regime (Guarded γ β) where
  holds s := g.holds s.inner
  moves s s' := g.moves s.inner s'.inner
  refl s := g.refl s.inner
  trans := g.trans

theorem safe_onInner {x : Act β α} {done : α → Prop} (hx : Safe g x done) :
    Safe (regime g (γ := γ)) (onInner x) done :=
  hx.onPart (fun _ hs => hs) fun _ _ _ hleaves => hleaves

-- A guard refuses with an error of its own.
theorem safe_ask (verdict : Verdict γ) (kind : CallKind) (name : String) :
    Safe (regime g) (ask verdict kind name) fun _ => True := by
  intro s hs
  simp only [Ends, ask, onPart, mapFailure]
  cases verdict kind name s.guard with
  | ok a guard => exact ⟨⟨hs, g.refl _⟩, trivial⟩
  | error e guard => exact ⟨⟨hs, g.refl _⟩, trivial⟩

theorem volume_safe {v : Volume β ι δ κ} {input : ι → Prop} {out : δ → Prop} {lock : κ → Prop}
    (h : v.Safe g input out lock) : (Guarded.volume verdict v).Safe (regime g) input out lock where
  openInput name purpose := (safe_ask _ _ _).bind fun _ _ => safe_onInner (h.openInput name purpose)
  create name purpose := (safe_ask _ _ _).bind fun _ _ => safe_onInner (h.create name purpose)
  list := (safe_ask _ _ _).bind fun _ _ => safe_onInner h.list
  delete name := (safe_ask _ _ _).bind fun _ _ => safe_onInner (h.delete name)
  hasFile name := safe_onInner (h.hasFile name)
  length name := safe_onInner (h.length name)
  stamp name := (safe_ask _ _ _).bind fun _ _ => safe_onInner (h.stamp name)
  sync names := safe_onInner (h.sync names)
  lock name := safe_onInner (h.lock name)
  close := (safe_ask _ _ _).bind fun _ _ => safe_onInner h.close

theorem feed_safe {feed : Feed ι β} {sound : ι → Prop} (h : feed.Safe g sound) :
    (Guarded.feed verdict feed).Safe (regime g) sound where
  seek input position hinput :=
    (safe_ask _ _ _).bind fun _ _ => safe_onInner (h.seek input position hinput)
  read input position len s hinput hs := by
    have hask := safe_ask verdict .read (feed.name input) s hs
    simp only [Guarded.feed]
    cases hrun : ask verdict .read (feed.name input) s with
    | error e s' =>
      obtain ⟨hleaves, hhandled⟩ := hask.error hrun
      exact ⟨hleaves, Nat.zero_le _, nofun, fun _ he => Option.some.inj he ▸ hhandled⟩
    | ok a s' =>
      obtain ⟨hleaves, _⟩ := hask.ok hrun
      obtain ⟨hread, hwithin⟩ := h.read input position len s'.inner hinput hleaves.1
      exact ⟨⟨hread.1, g.trans hleaves.2 hread.2⟩, hwithin⟩
  clone input hinput := (safe_ask _ _ _).bind fun _ _ => safe_onInner (h.clone input hinput)

theorem safe_guardSink {sink : Sink δ β} {sound : δ → Prop} (kind : CallKind)
    {x : Act (δ × β) Unit} (hx : Safe (g.withHandle sound) x fun _ => True) :
    Safe ((regime g).withHandle sound) (guardSink verdict sink kind x) fun _ => True := by
  refine .get fun p hp => ?_
  obtain ⟨out, s⟩ := p
  have hask : Safe ((regime g).withHandle sound)
      (onPart Prod.snd (fun p s => (p.1, s)) (ask verdict kind (sink.name out)))
      fun _ => True :=
    (safe_ask _ _ _).onPart (fun _ hp => hp.2) fun _ _ hp hleaves => ⟨⟨hp.1, hleaves.1⟩, hleaves.2⟩
  have hinner : Safe ((regime g (γ := γ)).withHandle sound)
      (onPart (fun p => (p.1, p.2.inner)) (fun p q => (q.1, { p.2 with inner := q.2 })) x)
      fun _ => True := hx.onPart (fun _ hp => hp) fun _ _ _ hleaves => hleaves
  exact (hask.bind fun _ _ => hinner) (out, s) hp

theorem sink_safe {sink : Sink δ β} {sound : δ → Prop} (h : sink.Safe g sound) :
    (Guarded.sink verdict sink).Safe (regime g) sound where
  write data := safe_guardSink _ (h.write data)
  flush := safe_guardSink _ h.flush
  close := safe_guardSink _ h.close
  drop out s hout hs := h.drop out s.inner hout hs

theorem keeper_safe {keeper : Keeper κ β} {sound : κ → Prop} (h : keeper.Safe g sound) :
    (Guarded.keeper (γ := γ) keeper).Safe (regime g) sound where
  release := h.release.onPart (fun _ hp => hp) fun _ _ _ hleaves => hleaves
  drop lock s hlock hs := h.drop lock s.inner hlock hs

end Guarded

-- A handle of one of the first stores in memory.
def Sited.InMemory {α β : Type} (n : Nat) : Sited α β → Prop
  | .memory i _ => i < n
  | .disk _ _ => False

namespace World

variable {α δ ε : Type} {n i : Nat}

abbrev memoryRegime : Regime (Guarded Faults MemoryStore) := Guarded.regime MemoryStore.regime

-- So many stores in memory, each of which keeps to its regime.
def regime (n : Nat) : Regime World where
  holds w := (Regime.each n memoryRegime).holds w.memories
  moves w w' := (Regime.each n memoryRegime).moves w.memories w'.memories
  refl w := (Regime.each n memoryRegime).refl w.memories
  trans := (Regime.each n memoryRegime).trans

theorem safe_onMemory (hi : i < n) {x : Act (Guarded Faults MemoryStore) α} {done : α → Prop}
    (hx : Safe memoryRegime x done) : Safe (regime n) (onMemory i x) done :=
  (hx.element hi).onPart (fun _ hw => hw) fun _ _ _ hleaves => hleaves

theorem memoryVolume_safe (hi : i < n) {v : Volume MemoryStore MemoryInput MemoryOutput MemoryLock}
    (h : v.Safe MemoryStore.regime (fun _ => True) (fun _ => True) fun _ => True) :
    (memoryVolume i v).Safe (regime n) (Sited.InMemory n) (Sited.InMemory n) (Sited.InMemory n) :=
  (Guarded.volume_safe h).lift (safe_onMemory hi) (fun _ _ => hi) (fun _ _ => hi) fun _ _ => hi

theorem feed_safe (n : Nat) : feed.Safe (regime n) (Sited.InMemory n) where
  seek input position hinput := by
    cases input with
    | memory i input =>
      exact safe_onMemory hinput ((Guarded.feed_safe MemoryStore.feed_safe).seek input position trivial)
    | disk i input => exact hinput.elim
  read input position len w hinput hw := by
    cases input with
    | memory i input =>
      obtain ⟨t, ht, hholds⟩ := Regime.exists_of_lt hw hinput
      have hguarded : memoryFeed.Safe memoryRegime fun _ => True :=
        Guarded.feed_safe MemoryStore.feed_safe
      obtain ⟨hleaves, hwithin⟩ := hguarded.read input position len t trivial hholds
      simp only [feed, readElement, ht]
      exact ⟨Regime.leaves_setIfInBounds hw ht hleaves, hwithin⟩
    | disk i input => exact hinput.elim
  clone input hinput := by
    cases input with
    | memory i input =>
      exact (safe_onMemory hinput
        ((Guarded.feed_safe MemoryStore.feed_safe).clone input trivial)).map fun _ _ => hinput
    | disk i input => exact hinput.elim

theorem safe_onHandle {x : Act (δ × Guarded Faults MemoryStore) Unit}
    {y : Act (ε × Guarded Faults DiskStore) Unit}
    (hx : Safe (memoryRegime.withHandle fun _ => True) x fun _ => True) :
    Safe ((regime n).withHandle (Sited.InMemory n)) (onHandle x y) fun _ => True := by
  intro p hp
  obtain ⟨handle, w⟩ := p
  obtain ⟨hhandle, hw⟩ := hp
  cases handle with
  | disk i d => exact hhandle.elim
  | memory i m =>
    obtain ⟨t, ht, hholds⟩ := Regime.exists_of_lt hw hhandle
    have hends := hx (m, t) ⟨trivial, hholds⟩
    simp only [Ends, onHandle, onPart, withElement, ht] at hends ⊢
    cases hrun : x (m, t) with
    | ok a p' =>
      rw [hrun] at hends
      obtain ⟨⟨⟨_, hholds'⟩, hmoves⟩, _⟩ := hends
      exact ⟨Regime.leaves_withHandle hhandle
        (Regime.leaves_setIfInBounds hw ht ⟨hholds', hmoves⟩), trivial⟩
    | error e p' =>
      rw [hrun] at hends
      obtain ⟨⟨⟨_, hholds'⟩, hmoves⟩, hhandled⟩ := hends
      exact ⟨Regime.leaves_withHandle hhandle
        (Regime.leaves_setIfInBounds hw ht ⟨hholds', hmoves⟩), hhandled⟩

theorem leaves_dropHandle {f : δ → Guarded Faults MemoryStore → Guarded Faults MemoryStore}
    {g : ε → Guarded Faults DiskStore → Guarded Faults DiskStore} {handle : Sited δ ε} {w : World}
    (hf : ∀ m t, memoryRegime.holds t → memoryRegime.Leaves t (f m t)) (hw : (regime n).holds w) :
    (regime n).Leaves w (dropHandle f g handle w) := by
  cases handle with
  | memory i m => exact Regime.leaves_modify hw (hf m) i
  | disk i d => exact .refl hw

theorem sink_safe (n : Nat) : sink.Safe (regime n) (Sited.InMemory n) where
  write data := safe_onHandle ((Guarded.sink_safe MemoryStore.sink_safe).write data)
  flush := safe_onHandle (Guarded.sink_safe MemoryStore.sink_safe).flush
  close := safe_onHandle (Guarded.sink_safe MemoryStore.sink_safe).close
  drop _ _ _ hw := leaves_dropHandle
    (fun m t ht => (Guarded.sink_safe MemoryStore.sink_safe).drop m t trivial ht) hw

theorem keeper_safe (n : Nat) : keeper.Safe (regime n) (Sited.InMemory n) where
  release := safe_onHandle (Guarded.keeper_safe MemoryStore.keeper_safe).release
  drop _ _ _ hw := leaves_dropHandle
    (fun m t ht => (Guarded.keeper_safe MemoryStore.keeper_safe).drop m t trivial ht) hw

end World

namespace Directory

variable {β ι ο κ : Type} {pools : Nat} {shape : Option (Nat × Nat)} {store : Regime β}
  {input : ι → Prop} {out : ο → Prop} {lock : κ → Prop} {feed : Feed ι β} {below : Below β ι ο κ}
  {d : Directory}

-- A volume of a site whose handles are sound.
abbrev Below.Sturdy (below : Below β ι ο κ) (pools : Nat) (shape : Option (Nat × Nat))
    (store : Regime β) (input : ι → Prop) (out : ο → Prop) (lock : κ → Prop) : Prop :=
  Volume.Safe below (Site.regime pools shape store) (Source.Sound pools input)
    (Output.Sound (Site.regime pools shape store) out) lock

theorem plain_safe {v : Volume β ι ο κ} (h : v.Safe store input out lock) :
    (plain v).Sturdy pools shape store input out lock :=
  h.lift Site.safe_onStore (fun _ hinput => hinput) (fun _ hout => hout) fun _ hlock => hlock

theorem safe_cacheName (h : below.Sturdy pools shape store input out lock) (name : String) :
    Safe (Site.regime pools shape store) (d.cacheName below name) fun _ => True :=
  (h.stamp name).bind fun _ _ => .pure trivial

theorem safe_purge (h : below.Sturdy pools shape store input out lock) (name : String) :
    Safe (Site.regime pools shape store) (d.purge below name) fun _ => True := by
  refine (safe_cacheName h name).attempt.bind fun result _ => ?_
  cases result with
  | ok cacheName => exact Site.safe_onTier (Tier.safe_delete cacheName)
  | error e =>
    dsimp only
    split
    · exact .fail e
    · exact .pure trivial

theorem safe_purgeListed (h : below.Sturdy pools shape store input out lock) :
    Safe (Site.regime pools shape store) (d.purgeListed below) fun _ => True := by
  refine h.list.attempt.bind fun result _ => ?_
  cases result with
  | ok names =>
    exact .foldlM fun _ name => (safe_purge h name).attempt.bind fun _ _ => .pure trivial
  | error e => exact .pure trivial

theorem safe_close (h : below.Sturdy pools shape store input out lock) :
    Safe (Site.regime pools shape store) (d.close below) fun _ => True := by
  unfold close
  split
  · refine (safe_purgeListed h).bind fun purged _ => h.close.bind fun _ _ => ?_
    cases purged with
    | ok a => exact .pure trivial
    | error e => exact .fail e
  · exact h.close.bind fun _ _ => .pure trivial

theorem safe_openInput (h : below.Sturdy pools shape store input out lock) (hpool : d.pool < pools)
    (name : String) (purpose : Purpose) :
    Safe (Site.regime pools shape store) (d.openInput feed below name purpose)
      (Source.Sound pools input) := by
  refine (h.openInput name purpose).bind fun source hsource => ?_
  split
  · exact (safe_cacheName h name).bind fun _ _ => .pure ⟨hsource, hpool⟩
  · exact .pure hsource

theorem safe_create (h : below.Sturdy pools shape store input out lock) (name : String)
    (purpose : Purpose) :
    Safe (Site.regime pools shape store) (d.create below name purpose)
      (Output.Sound (Site.regime pools shape store) out) := by
  refine (h.create name purpose).bind fun o ho => ?_
  split
  · exact .pure (ho.cached _ (safe_cacheName h name))
  · exact .pure ho

theorem safe_delete (h : below.Sturdy pools shape store input out lock) (name : String) :
    Safe (Site.regime pools shape store) (d.delete below name) fun _ => True := by
  unfold delete
  split
  · exact (safe_cacheName h name).bind fun cacheName _ =>
      (Site.safe_onTier (Tier.safe_delete cacheName)).bind fun _ _ => h.delete name
  · exact h.delete name

-- A directory is as safe as what it covers, so directories over directories are safe, too.
theorem volume_safe (h : below.Sturdy pools shape store input out lock) (hpool : d.pool < pools) :
    (d.volume feed below).Sturdy pools shape store input out lock where
  openInput := safe_openInput h hpool
  create := safe_create h
  list := h.list
  delete := safe_delete h
  hasFile := h.hasFile
  length := h.length
  stamp := h.stamp
  sync := h.sync
  lock := h.lock
  close := safe_close h

end Directory

end Blockwise
