import Blockwise.Proofs.Client.Steady

namespace Blockwise

open Act
open Session (Answer)

variable {ω β σ ι δ κ : Type}

-- What the locks of some names are on, in states that are in order. It is shut as long as one user
-- has the lock, and no longer.
structure Latch (σ : Type) where
  holds : σ → Prop
  leads : String → Prop
  shut : σ → Prop

namespace Latch

variable (latch : Latch σ)

-- What leaves a latch as it is.
def regime : Regime σ where
  holds := latch.holds
  moves s s' := latch.shut s' ↔ latch.shut s
  refl _ := Iff.rfl
  trans h h' := h'.trans h

-- What taking the lock of a name comes to. Only an open latch can be shut.
structure Shuts (name : String) (s s' : σ) : Prop where
  holds : latch.holds s'
  here : latch.leads name → ¬latch.shut s ∧ latch.shut s'
  elsewhere : ¬latch.leads name → (latch.shut s' ↔ latch.shut s)

structure Opens (name : String) (s s' : σ) : Prop where
  holds : latch.holds s'
  here : latch.leads name → ¬latch.shut s'
  elsewhere : ¬latch.leads name → (latch.shut s' ↔ latch.shut s)

end Latch

-- The locks that a port hands out and takes back. One that is given back is no longer held, and
-- nothing comes of it when it is dropped.
structure Port.Locks (p : Port ω β σ ι δ κ) (latch : Latch σ) (held : κ → Bool) (closed : σ → Bool)
    (sound : κ → Prop) : Prop where
  lock : ∀ on name s, latch.holds s → Ends ((p.volume on).lock name) s
    (fun lock s' => held lock = true ∧ p.keeper.name lock = name ∧ sound lock ∧
      latch.Shuts name s s')
    (fun e s' => s' = s ∧
      (latch.leads name → closed s = false → e = .error (.lockHeld name) ∧ latch.shut s))
  release : ∀ lock s, latch.holds s → (latch.leads (p.keeper.name lock) → latch.shut s) →
    Ends p.keeper.release (lock, s)
      (fun _ r => held r.1 = false ∧ (sound lock → sound r.1) ∧
        latch.Opens (p.keeper.name lock) s r.2)
      (fun _ r => held r.1 = false ∧ (sound lock → sound r.1) ∧
        latch.Opens (p.keeper.name lock) s r.2)
  drop : ∀ lock s, latch.holds s → (latch.leads (p.keeper.name lock) → latch.shut s) →
    held lock = true → latch.Opens (p.keeper.name lock) s (p.keeper.drop lock s)
  spent : ∀ lock s, held lock = false → p.keeper.drop lock s = s

namespace Client

-- A call, or the first half of giving back a lock: from then on the lock can only be dropped.
inductive Move (ω β : Type) where
  | call (c : Call ω β)
  | release (handle : String)

section Moves

variable (p : Port ω β σ ι δ κ) (held : κ → Bool) (x : Client ω σ ι δ κ)

def release (handle : String) (lock : κ) : Answer × Client ω σ ι δ κ :=
  match p.keeper.release (lock, x.world) with
  | .ok _ (lock, world) =>
    (.done, { x with world, locks := Function.update x.locks handle (some lock) })
  | .error e (lock, world) =>
    (.failed e, { x with world, locks := Function.update x.locks handle (some lock) })

def onHeld (handle : String) (f : κ → Answer × Client ω σ ι δ κ) : Answer × Client ω σ ι δ κ :=
  match x.locks handle with
  | none => (.noHandle, x)
  | some lock => if held lock then f lock else (.noHandle, x)

def move : Move ω β → Answer × Client ω σ ι δ κ
  | .release handle => x.onHeld held handle (x.release p handle)
  | .call (.unlock handle) => x.onHeld held handle fun _ => x.unlock p handle
  | .call c => x.perform p c

-- The client after a run of moves, whichever of them fail.
def afterMoves (moves : List (Move ω β)) : Client ω σ ι δ κ :=
  moves.foldl (fun x m => (x.move p held m).2) x

end Moves

namespace Move

def Spares (ok : String → Prop) : Move ω β → Prop
  | .call c => c.Spares ok
  | .release _ => True

theorem spares_all (m : Move ω β) : m.Spares fun _ => True := by
  cases m with
  | release handle => trivial
  | call c => cases c <;> trivial

-- What a lock under a handle may be given back by. A new lock takes the place of an old one.
def givesBack (handle : String) : Move ω β → Bool
  | .release other | .call (.unlock other) | .call (.drop other) | .call (.lock _ _ other) =>
    other == handle
  | _ => false

end Move

-- One user at most has a lock that the names are for. While one has it, nobody gets it, and as soon
-- as nobody has it, the next one does, unless the way was barred from the start. Whoever has it keeps it
-- until it is given back, whatever becomes of others.
structure Exclusive (p : Port ω β σ ι δ κ) (held : κ → Bool) (closed : σ → Bool)
    (leads ok : String → Prop) (barred : Prop) (x : Client ω σ ι δ κ) : Prop where
  single : ∀ handle handle' lock lock', x.locks handle = some lock → x.locks handle' = some lock' →
    held lock = true → held lock' = true → leads (p.keeper.name lock) → leads (p.keeper.name lock') →
    handle = handle'
  refused : ∀ handle lock, x.locks handle = some lock → held lock = true →
    leads (p.keeper.name lock) → closed x.world = false → ∀ on name new, leads name →
    x.move p held (.call (.lock on name new)) = (.failed (.error (.lockHeld name)), x)
  granted : (∀ handle lock, x.locks handle = some lock → held lock = true →
    ¬leads (p.keeper.name lock)) → ¬barred → closed x.world = false → ∀ on name new, leads name →
    (x.move p held (.call (.lock on name new))).1 = .text name ∧
      ∃ lock, (x.move p held (.call (.lock on name new))).2.locks new = some lock ∧
        held lock = true ∧ p.keeper.name lock = name
  returned : ∀ handle lock, x.locks handle = some lock → held lock = true →
    leads (p.keeper.name lock) →
    ∀ back ∈ [.release handle, .call (.unlock handle), .call (.drop handle)],
    let y := (x.move p held back).2
    closed y.world = false → ∀ on name new, leads name →
      (y.move p held (.call (.lock on name new))).1 = .text name
  kept : ∀ handle lock m, x.locks handle = some lock → held lock = true → m.Spares ok →
    m.givesBack handle = false →
    let y := (x.move p held m).2
    y.locks handle = some lock ∧ (leads (p.keeper.name lock) → closed y.world = false →
      ∀ on name new, leads name →
        y.move p held (.call (.lock on name new)) = (.failed (.error (.lockHeld name)), y))

end Client

namespace Latch

variable (latch : Latch σ) (keeper : Keeper κ σ) (held : κ → Bool)

-- The lock under a handle is on the latch.
def Owns (locks : String → Option κ) (handle : String) : Prop :=
  ∃ lock, locks handle = some lock ∧ held lock = true ∧ latch.leads (keeper.name lock)

-- The latch is shut by the one lock that is on it. Without one, it is as it was at the start.
inductive Secured (barred : Prop) (locks : String → Option κ) (s : σ) : Prop where
  | free (hnone : ∀ handle, ¬latch.Owns keeper held locks handle) (hshut : latch.shut s ↔ barred)
  | taken (owner : String) (howner : ∀ handle, latch.Owns keeper held locks handle ↔ handle = owner)
    (hshut : latch.shut s) (hopen : ¬barred)

-- What giving back the lock under a handle comes to.
structure Returns (locks : String → Option κ) (handle : String) (s s' : σ) : Prop where
  holds : latch.holds s'
  owned : latch.Owns keeper held locks handle → ¬latch.shut s'
  other : ¬latch.Owns keeper held locks handle → (latch.shut s' ↔ latch.shut s)

variable {latch keeper held} {barred : Prop} {locks : String → Option κ} {s s' s'' : σ}
  {handle other name : String} {lock : κ} {entry : Option κ}

theorem owns_update_owner (hheld : held lock = true) (hleads : latch.leads (keeper.name lock)) :
    latch.Owns keeper held (Function.update locks handle (some lock)) other ↔
      other = handle ∨ latch.Owns keeper held locks other := by
  by_cases hsame : other = handle
  · subst hsame
    simp [Owns, hheld, hleads]
  · simp [Owns, hsame]

theorem owns_update_idle
    (hidle : ∀ lock, entry = some lock → held lock = true → ¬latch.leads (keeper.name lock)) :
    latch.Owns keeper held (Function.update locks handle entry) other ↔
      other ≠ handle ∧ latch.Owns keeper held locks other := by
  by_cases hsame : other = handle
  · subst hsame
    simpa [Owns] using hidle
  · simp [Owns, hsame]

theorem returns_of_opens (hlock : locks handle = some lock) (hheld : held lock = true)
    (h : latch.Opens (keeper.name lock) s s') : latch.Returns keeper held locks handle s s' := by
  refine ⟨h.holds, ?_, ?_⟩
  · rintro ⟨lock', hlock', _, hleads⟩
    obtain rfl := Option.some.inj (hlock.symm.trans hlock')
    exact h.here hleads
  · intro hnot
    exact h.elsewhere fun hleads => hnot ⟨lock, hlock, hheld, hleads⟩

theorem returns_of_idle (hs : latch.holds s) (hidle : ¬latch.Owns keeper held locks handle) :
    latch.Returns keeper held locks handle s s :=
  ⟨hs, fun howns => absurd howns hidle, fun _ => Iff.rfl⟩

namespace Secured

theorem shut (h : latch.Secured keeper held barred locks s)
    (howns : latch.Owns keeper held locks handle) : latch.shut s := by
  cases h with
  | free hnone hshut => exact absurd howns (hnone handle)
  | taken owner howner hshut hopen => exact hshut

theorem single (h : latch.Secured keeper held barred locks s)
    (howns : latch.Owns keeper held locks handle) (hother : latch.Owns keeper held locks other) :
    handle = other := by
  cases h with
  | free hnone hshut => exact absurd howns (hnone handle)
  | taken owner howner hshut hopen =>
    exact ((howner handle).mp howns).trans ((howner other).mp hother).symm

theorem stays (h : latch.Secured keeper held barred locks s) (hmoves : latch.shut s' ↔ latch.shut s) :
    latch.Secured keeper held barred locks s' := by
  cases h with
  | free hnone hshut => exact .free hnone (hmoves.trans hshut)
  | taken owner howner hshut hopen => exact .taken owner howner (hmoves.mpr hshut) hopen

-- If the lock that goes is the one on the latch, no other is left.
theorem returned (h : latch.Secured keeper held barred locks s)
    (hr : latch.Returns keeper held locks handle s s')
    (hidle : ∀ lock, entry = some lock → held lock = true → ¬latch.leads (keeper.name lock)) :
    latch.Secured keeper held barred (Function.update locks handle entry) s' := by
  cases h with
  | free hnone hshut =>
    refine .free (fun other => ?_) ((hr.other (hnone handle)).trans hshut)
    rw [owns_update_idle hidle]
    exact fun howns => hnone other howns.2
  | taken owner howner hshut hopen =>
    by_cases hsame : handle = owner
    · subst hsame
      refine .free (fun other => ?_) (iff_of_false (hr.owned ((howner handle).mpr rfl)) hopen)
      rw [owns_update_idle hidle, howner]
      exact fun howns => howns.1 howns.2
    · refine .taken owner (fun other => ?_) ?_ hopen
      · rw [owns_update_idle hidle, howner]
        exact ⟨And.right, fun howner => ⟨howner ▸ Ne.symm hsame, howner⟩⟩
      · exact (hr.other (mt (howner handle).mp hsame)).mpr hshut

-- The new lock is made before an old one under its handle is dropped.
theorem granted (h : latch.Secured keeper held barred locks s) (hs : latch.Shuts name s s')
    (hr : latch.Returns keeper held locks handle s' s'') (hheld : held lock = true)
    (hname : keeper.name lock = name) :
    latch.Secured keeper held barred (Function.update locks handle (some lock)) s'' := by
  subst hname
  by_cases hleads : latch.leads (keeper.name lock)
  · obtain ⟨hbefore, hafter⟩ := hs.here hleads
    cases h with
    | free hnone hshut =>
      refine .taken handle (fun other => ?_) ((hr.other (hnone handle)).mpr hafter) ?_
      · rw [owns_update_owner hheld hleads]
        exact or_iff_left (hnone other)
      · exact fun hbarred => hbefore (hshut.mpr hbarred)
    | taken owner howner hshut hopen => exact absurd hshut hbefore
  · refine (h.stays (hs.elsewhere hleads)).returned hr ?_
    rintro lock' hlock' _
    obtain rfl := Option.some.inj hlock'
    exact hleads

end Secured

end Latch

namespace Client

variable {p : Port ω β σ ι δ κ} {latch : Latch σ} {held : κ → Bool} {closed : σ → Bool}
  {sound : κ → Prop} {ok : String → Prop} [DecidablePred ok] {input : ι → Prop} {out : δ → Prop}
  {barred : Prop} {x y : Client ω σ ι δ κ} {handle name : String} {on : ω}

-- What a run keeps: the latch is secured by the locks that the user has.
structure Orderly (p : Port ω β σ ι δ κ) (latch : Latch σ) (held : κ → Bool) (sound : κ → Prop)
    (input : ι → Prop) (out : δ → Prop) (barred : Prop) (x : Client ω σ ι δ κ) : Prop where
  files : x.Sound latch.regime input out
  locks : ∀ handle lock, x.locks handle = some lock → sound lock
  secured : latch.Secured p.keeper held barred x.locks x.world

-- A user who has nothing yet. If the latch is shut by then, it is not by a lock of the run.
theorem orderly_fresh {s : σ} (hs : latch.holds s) :
    Orderly p latch held sound input out (latch.shut s) { world := s } := by
  refine ⟨⟨hs, by nofun, by nofun⟩, by nofun, .free ?_ Iff.rfl⟩
  rintro handle ⟨lock, hlock, _⟩
  cases hlock

theorem Orderly.steady (h : x.Orderly p latch held sound input out barred)
    (hy : Steady latch.regime input out x y) : y.Orderly p latch held sound input out barred :=
  ⟨hy.sound, hy.locks ▸ h.locks, hy.locks ▸ h.secured.stays hy.moves⟩

theorem dropLock_eq (x : Client ω σ ι δ κ) (handle : String) : x.dropLock p handle = { x with
    world := (x.dropLock p handle).world
    locks := Function.update x.locks handle none } := by
  unfold Client.dropLock
  cases hlock : x.locks handle with
  | none =>
    have hsame : Function.update x.locks handle none = x.locks :=
      Function.update_eq_self_iff.mpr hlock.symm
    rw [hsame]
  | some lock => rfl

theorem keepLock_eq (x : Client ω σ ι δ κ) (handle : String) (lock : κ) :
    x.keepLock p handle lock = { x with
      world := (x.dropLock p handle).world
      locks := Function.update x.locks handle (some lock) } := by
  unfold Client.keepLock
  rw [dropLock_eq]
  simp only [Function.update_idem]

-- An input and an output of the handle go first, which no lock takes notice of.
theorem drop_eq {g : Regime σ} (h : x.Sound g input out) (hp : p.Safe g ok input out)
    (handle : String) :
    ∃ y, Steady g input out x y ∧ (x.drop p handle).2 = y.dropLock p handle := by
  have herase := h.eraseInput handle
  exact ⟨_, herase.trans (herase.sound.dropOutput hp handle), rfl⟩

-- Releasing a lock leaves the lock as it is then, and unlocking drops that.
theorem release_eq (x : Client ω σ ι δ κ) (handle : String) (lock : κ) :
    let r := (outcome p.keeper.release (lock, x.world)).2
    (x.release p handle lock).2 =
      { x with world := r.2, locks := Function.update x.locks handle (some r.1) } := by
  unfold Client.release outcome
  cases p.keeper.release (lock, x.world) with
  | ok a r => rfl
  | error e r => rfl

theorem unlock_eq {lock : κ} (hlock : x.locks handle = some lock) :
    let r := (outcome p.keeper.release (lock, x.world)).2
    (x.unlock p handle).2 =
      { x with world := p.keeper.drop r.1 r.2, locks := Function.update x.locks handle none } := by
  unfold Client.unlock outcome
  simp only [hlock]
  cases p.keeper.release (lock, x.world) with
  | ok a r => rfl
  | error e r => rfl

-- What holds before something is done with a held lock, and after it. Without such a lock nothing is.
theorem onHeld_ind {P : Client ω σ ι δ κ → Prop} {f : κ → Answer × Client ω σ ι δ κ} (hx : P x)
    (hf : ∀ lock, x.locks handle = some lock → held lock = true → P (f lock).2) :
    P (x.onHeld held handle f).2 := by
  unfold Client.onHeld
  cases hlock : x.locks handle with
  | none => exact hx
  | some lock =>
    cases hheld : held lock with
    | true =>
      simp only [hheld, if_true]
      exact hf lock hlock hheld
    | false =>
      simp only [hheld]
      exact hx

theorem onHeld_of_held {f : κ → Answer × Client ω σ ι δ κ} {lock : κ}
    (hlock : x.locks handle = some lock) (hheld : held lock = true) :
    x.onHeld held handle f = f lock := by
  simp [Client.onHeld, hlock, hheld]

theorem dropLock_returns (hl : p.Locks latch held closed sound) (hworld : latch.holds x.world)
    (hshut : latch.Owns p.keeper held x.locks handle → latch.shut x.world) :
    latch.Returns p.keeper held x.locks handle x.world (x.dropLock p handle).world := by
  unfold Client.dropLock
  cases hlock : x.locks handle with
  | none =>
    apply Latch.returns_of_idle hworld
    rintro ⟨lock, hsome, _⟩
    cases hlock.symm.trans hsome
  | some lock =>
    cases hheld : held lock with
    | true =>
      exact Latch.returns_of_opens hlock hheld (hl.drop lock x.world hworld
        (fun hleads => hshut ⟨lock, hlock, hheld, hleads⟩) hheld)
    | false =>
      simp only [hl.spent lock x.world hheld]
      apply Latch.returns_of_idle hworld
      rintro ⟨lock', hsome, hheld', _⟩
      obtain rfl := Option.some.inj (hlock.symm.trans hsome)
      cases hheld.symm.trans hheld'

namespace Orderly

theorem give (h : x.Orderly p latch held sound input out barred) {entry : Option κ} {s : σ}
    (hr : latch.Returns p.keeper held x.locks handle x.world s)
    (hentry : ∀ lock, entry = some lock → sound lock ∧ held lock = false) :
    Orderly p latch held sound input out barred
      { x with world := s, locks := Function.update x.locks handle entry } := by
  refine ⟨⟨hr.holds, h.files.inputs, h.files.outputs⟩, ?_, h.secured.returned hr ?_⟩
  · exact forall_update h.locks (fun lock hlock => (hentry lock hlock).1) handle
  · intro lock hlock hheld
    cases (hentry lock hlock).2.symm.trans hheld

theorem dropLock (h : x.Orderly p latch held sound input out barred)
    (hl : p.Locks latch held closed sound) (handle : String) :
    (x.dropLock p handle).Orderly p latch held sound input out barred := by
  have hreturns : latch.Returns p.keeper held x.locks handle x.world (x.dropLock p handle).world :=
    dropLock_returns hl h.files.world h.secured.shut
  rw [dropLock_eq]
  exact h.give hreturns (by nofun)

theorem drop (h : x.Orderly p latch held sound input out barred)
    (hp : p.Safe latch.regime ok input out) (hl : p.Locks latch held closed sound)
    (handle : String) : (x.drop p handle).2.Orderly p latch held sound input out barred := by
  obtain ⟨y, hy, heq⟩ := drop_eq h.files hp handle
  rw [heq]
  exact (h.steady hy).dropLock hl handle

-- A lock that was made shuts the latch, if it is on it, before an old lock is dropped.
theorem lock (h : x.Orderly p latch held sound input out barred)
    (hl : p.Locks latch held closed sound) (on : ω) (name new : String) :
    (x.lock p on name new).2.Orderly p latch held sound input out barred := by
  have hends := hl.lock on name x.world h.files.world
  unfold Client.lock running
  cases hrun : (p.volume on).lock name x.world with
  | error e s =>
    obtain ⟨rfl, _⟩ := hends.error hrun
    exact h
  | ok lock s =>
    obtain ⟨hheld, hname, hsound, hshuts⟩ := hends.ok hrun
    have hshut : latch.Owns p.keeper held x.locks new → latch.shut s := by
      intro howns
      by_cases hleads : latch.leads name
      · exact (hshuts.here hleads).2
      · exact (hshuts.elsewhere hleads).mpr (h.secured.shut howns)
    have hreturns := dropLock_returns (x := { x with world := s }) hl hshuts.holds hshut
    simp only [keepLock_eq]
    refine ⟨⟨hreturns.holds, h.files.inputs, h.files.outputs⟩, ?_,
      h.secured.granted hshuts hreturns hheld hname⟩
    exact forall_update h.locks (fun lock' hlock' => Option.some.inj hlock' ▸ hsound) new

variable {lock : κ}

theorem release_returns (h : x.Orderly p latch held sound input out barred)
    (hl : p.Locks latch held closed sound) (hlock : x.locks handle = some lock)
    (hheld : held lock = true) :
    let r := (outcome p.keeper.release (lock, x.world)).2
    (sound r.1 ∧ held r.1 = false) ∧ latch.Returns p.keeper held x.locks handle x.world r.2 := by
  have hshut : latch.leads (p.keeper.name lock) → latch.shut x.world := fun hleads =>
    h.secured.shut ⟨lock, hlock, hheld, hleads⟩
  obtain ⟨hspent, hkeeps, hopens⟩ := (hl.release lock x.world h.files.world hshut).outcome
  exact ⟨⟨hkeeps (h.locks handle lock hlock), hspent⟩, Latch.returns_of_opens hlock hheld hopens⟩

theorem release (h : x.Orderly p latch held sound input out barred)
    (hl : p.Locks latch held closed sound) (hlock : x.locks handle = some lock)
    (hheld : held lock = true) :
    (x.release p handle lock).2.Orderly p latch held sound input out barred := by
  obtain ⟨hspent, hreturns⟩ := h.release_returns hl hlock hheld
  rw [release_eq]
  exact h.give hreturns fun lock' hlock' => Option.some.inj hlock' ▸ hspent

theorem unlock (h : x.Orderly p latch held sound input out barred)
    (hl : p.Locks latch held closed sound) (hlock : x.locks handle = some lock)
    (hheld : held lock = true) :
    (x.unlock p handle).2.Orderly p latch held sound input out barred := by
  obtain ⟨⟨_, hspent⟩, hreturns⟩ := h.release_returns hl hlock hheld
  simp only [unlock_eq hlock, hl.spent _ _ hspent]
  exact h.give hreturns (by nofun)

theorem move (h : x.Orderly p latch held sound input out barred)
    (hp : p.Safe latch.regime ok input out) (hl : p.Locks latch held closed sound) {m : Move ω β}
    (hm : m.Spares ok) : (x.move p held m).2.Orderly p latch held sound input out barred := by
  cases m with
  | release handle => exact onHeld_ind h fun lock hlock hheld => h.release hl hlock hheld
  | call c =>
    cases c with
    | unlock handle => exact onHeld_ind h fun lock hlock hheld => h.unlock hl hlock hheld
    | lock on name new => exact h.lock hl on name new
    | drop handle => exact h.drop hp hl handle
    | _ => exact h.steady (h.files.perform hp hm rfl)

theorem afterMoves (h : x.Orderly p latch held sound input out barred)
    (hp : p.Safe latch.regime ok input out) (hl : p.Locks latch held closed sound)
    {moves : List (Move ω β)} (hmoves : ∀ m ∈ moves, m.Spares ok) :
    (x.afterMoves p held moves).Orderly p latch held sound input out barred := by
  induction moves generalizing x with
  | nil => exact h
  | cons m moves ih =>
    obtain ⟨hm, hmoves⟩ := List.forall_mem_cons.mp hmoves
    exact ih (h.move hp hl hm) hmoves

theorem lock_refused (h : x.Orderly p latch held sound input out barred)
    (hl : p.Locks latch held closed sound) (hopen : closed x.world = false)
    (howns : latch.Owns p.keeper held x.locks handle) (hleads : latch.leads name) (on : ω)
    (new : String) : x.lock p on name new = (.failed (.error (.lockHeld name)), x) := by
  have hends := hl.lock on name x.world h.files.world
  unfold Client.lock running
  cases hrun : (p.volume on).lock name x.world with
  | ok lock s =>
    obtain ⟨_, _, _, hshuts⟩ := hends.ok hrun
    exact absurd (h.secured.shut howns) (hshuts.here hleads).1
  | error e s =>
    obtain ⟨rfl, hheld⟩ := hends.error hrun
    obtain ⟨rfl, _⟩ := hheld hleads hopen
    rfl

theorem lock_granted (h : x.Orderly p latch held sound input out barred)
    (hl : p.Locks latch held closed sound) (hopen : closed x.world = false)
    (hnone : ∀ handle, ¬latch.Owns p.keeper held x.locks handle) (hfree : ¬barred)
    (hleads : latch.leads name) (on : ω) (new : String) :
    (x.lock p on name new).1 = .text name ∧ ∃ lock, (x.lock p on name new).2.locks new = some lock ∧
      held lock = true ∧ p.keeper.name lock = name := by
  have hends := hl.lock on name x.world h.files.world
  unfold Client.lock running
  cases hrun : (p.volume on).lock name x.world with
  | ok lock s =>
    obtain ⟨hheld, hname, _⟩ := hends.ok hrun
    refine ⟨congrArg Answer.text hname, lock, ?_, hheld, hname⟩
    simp only [keepLock_eq, Function.update_self]
  | error e s =>
    obtain ⟨_, hheld⟩ := hends.error hrun
    obtain ⟨_, hshut⟩ := hheld hleads hopen
    cases h.secured with
    | free _ hbarred => exact absurd (hbarred.mp hshut) hfree
    | taken owner howner => exact absurd ((howner owner).mpr rfl) (hnone owner)

-- Giving a lock back leaves nothing under its handle that is held.
theorem back_locks (h : x.Orderly p latch held sound input out barred)
    (hp : p.Safe latch.regime ok input out) (hl : p.Locks latch held closed sound)
    (hlock : x.locks handle = some lock) (hheld : held lock = true) {back : Move ω β}
    (hback : back ∈ [.release handle, .call (.unlock handle), .call (.drop handle)]) :
    ∃ entry, (x.move p held back).2.locks = Function.update x.locks handle entry ∧
      ∀ lock, entry = some lock → held lock = false := by
  simp only [List.mem_cons, List.not_mem_nil, or_false] at hback
  rcases hback with rfl | rfl | rfl
  · obtain ⟨⟨_, hspent⟩, _⟩ := h.release_returns hl hlock hheld
    rw [Client.move, onHeld_of_held hlock hheld, release_eq]
    exact ⟨_, rfl, fun _ hsame => Option.some.inj hsame ▸ hspent⟩
  · rw [Client.move, onHeld_of_held hlock hheld, unlock_eq hlock]
    exact ⟨none, rfl, by nofun⟩
  · obtain ⟨y, hy, heq⟩ := drop_eq h.files hp handle
    refine ⟨none, ?_, by nofun⟩
    simp only [Client.move, perform]
    rw [heq, dropLock_eq, hy.locks]

theorem kept (h : x.Orderly p latch held sound input out barred)
    (hp : p.Safe latch.regime ok input out) {m : Move ω β} (hm : m.Spares ok)
    (hback : m.givesBack handle = false) : (x.move p held m).2.locks handle = x.locks handle := by
  have hne {other : String} (hback : (other == handle) = false) (entry : Option κ) :
      Function.update x.locks other entry handle = x.locks handle := by
    have hne : handle ≠ other := Ne.symm (by simpa using hback)
    exact Function.update_of_ne hne entry x.locks
  cases m with
  | release other =>
    apply onHeld_ind (P := fun y => y.locks handle = x.locks handle) rfl
    intro lock _ _
    rw [release_eq]
    exact hne hback _
  | call c =>
    cases c with
    | unlock other =>
      apply onHeld_ind (P := fun y => y.locks handle = x.locks handle) rfl
      intro lock hlock _
      rw [unlock_eq hlock]
      exact hne hback _
    | lock on name other =>
      simp only [Client.move, perform, Client.lock, running]
      cases (p.volume on).lock name x.world with
      | ok lock s =>
        simp only [keepLock_eq]
        exact hne hback _
      | error e s => rfl
    | drop other =>
      obtain ⟨y, hy, heq⟩ := drop_eq h.files hp other
      simp only [Client.move, perform]
      rw [heq, dropLock_eq, hy.locks]
      exact hne hback _
    | _ =>
      refine congrFun (Steady.locks (?_ : Steady latch.regime input out x _)) handle
      exact h.files.perform hp hm rfl

theorem exclusive (h : x.Orderly p latch held sound input out barred)
    (hp : p.Safe latch.regime ok input out) (hl : p.Locks latch held closed sound) :
    x.Exclusive p held closed latch.leads ok barred where
  single handle handle' lock lock' hlock hlock' hheld hheld' hleads hleads' :=
    h.secured.single ⟨lock, hlock, hheld, hleads⟩ ⟨lock', hlock', hheld', hleads'⟩
  refused handle lock hlock hheld hleads hopen on name new hname :=
    h.lock_refused hl hopen ⟨lock, hlock, hheld, hleads⟩ hname on new
  granted hnone hfree hopen on name new hname := by
    refine h.lock_granted hl hopen ?_ hfree hname on new
    rintro handle ⟨lock, hlock, hheld, hleads⟩
    exact hnone handle lock hlock hheld hleads
  returned handle lock hlock hheld hleads back hback := by
    intro y hopen on name new hname
    have hspares : back.Spares ok := by
      simp only [List.mem_cons, List.not_mem_nil, or_false] at hback
      rcases hback with rfl | rfl | rfl <;> trivial
    have howns : latch.Owns p.keeper held x.locks handle := ⟨lock, hlock, hheld, hleads⟩
    obtain ⟨entry, hentry, hspent⟩ := h.back_locks hp hl hlock hheld hback
    have hfree : ¬barred := by
      cases h.secured with
      | free hnone => exact absurd howns (hnone handle)
      | taken _ _ _ hopen => exact hopen
    refine ((h.move hp hl hspares).lock_granted hl hopen (fun other => ?_) hfree hname on new).1
    rw [hentry, Latch.owns_update_idle fun lock' hlock' hheld' => ?_]
    · exact fun hother => hother.1 (h.secured.single hother.2 howns)
    · cases (hspent lock' hlock').symm.trans hheld'
  kept handle lock m hlock hheld hm hback := by
    intro y
    have hstill : y.locks handle = some lock := (h.kept hp hm hback).trans hlock
    refine ⟨hstill, fun hleads hopen on name new hname => ?_⟩
    exact (h.move hp hl hm).lock_refused hl hopen ⟨lock, hstill, hheld, hleads⟩ hname on new

end Orderly

end Client

end Blockwise
