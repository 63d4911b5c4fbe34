import Blockwise.Proofs.Stream.Ledger

namespace Blockwise

open Act

-- A destination whose calls give no number of the name to another one.
structure Sink.Reserves {δ β : Type} (sink : Sink δ (Site β)) (name : String) (kept : δ → Prop) :
    Prop where
  write : ∀ data out s, kept out → Ends (sink.write data) (out, s)
    (fun _ p => kept p.1 ∧ s.tier.Reserves name p.2.tier)
    (fun _ p => kept p.1 ∧ s.tier.Reserves name p.2.tier)
  flush : ∀ out s, kept out → Ends sink.flush (out, s)
    (fun _ p => kept p.1 ∧ s.tier.Reserves name p.2.tier)
    (fun _ p => kept p.1 ∧ s.tier.Reserves name p.2.tier)
  close : ∀ out s, kept out → Ends sink.close (out, s)
    (fun _ p => kept p.1 ∧ s.tier.Reserves name p.2.tier)
    (fun _ p => kept p.1 ∧ s.tier.Reserves name p.2.tier)

-- A destination that makes no use of the cache.
structure Sink.Aloof {δ β : Type} (sink : Sink δ (Site β)) : Prop where
  write : ∀ data out s, Ends (sink.write data) (out, s) (fun _ p => p.2.tier = s.tier)
    (fun _ p => p.2.tier = s.tier)
  flush : ∀ out s, Ends sink.flush (out, s) (fun _ p => p.2.tier = s.tier)
    (fun _ p => p.2.tier = s.tier)
  close : ∀ out s, Ends sink.close (out, s) (fun _ p => p.2.tier = s.tier)
    (fun _ p => p.2.tier = s.tier)

theorem Sink.Aloof.reserves {δ β : Type} {sink : Sink δ (Site β)} (h : sink.Aloof) (name : String) :
    sink.Reserves name fun _ => True := by
  have hkept : ∀ (s : Site β) (p : δ × Site β), p.2.tier = s.tier →
      True ∧ s.tier.Reserves name p.2.tier := fun s p hp =>
    ⟨trivial, Tier.reserves_of_files name (congrArg Tier.files hp)⟩
  exact ⟨fun data out s _ => (h.write data out s).imp (fun _ => hkept s) fun _ => hkept s,
    fun out s _ => (h.flush out s).imp (fun _ => hkept s) fun _ => hkept s,
    fun out s _ => (h.close out s).imp (fun _ => hkept s) fun _ => hkept s⟩

theorem Output.plainSink_aloof {ο β : Type} (sink : Sink ο β) : (plainSink sink).Aloof where
  write data out s := by
    rw [ends_plainSink_write]
    exact .always (fun _ _ => rfl) fun _ _ => rfl
  flush out s := by
    rw [ends_plainSink_flush]
    exact .always (fun _ _ => rfl) fun _ _ => rfl
  close out s := by
    rw [ends_plainSink_close]
    exact .always (fun _ _ => rfl) fun _ _ => rfl

namespace CachedWriter

variable {δ β : Type} {sink : Sink δ (Site β)} {name location : String} {kept : δ → Prop}
  {settle : Act (Site β) String} {resolver : Option (Act (Site β) String)} {t : Tier}
  {w : CachedWriter δ (Site β)} {s : Site β} {p : CachedWriter δ (Site β) × Site β}

-- A writer that has gone from a tier to the next without a number of the name given away.
structure Reserving (name : String) (kept : δ → Prop) (location : String)
    (resolver : Option (Act (Site β) String)) (t : Tier) (p : CachedWriter δ (Site β) × Site β) :
    Prop where
  below : kept p.1.below
  flushed_le : p.1.flushed ≤ p.1.staged.size
  staged_le : p.1.staged.size ≤ Grid.blockSize
  location : p.1.location = location
  settle : p.1.settle = resolver
  tier : t.Reserves name p.2.tier

theorem Reserving.of_tier (h : Reserving name kept location resolver t p) {s' : Site β}
    (hs' : p.2.tier.Reserves name s'.tier) : Reserving name kept location resolver t (p.1, s') :=
  ⟨h.below, h.flushed_le, h.staged_le, h.location, h.settle, h.tier.trans hs'⟩

theorem Reserving.withBelow (h : Reserving name kept location resolver t p) {q : δ × Site β}
    (hq : kept q.1 ∧ p.2.tier.Reserves name q.2.tier) :
    Reserving name kept location resolver t ({ p.1 with below := q.1 }, q.2) :=
  ⟨hq.1, h.flushed_le, h.staged_le, h.location, h.settle, h.tier.trans hq.2⟩

theorem Reserving.onBelow_ends (h : Reserving name kept location resolver t p)
    {x : Act (δ × Site β) Unit}
    (hx : Ends x (p.1.below, p.2) (fun _ q => kept q.1 ∧ p.2.tier.Reserves name q.2.tier)
      (fun _ q => kept q.1 ∧ p.2.tier.Reserves name q.2.tier)) :
    Ends (onBelow x) p (fun _ => Reserving name kept location resolver t)
      (fun _ => Reserving name kept location resolver t) := by
  rw [ends_onBelow]
  exact hx.imp (fun _ _ => h.withBelow) fun _ _ => h.withBelow

theorem passStaged_reserving (hsink : sink.Reserves name kept)
    (h : Reserving name kept location resolver t (w, s)) :
    Ends (passStaged sink) (w, s)
      (fun _ p => Reserving name kept location resolver t p ∧
        p.1.staged = w.staged ∧ p.1.flushed = w.staged.size)
      (fun _ => Reserving name kept location resolver t) := by
  refine ends_passStaged h.flushed_le (fun hsame => ⟨h, rfl, hsame.symm⟩) fun _ => ?_
  refine (hsink.write _ w.below s h.below).imp ?_ fun _ _ => h.withBelow
  intro _ q hq
  have hwritten := h.withBelow hq
  have hpublished : ∀ t', q.2.tier.Reserves name t' →
      Reserving name kept location resolver t
        ({ w with below := q.1, flushed := w.staged.size }, { q.2 with tier := t' }) := fun t' ht' =>
    ⟨hwritten.below, Nat.le_refl _, h.staged_le, h.location, h.settle, hwritten.tier.trans ht'⟩
  exact (Tier.update_reserves name _ _ _ _ _).imp (fun _ t' ht' => ⟨hpublished t' ht', rfl, rfl⟩)
    fun _ t' ht' => hpublished t' ht'

theorem keeps_reserving (hsink : sink.Reserves name kept) :
    Keeps sink (Reserving name kept location resolver t) fun _ => True where
  staged_le _ _ h := h.staged_le
  stage w s data h hroom := by
    have hsize : (w.staged ++ data).size = w.staged.size + data.size := ByteArray.size_append
    refine ⟨h.below, ?_, Nat.le_trans (Nat.le_of_eq hsize) hroom, h.location, h.settle, h.tier⟩
    exact Nat.le_trans h.flushed_le (Nat.le_trans (Nat.le_add_right _ _) (Nat.le_of_eq hsize.symm))
  pass _ _ h := (passStaged_reserving hsink h).imp (fun _ _ => id) fun _ _ hp => ⟨hp, trivial⟩
  advance _ _ h _ _ :=
    ⟨h.below, Nat.le_refl _, Nat.zero_le _, h.location, h.settle, h.tier⟩
  refused _ := trivial

theorem Reserving.write_ends (h : Reserving name kept location resolver t p)
    (hsink : sink.Reserves name kept) (data : Bytes) :
    Ends (write sink data) p (fun _ => Reserving name kept location resolver t)
      (fun _ => Reserving name kept location resolver t) :=
  ((keeps_reserving hsink).write_ends h data).imp (fun _ _ => id) fun _ _ => And.left

theorem Reserving.flush_ends (h : Reserving name kept location resolver t p)
    (hsink : sink.Reserves name kept) :
    Ends (flush sink) p (fun _ => Reserving name kept location resolver t)
      (fun _ => Reserving name kept location resolver t) := by
  simp only [flush, ends_bind]
  refine ((keeps_reserving hsink).requireOpen_ends h).imp ?_ fun _ _ => And.left
  intro _ p' hsame
  subst hsame
  refine (passStaged_reserving hsink h).imp ?_ fun _ _ => id
  intro _ q hq
  exact hq.1.onBelow_ends (hsink.flush _ _ hq.1.below)

theorem Reserving.finish_ends (h : Reserving name kept location resolver t p)
    (hsink : sink.Reserves name kept) :
    Ends (finish sink) p (fun _ => Reserving name kept location resolver t)
      (fun _ => Reserving name kept location resolver t) := by
  simp only [finish, ends_bind]
  refine (passStaged_reserving hsink h).imp ?_ fun _ _ => id
  intro _ q hq
  exact hq.1.onBelow_ends (hsink.close _ _ hq.1.below)

theorem Reserving.afterCall (h : Reserving name kept location resolver t p)
    (hsink : sink.Reserves name kept) {call : Call} (hclose : call ≠ .close)
    (haside : ∀ dest, call ≠ .aside (.call (.rename name dest))) :
    Reserving name kept location resolver t (CachedWriter.afterCall sink p call) := by
  cases call with
  | write data => exact (h.write_ends hsink data).outcome
  | flush => exact (h.flush_ends hsink).outcome
  | close => exact absurd rfl hclose
  | aside a =>
    have ha : ∀ dest, a ≠ .call (.rename name dest) := fun dest heq =>
      haside dest (congrArg Call.aside heq)
    exact h.of_tier (Tier.aside_reserves ha p.2.tier)

theorem Reserving.after (h : Reserving name kept location resolver t p)
    (hsink : sink.Reserves name kept) {calls : List Call}
    (hcalls : ∀ call ∈ calls,
      call ≠ .close ∧ ∀ dest, call ≠ .aside (.call (.rename name dest))) :
    Reserving name kept location resolver t (CachedWriter.after sink p calls) := by
  induction calls generalizing p with
  | nil => exact h
  | cons call calls ih =>
    obtain ⟨hcall, hrest⟩ := List.forall_mem_cons.mp hcalls
    exact ih (h.afterCall hsink hcall.1 hcall.2) hrest

-- A writer whose own location is another one, and so is every name that it moves.
structure Apart (name : String) (kept : δ → Prop) (w : CachedWriter δ (Site β)) : Prop where
  below : kept w.below
  flushed_le : w.flushed ≤ w.staged.size
  staged_le : w.staged.size ≤ Grid.blockSize
  location : w.location ≠ name
  settle : ∀ x ∈ w.settle, ∀ s, Ends x s (fun _ s' => s.tier.Reserves name s'.tier)
    (fun _ s' => s.tier.Reserves name s'.tier)

theorem Apart.reserving (h : Apart name kept w) (s : Site β) :
    Reserving name kept w.location w.settle s.tier (w, s) :=
  ⟨h.below, h.flushed_le, h.staged_le, rfl, rfl, Tier.reserves_of_files name rfl⟩

theorem Reserving.apart (h : Reserving name kept location resolver t p) (hlocation : location ≠ name)
    (hsettle : ∀ x ∈ resolver, ∀ s, Ends x s (fun _ s' => s.tier.Reserves name s'.tier)
      (fun _ s' => s.tier.Reserves name s'.tier)) :
    Apart name kept p.1 ∧ t.Reserves name p.2.tier :=
  ⟨⟨h.below, h.flushed_le, h.staged_le, h.location ▸ hlocation, h.settle ▸ hsettle⟩, h.tier⟩

theorem Reserving.settling_ends (h : Reserving name kept location resolver t p)
    (hlocation : location ≠ name)
    (hsettle : ∀ s, Ends settle s (fun _ s' => s.tier.Reserves name s'.tier)
      (fun _ s' => s.tier.Reserves name s'.tier)) :
    Ends (settling location settle) p (fun _ => Reserving name kept location resolver t)
      (fun _ => Reserving name kept location resolver t) := by
  simp only [settling, ends_bind, ends_onPart, ends_attempt]
  refine (hsettle p.2).imp ?_ ?_
  · intro final s' hs'
    simp only [settleName, ends_onTier]
    exact (Tier.rename_reserves hlocation final s'.tier).imp
      (fun _ _ ht => (h.of_tier hs').of_tier ht) fun _ _ ht => (h.of_tier hs').of_tier ht
  · intro e s' hs'
    cases e with
    | breach b => exact h.of_tier hs'
    | error e =>
      simp only [settleName, ends_bind, ends_onTier, ends_fail]
      exact (Tier.delete_reserves name location s'.tier).imp
        (fun _ _ ht => (h.of_tier hs').of_tier ht) fun _ _ ht => (h.of_tier hs').of_tier ht

-- So a caching writer may be what another one writes to, also through the same cache.
theorem asSink_reserves (hsink : sink.Reserves name kept) :
    (asSink sink).Reserves name (Apart name kept) where
  write data w s hw :=
    ((hw.reserving s).write_ends hsink data).imp (fun _ _ h => h.apart hw.location hw.settle)
      fun _ _ h => h.apart hw.location hw.settle
  flush w s hw :=
    ((hw.reserving s).flush_ends hsink).imp (fun _ _ h => h.apart hw.location hw.settle)
      fun _ _ h => h.apart hw.location hw.settle
  close w s hw := by
    cases hsettle : w.settle with
    | none =>
      simp only [asSink, close, ends_bind, ends_get, hsettle, ends_pure]
      exact ⟨hw, Tier.reserves_of_files name rfl⟩
    | some settle =>
      have hclosing : Reserving name kept w.location none s.tier ({ w with settle := none }, s) :=
        ⟨hw.below, hw.flushed_le, hw.staged_le, rfl, rfl, Tier.reserves_of_files name rfl⟩
      have hshut : ∀ x ∈ (none : Option (Act (Site β) String)), ∀ s,
          Ends x s (fun _ s' => s.tier.Reserves name s'.tier)
            (fun _ s' => s.tier.Reserves name s'.tier) := fun x hx =>
        absurd hx (Option.not_mem_none x)
      refine (ends_close (p := (w, s)) hsettle).mpr ?_
      refine (hclosing.finish_ends hsink).imp ?_ fun _ _ h => h.apart hw.location hshut
      intro _ q hq
      exact (hq.settling_ends hw.location (hw.settle settle hsettle)).imp
        (fun _ _ h => h.apart hw.location hshut) fun _ _ h => h.apart hw.location hshut

-- Settling fails with an error where there is no final name, and then the location is taken out.
theorem settling_withdrawn {c : FileCache} (ht : c.Tidy) (hfiles : s.tier.files = some c)
    (hsettle : ∀ s, Ends settle s (fun _ s' => s'.tier = s.tier) (fun _ s' => s'.tier = s.tier))
    (location : String) :
    Ends (settling (δ := δ) location settle) (w, s) (fun _ _ => True)
      (fun e p' => e.Handled → ∃ c', p'.2.tier.files = some c' ∧ c'.Tidy ∧
        FileCache.Withdrawn location c c' ∧
        ∀ file, c.Reserved location file → c'.Reserved location file) := by
  simp only [settling, ends_bind, ends_onPart, ends_attempt]
  refine (hsettle s).imp ?_ ?_
  · intro final s' hs'
    simp only [settleName, ends_onTier]
    exact (Tier.rename_unhandled location final s'.tier).imp (fun _ _ => id)
      fun _ _ hbreaks hhandled => absurd hhandled hbreaks
  · intro e s' hs'
    cases e with
    | breach b => exact False.elim
    | error e =>
      have hsame : s'.tier.files = some c := (congrArg Tier.files hs').trans hfiles
      simp only [settleName, ends_bind, ends_onTier, ends_fail]
      exact (Tier.delete_withdrawn ht hsame location).imp (fun _ _ hdone _ => hdone)
        fun _ _ => False.elim

-- The last staged bytes are published under the location, which may evict blocks of other names.
theorem finish_spared (haloof : sink.Aloof) {c : FileCache} (hs : c.Sound)
    (hfiles : s.tier.files = some c) (hflushed : w.flushed ≤ w.staged.size) :
    Ends (finish sink) (w, s)
      (fun _ q => ∃ c', q.2.tier.files = some c' ∧ FileCache.Spared w.location
        (w.staged.size = w.flushed ∨ c.size < c.engine.capacity) c c')
      (fun _ _ => True) := by
  have hclose : ∀ p : CachedWriter δ (Site β) × Site β, ∀ c', p.2.tier.files = some c' →
      FileCache.Spared w.location (w.staged.size = w.flushed ∨ c.size < c.engine.capacity) c c' →
      Ends (onBelow sink.close) p (fun _ q => ∃ c', q.2.tier.files = some c' ∧
        FileCache.Spared w.location (w.staged.size = w.flushed ∨ c.size < c.engine.capacity) c c')
        (fun _ _ => True) := by
    intro p c' hc' hspared
    rw [ends_onBelow]
    refine (haloof.close p.1.below p.2).imp (fun _ q hq => ?_) fun _ _ _ => trivial
    exact ⟨c', (congrArg Tier.files hq).trans hc', hspared⟩
  simp only [finish, ends_bind]
  refine ends_passStaged hflushed (fun _ => hclose _ c hfiles (FileCache.spared_refl _ _ _)) ?_
  intro hnew
  refine (haloof.write _ w.below s).imp (fun _ p hp => ?_) fun _ _ _ => trivial
  have hsame : p.2.tier.files = some c := (congrArg Tier.files hp).trans hfiles
  refine (Tier.update_spared hs hsame _ _ _ _).imp (fun _ t' ht' => ?_) fun _ _ _ => trivial
  obtain ⟨c', hc', hspared⟩ := ht'
  exact hclose _ c' hc' (hspared.of_room fun hroom => hroom.resolve_left hnew)

theorem reserving_closing (h : Reserving name kept location resolver t p) :
    Reserving name kept location none t (closing p) :=
  ⟨h.below, h.flushed_le, h.staged_le, h.location, rfl, h.tier⟩

-- The same writer, seen from where it is.
theorem Reserving.here (h : Reserving name kept location resolver t p) :
    Reserving name kept location resolver p.2.tier p :=
  ⟨h.below, h.flushed_le, h.staged_le, h.location, h.settle, Tier.reserves_of_files name rfl⟩

theorem reserving_fresh {below : δ} (s : Site β) (hbelow : kept below) :
    Reserving name kept location (some settle) s.tier (fresh below location settle, s) :=
  ⟨hbelow, Nat.le_refl _, Nat.zero_le _, rfl, rfl, Tier.reserves_of_files name rfl⟩

-- A close of the only writer of a location that gets as far as the final name and does not find it:
-- the location is taken out of the cache with all blocks that it had, now and after any of the calls,
-- and the other names keep what they have. All that may cost them a block is that the last bytes are
-- published into a full cache.
theorem withdrawn_of_close (below : δ) (location : String) (settle : Act (Site β) String) (s : Site β)
    {c₀ : FileCache} (hfiles : s.tier.files = some c₀) (hreached : s.tier.Reached)
    (hsink : sink.Reserves location kept)
    (hsettle : ∀ s, Ends settle s (fun _ s' => s'.tier = s.tier) (fun _ s' => s'.tier = s.tier))
    (hbelow : kept below) (calls : List Call) (hcalls : ∀ call ∈ calls,
      call ≠ .close ∧ ∀ dest, call ≠ .aside (.call (.rename location dest))) :
    let start : CachedWriter δ (Site β) × Site β := (fresh below location settle, s)
    let p := after sink start calls
    ∀ q, finish sink (closing p) = .ok () q → ∀ e p', close sink p = .error (.error e) p' →
      ∃ c₁ c c', p.2.tier.files = some c₁ ∧ q.2.tier.files = some c ∧ p'.2.tier.files = some c' ∧
        FileCache.Withdrawn location c c' ∧
        (∀ before, before <+: calls → ∀ past ∈ (after sink start before).2.tier.files, ∀ file,
          past.names[location]? = some file → ∀ key ∈ c'.engine.keys, key.file ≠ file) ∧
        (sink.Aloof → FileCache.Spared location
          (p.1.staged.size = p.1.flushed ∨ c₁.size < c₁.engine.capacity) c₁ c') := by
  intro start p q hfinish e p' hclose
  have hstart : Reserving location kept location (some settle) s.tier start :=
    reserving_fresh s hbelow
  have hp := hstart.after hsink hcalls
  have htidy := hreached.tidy c₀ hfiles
  have hq := ((reserving_closing hp).finish_ends hsink).ok hfinish
  obtain ⟨c₁, hc₁, htidy₁, _⟩ := hp.tier c₀ hfiles htidy
  obtain ⟨c, hc, htidy', _⟩ := hq.tier c₀ hfiles htidy
  have hends : Ends (close sink) p (fun _ _ => True) (fun e p' => e.Handled → ∃ c',
      p'.2.tier.files = some c' ∧ c'.Tidy ∧ FileCache.Withdrawn location c c' ∧
        ∀ file, c.Reserved location file → c'.Reserved location file) := by
    rw [ends_close hp.settle, hp.location]
    exact ends_of_ok hfinish (settling_withdrawn htidy' hc hsettle location)
  obtain ⟨c', hc', htidy'', hwithdrawn, hkept⟩ := hends.error hclose trivial
  refine ⟨c₁, c, c', hc₁, hc, hc', hwithdrawn, ?_, fun haloof => ?_⟩
  · -- every number of the location stays its own until the close
    rintro before ⟨rest, rfl⟩ past hpast file hfile
    have hpassed := hstart.after hsink fun call hcall => hcalls call (List.mem_append_left rest hcall)
    obtain ⟨past', hpast', htidyPast, _⟩ := hpassed.tier c₀ hfiles htidy
    obtain rfl := Option.some.inj (hpast.symm.trans hpast')
    have hrest := hpassed.here.after hsink fun call hcall =>
      hcalls call (List.mem_append_right before hcall)
    have hp' : after sink (after sink start before) rest = p := (List.foldl_append ..).symm
    rw [hp'] at hrest
    have hsince := ((reserving_closing hrest).finish_ends hsink).ok hfinish
    obtain ⟨c₂, hc₂, _, hreserved⟩ := hsince.tier past hpast htidyPast
    obtain rfl := Option.some.inj (hc.symm.trans hc₂)
    exact htidy''.not_mem_of_reserved (hkept file (hreserved file (htidyPast.sound.reserved hfile)))
      hwithdrawn.unmapped
  · have hfinished := finish_spared haloof htidy₁.sound hc₁ (reserving_closing hp).flushed_le
    obtain ⟨c₂, hc₂, hspared⟩ := hfinished.ok hfinish
    obtain rfl := Option.some.inj (hc.symm.trans hc₂)
    exact FileCache.Spared.withdrawn (hp.location ▸ hspared) hwithdrawn

-- The destination is a caching writer itself, over the same cache, and gets its final name. The one
-- above finds none.
theorem withdrawn_of_close_nested :
    ∃ c₀, FileCache.ofSizing (.ofLayout 1 8 8192) = .ok c₀ ∧
    let sink := asSink (MemoryStore.guarded .script)
    let inner : CachedWriter MemoryOutput (Site (Guarded (List Bool) MemoryStore)) :=
      fresh { name := "f" } "e/f" (pure "e/f:1")
    let site : Site (Guarded (List Bool) MemoryStore) := ⟨{ files := some c₀ }, ⟨[], {}⟩⟩
    let calls : List Call :=
      [.write ⟨#[1]⟩, .flush, .aside (.call (.update "d/g" 0 0 ⟨#[9]⟩)), .write ⟨#[2]⟩]
    let p := after sink (fresh inner "d/f" (Act.fail (.fileNotFound "f")), site) calls
    ∃ q p' c c', finish sink (closing p) = .ok () q ∧
      close sink p = .error (.error (.fileNotFound "f")) p' ∧
      q.2.tier.files = some c ∧ p'.2.tier.files = some c' ∧ FileCache.Withdrawn "d/f" c c' ∧
      c.names["d/f"]? = some 0 ∧ c.engine.keys = [⟨1, 0⟩, ⟨0, 0⟩, ⟨2, 0⟩] := by
  refine ⟨_, rfl, ?_⟩
  intro sink inner site calls p
  obtain ⟨q, hq⟩ : ∃ q, finish sink (closing p) = .ok () q :=
    ⟨_, eq_ok_of_outcome (by decide +kernel)⟩
  obtain ⟨p', hp'⟩ : ∃ p', close sink p = .error (.error (.fileNotFound "f")) p' :=
    ⟨_, eq_error_of_outcome (by decide +kernel)⟩
  have hinner : Apart "d/f" (fun _ => True) inner := by
    refine ⟨trivial, Nat.le_refl _, Nat.zero_le _, by decide, fun x hx s => ?_⟩
    cases hx
    exact Tier.reserves_of_files "d/f" rfl
  have hreached : site.tier.Reached :=
    Tier.reached_of_sizing (show FileCache.ofSizing (.ofLayout 1 8 8192) = _ from rfl) rfl
  have hsink : sink.Reserves "d/f" (Apart "d/f" fun _ => True) :=
    asSink_reserves ((Output.plainSink_aloof _).reserves "d/f")
  obtain ⟨_, c, c', _, hc, hc', hwithdrawn, _⟩ := withdrawn_of_close inner "d/f"
    (Act.fail (.fileNotFound "f")) site rfl hreached hsink (fun _ => rfl) hinner calls
    (by simp [calls]) q hq _ p' hp'
  have hbefore : (outcome (finish sink) (closing p)).2.2.tier.files.map
      (fun c => (c.names["d/f"]?, c.engine.keys)) = some (some 0, [⟨1, 0⟩, ⟨0, 0⟩, ⟨2, 0⟩]) := by
    decide +kernel
  simp only [outcome, hq, hc, Option.map_some, Option.some.injEq, Prod.mk.injEq] at hbefore
  exact ⟨q, p', c, c', hq, hp', hc, hc', hwithdrawn, hbefore⟩

-- A close that is refused by the destination, at the last bytes or after them, leaves the block that
-- was published before under the location, where nobody will look for it.
theorem published_of_refused :
    ∃ c₀, FileCache.ofSizing (.ofLayout 1 8 8192) = .ok c₀ ∧
    let sink := MemoryStore.guarded .script
    let start : CachedWriter MemoryOutput (Site (Guarded (List Bool) MemoryStore)) × Site _ :=
      (fresh { name := "f" } "d/f" (pure "d/f:1"),
        ⟨{ files := some c₀ }, ⟨[false, false, true], {}⟩⟩)
    let flushed := after sink start [.write ⟨#[1]⟩, .flush]
    let written := after sink start [.write ⟨#[1]⟩, .flush, .write ⟨#[2]⟩]
    let left (p : CachedWriter MemoryOutput (Site (Guarded (List Bool) MemoryStore)) × Site _) :=
      (outcome (close sink) p).2.2.tier.files.map fun c => (c.names["d/f"]?, c.engine.keys)
    (outcome (close sink) flushed).1 = .error (.error (.io (.other "refused"))) ∧
      left flushed = some (some 0, [⟨0, 0⟩]) ∧
      (outcome (close sink) written).1 = .error (.error (.io (.other "refused"))) ∧
      left written = some (some 0, [⟨0, 0⟩]) :=
  ⟨_, rfl, by decide +kernel, by decide +kernel, by decide +kernel, by decide +kernel⟩

end CachedWriter

end Blockwise
