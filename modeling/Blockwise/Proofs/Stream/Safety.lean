import Blockwise.Proofs.Stream.Writing
import Blockwise.Proofs.Tier.Safety

namespace Blockwise

open Act

-- A delivery that fits the buffer it is made into, and fills it unless it fails.
structure Delivery.Within (d : Delivery) (len : Nat) : Prop where
  size_le : d.bytes.size ≤ len
  full : d.failure = none → d.bytes.size = len
  handled : ∀ e ∈ d.failure, e.Handled

theorem Delivery.within_refused (e : StorageError) (len : Nat) : (Delivery.refused e).Within len :=
  ⟨Nat.zero_le _, nofun, fun _ he => Option.some.inj he ▸ trivial⟩

-- Calls on the sound inputs of a feed.
structure Feed.Safe {ι σ : Type} (feed : Feed ι σ) (g : Regime σ) (sound : ι → Prop) : Prop where
  seek : ∀ input position, sound input → Act.Safe g (feed.seek input position) fun _ => True
  read : ∀ input position len s, sound input → g.holds s →
    g.Leaves s (feed.read input position len s).2 ∧ (feed.read input position len s).1.Within len
  clone : ∀ input, sound input → Act.Safe g (feed.clone input) sound

-- Calls on the sound outputs of a sink leave them sound.
structure Sink.Safe {δ σ : Type} (sink : Sink δ σ) (g : Regime σ) (sound : δ → Prop) : Prop where
  write : ∀ data, Act.Safe (g.withHandle sound) (sink.write data) fun _ => True
  flush : Act.Safe (g.withHandle sound) sink.flush fun _ => True
  close : Act.Safe (g.withHandle sound) sink.close fun _ => True
  drop : ∀ out s, sound out → g.holds s → g.Leaves s (sink.drop out s)

namespace Site

variable {α β : Type} {pools : Nat} {shape : Option (Nat × Nat)} {g : Regime β} {done : α → Prop}
  {s : Site β}

-- An intact tier before a store that keeps to its regime.
def regime (pools : Nat) (shape : Option (Nat × Nat)) (g : Regime β) : Regime (Site β) where
  holds s := s.tier.Intact pools shape ∧ g.holds s.store
  moves s s' := g.moves s.store s'.store
  refl s := g.refl s.store
  trans := g.trans

theorem leaves_tier {t : Tier} (hs : (regime pools shape g).holds s) (ht : t.Intact pools shape) :
    (regime pools shape g).Leaves s { s with tier := t } := ⟨⟨ht, hs.2⟩, g.refl _⟩

theorem leaves_store {store : β} (hs : (regime pools shape g).holds s)
    (hstore : g.Leaves s.store store) :
    (regime pools shape g).Leaves s { s with store } := ⟨⟨hs.1, hstore.1⟩, hstore.2⟩

theorem safe_onTier {x : Act Tier α} (hx : Safe (Tier.regime pools shape) x done) :
    Safe (regime pools shape g) (onTier x) done :=
  hx.onPart (fun _ hs => hs.1) fun _ _ hs ht => leaves_tier hs ht.1

theorem safe_onStore {x : Act β α} (hx : Safe g x done) : Safe (regime pools shape g) (onStore x) done :=
  hx.onPart (fun _ hs => hs.2) fun _ _ hs ht => leaves_store hs ht

end Site

namespace CacheLabel

variable {β : Type} {pools : Nat} {shape : Option (Nat × Nat)} {store : Regime β}
  {g : Regime (Site β)} {label : CacheLabel} {seek : Nat → Act (Site β) Unit}
  {read : Nat → Nat → Site β → Delivery × Site β} {span : Grid.Span} {s : Site β}

theorem safe_part {b : Bytes} {start stop : Nat} (hstart : start ≤ stop) (hstop : stop ≤ b.size) :
    Safe g (Act.lift (b.part start stop)) fun bytes => bytes.size = stop - start := by
  rw [part_of_le hstart hstop]
  exact Safe.pure (Bytes.size_slice_of_le (by omega))

-- A miss reads a block that starts within the file, into a buffer that holds a whole block.
theorem safe_loadBlock
    (hg : g = Site.regime pools shape store)
    (hseek : ∀ position, Safe g (seek position) fun _ => True)
    (hread : ∀ position len s, g.holds s →
      g.Leaves s (read position len s).2 ∧ (read position len s).1.Within len)
    (hpool : label.pool < pools) (hgrid : Tier.Fits shape 0 Grid.blockSize)
    (hfits : span.offset + span.length ≤ Grid.blockSize)
    (hstart : Grid.start span.block ≤ label.length) :
    Safe g (label.loadBlock seek read span) fun bytes => bytes.size = span.length := by
  simp only [loadBlock, if_neg (Nat.not_lt.mpr hstart)]
  obtain ⟨n, hn⟩ : ∃ n, min Grid.blockSize (label.length - Grid.start span.block) = n := ⟨_, rfl⟩
  have hle : n ≤ Grid.blockSize := hn ▸ Nat.min_le_left _ _
  rw [hn]
  refine (hseek _).bind fun _ _ => ?_
  subst hg
  refine (Site.safe_onTier (Tier.safe_borrow hpool _)).bind fun scratch hscratch => ?_
  refine (safe_part (Nat.zero_le n) (by omega)).bind fun _ _ => ?_
  have hdelivery : Safe (Site.regime pools shape store)
      (modifyGet (read (Grid.start span.block) n)) fun d => d.Within n := fun s hs =>
    hread (Grid.start span.block) n s hs
  refine hdelivery.bind fun delivery hwithin => ?_
  have hsize : (delivery.into scratch).size = Grid.blockSize := by
    rw [Delivery.into, Bytes.size_overlay, hscratch]
    have hdelivered := hwithin.size_le
    omega
  cases hfailure : delivery.failure with
  | some e =>
    dsimp only
    refine (Site.safe_onTier (Tier.safe_giveBack _ _)).bind fun _ _ => ?_
    exact (Safe.throw (hwithin.handled e hfailure)).bind fun _ h => absurd h not_false
  | none =>
    generalize hblock : Bytes.padTo (Bytes.slice (delivery.into scratch) 0 n)
      (delivery.into scratch).size = block
    have hpadded : block.size = Grid.blockSize := by
      rw [← hblock, Bytes.size_padTo, Bytes.size_slice, hsize]
      omega
    dsimp only
    refine (safe_part (Nat.le_add_right _ _) (by omega)).bind fun bytes hbytes => ?_
    refine (Site.safe_onTier (Tier.safe_update _ _ (hpadded.symm ▸ hgrid))).bind fun _ _ => ?_
    refine (Site.safe_onTier (Tier.safe_giveBack _ _)).bind fun _ _ => .pure ?_
    rw [hbytes, Nat.add_sub_cancel_left]

theorem safe_readSpan
    (hg : g = Site.regime pools shape store)
    (hseek : ∀ position, Safe g (seek position) fun _ => True)
    (hread : ∀ position len s, g.holds s →
      g.Leaves s (read position len s).2 ∧ (read position len s).1.Within len)
    (hpool : label.pool < pools) (hgrid : ∀ offset len, offset + len ≤ Grid.blockSize →
      Tier.Fits shape offset len)
    (hfits : span.offset + span.length ≤ Grid.blockSize)
    (hstart : Grid.start span.block ≤ label.length) :
    Safe g (label.readSpan seek read span) fun bytes => bytes.size = span.length := by
  have hfetch : Safe g (Site.onTier (Tier.fetch label.cacheName span.block span.offset span.length))
      fun found => ∀ bytes ∈ found, bytes.size = span.length := by
    rw [hg]
    exact Site.safe_onTier (Tier.safe_fetch _ _ (hgrid _ _ hfits))
  refine hfetch.bind fun found hfound => ?_
  cases found with
  | some bytes => exact .pure (hfound bytes rfl)
  | none =>
    exact safe_loadBlock hg hseek hread hpool (hgrid _ _ (Nat.le_of_eq (Nat.zero_add _))) hfits hstart

-- The parts of a delivery come one after another, up to the first that fails.
theorem fill_within {part : Grid.Span → Act (Site β) Bytes} {spans : List Grid.Span}
    (hpart : ∀ span ∈ spans, Safe g (part span) fun bytes => bytes.size = span.length) (got : Bytes)
    (hs : g.holds s) :
    g.Leaves s (fill part spans got s).2 ∧
      (fill part spans got s).1.Within (got.size + (spans.map (·.length)).sum) := by
  induction spans generalizing got s with
  | nil => exact ⟨.refl hs, Nat.le_refl _, fun _ => rfl, nofun⟩
  | cons span rest ih =>
    obtain ⟨hspan, hrest⟩ := List.forall_mem_cons.mp hpart
    have hends := hspan s hs
    rw [List.map_cons, List.sum_cons, ← Nat.add_assoc, fill]
    cases hrun : part span s with
    | error e s' =>
      obtain ⟨hleaves, hhandled⟩ := hends.error hrun
      refine ⟨hleaves, ?_, fun hnone => absurd hnone (Option.some_ne_none e),
        fun _ he => Option.some.inj he ▸ hhandled⟩
      show got.size ≤ _
      omega
    | ok bytes s' =>
      obtain ⟨hleaves, hsize⟩ := hends.ok hrun
      obtain ⟨hleaves', hwithin⟩ := ih hrest (got ++ bytes) hleaves.1
      rw [ByteArray.size_append, hsize] at hwithin
      exact ⟨hleaves.trans hleaves', hwithin⟩

end CacheLabel

namespace Source

variable {ι β : Type} {feed : Feed ι β} {store : Regime β} {sound : ι → Prop} {pools : Nat}
  {shape : Option (Nat × Nat)}

-- The input at the bottom is sound, and every layer takes its buffers from a pool that is there.
def Sound (pools : Nat) (sound : ι → Prop) : Source ι → Prop
  | plain input => sound input
  | cached below label => below.Sound pools sound ∧ label.pool < pools

theorem safe_seek (h : feed.Safe store sound) {source : Source ι} (hsource : source.Sound pools sound)
    (position : Nat) :
    Act.Safe (Site.regime pools shape store) (source.seek feed position)
      fun _ => True := by
  cases source with
  | plain input => exact Site.safe_onStore (h.seek input position hsource)
  | cached below label => exact .pure trivial

-- By induction on the layers: each asks the one below it for blocks.
theorem read_within (h : feed.Safe store sound) {source : Source ι}
    (hsource : source.Sound pools sound) (position len : Nat) {s : Site β}
    (hs : (Site.regime pools shape store).holds s) :
    (Site.regime pools shape store).Leaves s (source.read feed position len s).2 ∧
      (source.read feed position len s).1.Within len := by
  induction source generalizing position len s with
  | plain input =>
    obtain ⟨hstore, hwithin⟩ := h.read input position len s.store hsource hs.2
    exact ⟨Site.leaves_store hs hstore, hwithin⟩
  | cached below label ih =>
    obtain ⟨hbelow, hpool⟩ := hsource
    rw [Source.read, CacheLabel.read, readPastEof]
    by_cases hpast : label.length < position + len
    · rw [if_pos hpast]
      exact ⟨.refl hs, Delivery.within_refused _ len⟩
    rw [if_neg hpast]
    have hgrid (offset len : Nat) (hle : offset + len ≤ Grid.blockSize) :
        Tier.Fits shape offset len := hs.1.fits hle
    have hpart : ∀ span ∈ Grid.spans position len,
        Act.Safe (Site.regime pools shape store)
          (label.readSpan (below.seek feed) (below.read feed) span)
          fun bytes => bytes.size = span.length := by
      intro span hspan
      have hwithin := Grid.within_of_mem span hspan
      have hupper := hwithin.upper
      exact CacheLabel.safe_readSpan rfl (safe_seek h hbelow)
        (fun position len s hs => ih hbelow position len hs) hpool hgrid hwithin.fits (by omega)
    have hfill := CacheLabel.fill_within hpart ByteArray.empty hs
    rwa [Grid.sum_spans, ByteArray.size_empty, Nat.zero_add] at hfill

theorem safe_clone (h : feed.Safe store sound) {source : Source ι}
    (hsource : source.Sound pools sound) :
    Act.Safe (Site.regime pools shape store) (source.clone feed)
      (Sound pools sound) := by
  induction source with
  | plain input => exact (Site.safe_onStore (h.clone input hsource)).map fun _ => id
  | cached below label ih => exact (ih hsource.1).map fun _ hbelow => ⟨hbelow, hsource.2⟩

theorem feed_safe (h : feed.Safe store sound) :
    (Source.feed feed).Safe (Site.regime pools shape store) (Sound pools sound) where
  seek _ position hsource := safe_seek h hsource position
  read _ position len _ hsource hs := read_within h hsource position len hs
  clone _ hsource := safe_clone h hsource

end Source

namespace CachedWriter

variable {δ β : Type} {sink : Sink δ (Site β)} {inv : CachedWriter δ (Site β) × Site β → Prop}
  {failed : Failure → Prop} {w : CachedWriter δ (Site β)} {s : Site β} {data : Bytes}

-- What the parts of a write keep, by the bytes that were taken so far: staging bytes that fit, handing
-- on what is staged, and leaving a full block behind.
structure Takes (sink : Sink δ (Site β)) (inv : Bytes → CachedWriter δ (Site β) × Site β → Prop)
    (failed : Failure → Prop) : Prop where
  staged_le : ∀ got w s, inv got (w, s) → w.staged.size ≤ Grid.blockSize
  stage : ∀ got w s data, inv got (w, s) → w.staged.size + data.size ≤ Grid.blockSize →
    inv (got ++ data) ({ w with staged := w.staged ++ data }, s)
  pass : ∀ got w s, inv got (w, s) → Ends (passStaged sink) (w, s)
    (fun _ p => inv got p ∧ p.1.staged = w.staged ∧ p.1.flushed = w.staged.size)
    (fun e p => inv got p ∧ failed e)
  advance : ∀ got w s, inv got (w, s) → w.staged.size = Grid.blockSize → w.flushed = Grid.blockSize →
    inv got ({ w with
      blockStart := w.blockStart + Grid.blockSize, staged := ByteArray.empty, flushed := 0 }, s)
  refused : ∀ e, failed (.error e)

namespace Takes

variable {inv : Bytes → CachedWriter δ (Site β) × Site β → Prop} {got : Bytes}

-- A piece is taken as soon as it is staged, whether or not the full block can be handed on.
theorem stage_ends (h : Takes sink inv failed) (hw : inv got (w, s))
    (hroom : w.staged.size + data.size ≤ Grid.blockSize) :
    Ends (CachedWriter.stage sink data) (w, s)
      (fun _ p => inv (got ++ data) p ∧
        p.1.staged.size = if w.staged.size + data.size = Grid.blockSize then 0
          else w.staged.size + data.size)
      (fun e p => inv (got ++ data) p ∧ failed e) := by
  have hstaged := h.stage got w s data hw hroom
  simp only [CachedWriter.stage, ends_bind, ends_modifyWriter, ends_get, ByteArray.size_append]
  by_cases hfull : w.staged.size + data.size = Grid.blockSize
  · simp only [hfull, if_true, ends_bind]
    refine (h.pass _ _ _ hstaged).imp ?_ fun _ _ => id
    intro _ p hdone
    obtain ⟨w', s'⟩ := p
    obtain ⟨hpassed, hsame, hflushed⟩ := hdone
    rw [ByteArray.size_append, hfull] at hflushed
    have hsize : w'.staged.size = Grid.blockSize := by
      rw [hsame, ByteArray.size_append, hfull]
    rw [ends_modifyWriter]
    exact ⟨h.advance _ w' s' hpassed hsize hflushed, rfl⟩
  · simp only [hfull, if_false, ends_pure]
    exact ⟨hstaged, ByteArray.size_append⟩

-- The first piece fills the block under way, and each that follows starts a new one. A failure comes
-- after some of the pieces.
theorem stageAll_ends (h : Takes sink inv failed) {pieces : List Bytes} {room : Nat}
    (hw : inv got (w, s)) (hroom : w.staged.size + room = Grid.blockSize) (hfills : Fills room pieces) :
    Ends (pieces.forM (CachedWriter.stage sink)) (w, s)
      (fun _ p => inv (got ++ Bytes.concat pieces) p)
      (fun e p => (∃ taken rest, taken ++ rest = Bytes.concat pieces ∧ inv (got ++ taken) p) ∧
        failed e) := by
  induction hfills generalizing w s got with
  | nil room =>
    simpa only [List.forM_eq_forM, List.forM_nil, ends_pure, Bytes.concat_nil,
      ByteArray.append_empty] using hw
  | @last room piece hlast =>
    simp only [List.forM_eq_forM, List.forM_cons, List.forM_nil, ends_bind, ends_pure,
      Bytes.concat_cons, Bytes.concat_nil, ByteArray.append_empty]
    exact (h.stage_ends hw (by omega)).imp (fun _ _ hstaged => hstaged.1) fun _ _ hfailed =>
      ⟨⟨piece, ByteArray.empty, ByteArray.append_empty, hfailed.1⟩, hfailed.2⟩
  | @cons room piece rest hpiece hrest ih =>
    simp only [List.forM_eq_forM, List.forM_cons, ends_bind, Bytes.concat_cons]
    refine (h.stage_ends hw (by omega)).imp ?_ fun _ _ hfailed =>
      ⟨⟨piece, Bytes.concat rest, rfl, hfailed.1⟩, hfailed.2⟩
    intro _ p hdone
    obtain ⟨w', s'⟩ := p
    obtain ⟨hw', hsize⟩ := hdone
    rw [if_pos (by omega)] at hsize
    have hempty : w'.staged.size = 0 := hsize
    refine (ih hw' (by omega)).imp (fun _ _ => ?_) fun _ _ => ?_
    · rw [ByteArray.append_assoc]
      exact id
    · rintro ⟨⟨taken, left, htaken, hinv⟩, hfailed⟩
      refine ⟨⟨piece ++ taken, left, ?_, ?_⟩, hfailed⟩
      · rw [ByteArray.append_assoc, htaken]
      · rwa [← ByteArray.append_assoc]

theorem requireOpen_ends (h : Takes sink inv failed) (got : Bytes) (hw : inv got (w, s)) :
    Ends (requireOpen sink) (w, s) (fun _ p => p = (w, s)) (fun e p => inv got p ∧ failed e) := by
  simp only [requireOpen, ends_bind, ends_get]
  split
  · exact ⟨hw, h.refused _⟩
  · rfl

theorem write_ends (h : Takes sink inv failed) (got : Bytes) (hw : inv got (w, s)) (data : Bytes) :
    Ends (CachedWriter.write sink data) (w, s) (fun _ p => inv (got ++ data) p)
      (fun e p => (∃ taken rest, taken ++ rest = data ∧ inv (got ++ taken) p) ∧ failed e) := by
  have hstaged := h.staged_le got w s hw
  simp only [CachedWriter.write, ends_bind]
  refine (h.requireOpen_ends got hw).imp ?_ fun _ _ hfailed =>
    ⟨⟨ByteArray.empty, data, ByteArray.empty_append, ?_⟩, hfailed.2⟩
  · intro _ p hsame
    subst hsame
    simp only [ends_get, Nat.not_lt.mpr hstaged, if_false]
    have hall := h.stageAll_ends hw (by omega) (fills_cutAfter (Grid.blockSize - w.staged.size) data)
    rwa [concat_cutAfter] at hall
  · rw [ByteArray.append_empty]
    exact hfailed.1

end Takes

-- The same where it does not matter which bytes were taken.
structure Keeps (sink : Sink δ (Site β)) (inv : CachedWriter δ (Site β) × Site β → Prop)
    (failed : Failure → Prop) : Prop where
  staged_le : ∀ w s, inv (w, s) → w.staged.size ≤ Grid.blockSize
  stage : ∀ w s data, inv (w, s) → w.staged.size + data.size ≤ Grid.blockSize →
    inv ({ w with staged := w.staged ++ data }, s)
  pass : ∀ w s, inv (w, s) → Ends (passStaged sink) (w, s)
    (fun _ p => inv p ∧ p.1.staged = w.staged ∧ p.1.flushed = w.staged.size)
    (fun e p => inv p ∧ failed e)
  advance : ∀ w s, inv (w, s) → w.staged.size = Grid.blockSize → w.flushed = Grid.blockSize →
    inv ({ w with
      blockStart := w.blockStart + Grid.blockSize, staged := ByteArray.empty, flushed := 0 }, s)
  refused : ∀ e, failed (.error e)

namespace Keeps

theorem takes (h : Keeps sink inv failed) : Takes sink (fun _ => inv) failed where
  staged_le _ := h.staged_le
  stage _ := h.stage
  pass _ := h.pass
  advance _ := h.advance
  refused := h.refused

theorem requireOpen_ends (h : Keeps sink inv failed) (hw : inv (w, s)) :
    Ends (requireOpen sink) (w, s) (fun _ p => p = (w, s)) (fun e p => inv p ∧ failed e) :=
  h.takes.requireOpen_ends ByteArray.empty hw

theorem write_ends (h : Keeps sink inv failed) (hw : inv (w, s)) (data : Bytes) :
    Ends (CachedWriter.write sink data) (w, s) (fun _ p => inv p) (fun e p => inv p ∧ failed e) := by
  refine (h.takes.write_ends ByteArray.empty hw data).imp (fun _ _ => id) ?_
  rintro e p ⟨⟨_, _, _, hp⟩, hfailed⟩
  exact ⟨hp, hfailed⟩

end Keeps

section Safety

variable {pools : Nat} {shape : Option (Nat × Nat)} {store : Regime β} {sound : δ → Prop}

-- The staged bytes fit a block, and settling the final name, if it is still to come, is safe.
structure Sound (g : Regime (Site β)) (sound : δ → Prop) (w : CachedWriter δ (Site β)) : Prop where
  below : sound w.below
  flushed_le : w.flushed ≤ w.staged.size
  staged_le : w.staged.size ≤ Grid.blockSize
  settle : ∀ x ∈ w.settle, Safe g x fun _ => True

abbrev regime (pools : Nat) (shape : Option (Nat × Nat)) (store : Regime β) (sound : δ → Prop) :
    Regime (CachedWriter δ (Site β) × Site β) :=
  (Site.regime pools shape store).withHandle (Sound (Site.regime pools shape store) sound)

theorem safe_passStaged (h : sink.Safe (Site.regime pools shape store) sound)
    (hw : (regime pools shape store sound).holds (w, s)) :
    Ends (passStaged sink) (w, s)
      (fun _ p => (regime pools shape store sound).Leaves (w, s) p ∧
        p.1.staged = w.staged ∧ p.1.flushed = w.staged.size)
      (fun e p => (regime pools shape store sound).Leaves (w, s) p ∧ e.Handled) := by
  obtain ⟨⟨hbelow, hflushed, hstaged, hsettle⟩, hs⟩ := hw
  refine ends_passStaged hflushed
    (fun hsame => ⟨.refl ⟨⟨hbelow, hflushed, hstaged, hsettle⟩, hs⟩, rfl, hsame.symm⟩) fun _ => ?_
  refine (h.write _ (w.below, s) ⟨hbelow, hs⟩).imp ?_ ?_
  · intro _ p hdone
    obtain ⟨below, s'⟩ := p
    obtain ⟨⟨⟨hbelow', hs'⟩, hmoves⟩, _⟩ := hdone
    have hblock : 0 + w.staged.size ≤ Grid.blockSize := (Nat.zero_add _).symm ▸ hstaged
    have hgrid : Tier.Fits shape 0 w.staged.size := hs'.1.fits hblock
    have hleaves : ∀ t, Tier.Intact pools shape t →
        (regime pools shape store sound).Leaves (w, s)
          ({ w with below, flushed := w.staged.size }, { s' with tier := t }) := by
      intro t ht
      have hsite := Site.leaves_tier hs' ht
      exact ⟨⟨⟨hbelow', Nat.le_refl _, hstaged, hsettle⟩, hsite.1⟩,
        (Site.regime pools shape store).trans hmoves hsite.2⟩
    exact (Tier.safe_update _ _ hgrid s'.tier hs'.1).imp
      (fun _ t ht => ⟨hleaves t ht.1.1, rfl, rfl⟩) fun _ t ht => ⟨hleaves t ht.1.1, ht.2⟩
  · intro e p hfailed
    obtain ⟨⟨⟨hbelow', hs'⟩, hmoves⟩, hhandled⟩ := hfailed
    exact ⟨⟨⟨⟨hbelow', hflushed, hstaged, hsettle⟩, hs'⟩, hmoves⟩, hhandled⟩

theorem keeps_sound (h : sink.Safe (Site.regime pools shape store) sound)
    (p : CachedWriter δ (Site β) × Site β) :
    Keeps sink ((regime pools shape store sound).Leaves p) Failure.Handled where
  staged_le w s hw := hw.1.1.staged_le
  stage w s data hw hroom := by
    obtain ⟨⟨⟨hbelow, hflushed, hstaged, hsettle⟩, hs⟩, hmoves⟩ := hw
    refine ⟨⟨⟨hbelow, ?_, ?_, hsettle⟩, hs⟩, hmoves⟩
    · show w.flushed ≤ (w.staged ++ data).size
      exact ByteArray.size_append ▸ Nat.le_add_right_of_le hflushed
    · exact Nat.le_trans (Nat.le_of_eq ByteArray.size_append) hroom
  pass w s hw := (safe_passStaged h hw.1).imp
    (fun _ _ hdone => ⟨hw.trans hdone.1, hdone.2⟩) fun _ _ hfailed => ⟨hw.trans hfailed.1, hfailed.2⟩
  advance w s hw _ _ := by
    obtain ⟨⟨⟨hbelow, _, _, hsettle⟩, hs⟩, hmoves⟩ := hw
    exact ⟨⟨⟨hbelow, Nat.le_refl _, Nat.zero_le _, hsettle⟩, hs⟩, hmoves⟩
  refused _ := trivial

-- A sink below takes part with its handle.
theorem safe_onBelow {α : Type} {x : Act (δ × Site β) α} {done : α → Prop}
    (hx : Safe ((Site.regime pools shape store).withHandle sound) x done) :
    Safe (regime pools shape store sound) (onBelow x) done :=
  hx.onPart (fun _ hp => ⟨hp.1.below, hp.2⟩) fun _ _ hp hleaves =>
    ⟨⟨⟨hleaves.1.1, hp.1.flushed_le, hp.1.staged_le, hp.1.settle⟩, hleaves.1.2⟩, hleaves.2⟩

theorem safe_onSite {α : Type} {x : Act (Site β) α} {done : α → Prop}
    (hx : Safe (Site.regime pools shape store) x done) :
    Safe (regime pools shape store sound)
      (Act.onPart Prod.snd (fun (w, _) s => (w, s)) x) done :=
  hx.onPart (fun _ hp => hp.2) fun _ _ hp hleaves => ⟨⟨hp.1, hleaves.1⟩, hleaves.2⟩

theorem safe_onTier {α : Type} {x : Act Tier α} {done : α → Prop}
    (hx : Safe (Tier.regime pools shape) x done) :
    Safe (regime pools shape store sound) (onTier x) done :=
  safe_onSite (Site.safe_onTier hx)

theorem safe_settleName (location : String) (name : Except StorageError String) :
    Safe (regime pools shape store sound)
      (settleName (δ := δ) (β := β) location name) fun _ => True := by
  cases name with
  | ok final => exact safe_onTier (Tier.safe_rename location final)
  | error e => exact (safe_onTier (Tier.safe_delete location)).bind fun _ _ => .fail e

theorem asSink_safe (h : sink.Safe (Site.regime pools shape store) sound) :
    (asSink sink).Safe (Site.regime pools shape store)
      (Sound (Site.regime pools shape store) sound) where
  write data p hp := ((keeps_sound h p).write_ends (.refl hp) data).imp
    (fun _ _ hdone => ⟨hdone, trivial⟩) fun _ _ => id
  flush := by
    intro p hp
    simp only [asSink, flush, ends_bind]
    refine ((keeps_sound h p).requireOpen_ends (.refl hp)).imp ?_ fun _ _ => id
    intro _ p' hsame
    subst hsame
    refine (safe_passStaged h hp).imp ?_ fun _ _ => id
    intro _ p' hpassed
    obtain ⟨hleaves, _⟩ := hpassed
    exact (safe_onBelow h.flush p' hleaves.1).imp (fun _ _ hdone => ⟨hleaves.trans hdone.1, trivial⟩)
      fun _ _ hfailed => ⟨hleaves.trans hfailed.1, hfailed.2⟩
  close := by
    intro p hp
    obtain ⟨w, s⟩ := p
    simp only [asSink, close, ends_bind, ends_get]
    cases hsettle : w.settle with
    | none => exact ⟨.refl hp, trivial⟩
    | some settle =>
      obtain ⟨⟨hbelow, hflushed, hstaged, hallowed⟩, hs⟩ := hp
      have hclosing := hallowed settle hsettle
      have hpass : Safe (regime pools shape store sound) (passStaged sink)
          fun _ => True := fun p hp =>
        (safe_passStaged h hp).imp (fun _ _ hdone => ⟨hdone.1, trivial⟩) fun _ _ => id
      rw [ends_bind, ends_modifyWriter]
      exact (hpass.bind fun _ _ => (safe_onBelow h.close).bind fun _ _ =>
        (safe_onSite hclosing.attempt).bind fun name _ => safe_settleName w.location name)
        ({ w with settle := none }, s)
        ⟨⟨hbelow, hflushed, hstaged, fun x hx => absurd hx (Option.not_mem_none x)⟩, hs⟩
  drop w s hw hs := h.drop w.below s hw.below hs

end Safety

end CachedWriter

namespace Output

variable {ο β : Type} {sink : Sink ο β} {pools : Nat} {shape : Option (Nat × Nat)}
  {store : Regime β} {sound : ο → Prop} {g : Regime (Site β)}

-- Every layer of a stream is sound, down to the stream that is written past the cache.
def SoundLayers (g : Regime (Site β)) (sound : ο → Prop) : (n : Nat) → Layered ο (Site β) n → Prop
  | 0 => sound
  | n + 1 => CachedWriter.Sound g (SoundLayers g sound n)

def Sound (g : Regime (Site β)) (sound : ο → Prop) (out : Output ο β) : Prop :=
  SoundLayers g sound out.layers out.stream

theorem Sound.cached {out : Output ο β} (h : out.Sound g sound) (location : String)
    {settle : Act (Site β) String} (hsettle : Safe g settle fun _ => True) :
    (out.cached location settle).Sound g sound :=
  ⟨h, Nat.le_refl _, Nat.zero_le _, fun _ hx => Option.some.inj hx ▸ hsettle⟩

theorem safe_raise {x : Act (ο × β) Unit} (hx : Safe (store.withHandle sound) x fun _ => True) :
    Safe ((Site.regime pools shape store).withHandle sound)
      (Act.onPart (fun (o, s) => (o, s.store)) (fun (_, s) (o, store) => (o, { s with store })) x)
      fun _ => True :=
  hx.onPart (fun _ hp => ⟨hp.1, hp.2.2⟩) fun _ _ hp hleaves =>
    ⟨⟨hleaves.1.1, hp.2.1, hleaves.1.2⟩, hleaves.2⟩

theorem plainSink_safe (h : sink.Safe store sound) :
    (plainSink sink).Safe (Site.regime pools shape store) sound where
  write data := safe_raise (h.write data)
  flush := safe_raise h.flush
  close := safe_raise h.close
  drop out s hout hs := Site.leaves_store hs (h.drop out s.store hout hs.2)

theorem layeredSink_safe (h : sink.Safe store sound) (n : Nat) :
    (layeredSink sink n).Safe (Site.regime pools shape store)
      (SoundLayers (Site.regime pools shape store) sound n) := by
  induction n with
  | zero => exact plainSink_safe h
  | succ n ih => exact CachedWriter.asSink_safe ih

theorem safe_onStream {α : Type} {x : (n : Nat) → Act (Layered ο (Site β) n × Site β) α}
    {done : α → Prop} (hx : ∀ n, Safe (g.withHandle (SoundLayers g sound n)) (x n) done) :
    Safe (g.withHandle (Sound g sound)) (onStream x) done := by
  intro p hp
  obtain ⟨⟨n, stream⟩, s⟩ := p
  have hends := hx n (stream, s) hp
  simp only [Ends, onStream] at hends ⊢
  cases hrun : x n (stream, s) with
  | ok a p' =>
    rw [hrun] at hends
    exact hends
  | error e p' =>
    rw [hrun] at hends
    exact hends

theorem sink_safe (h : sink.Safe store sound) :
    (Output.sink sink).Safe (Site.regime pools shape store)
      (Sound (Site.regime pools shape store) sound) where
  write data := safe_onStream fun n => (layeredSink_safe h n).write data
  flush := safe_onStream fun n => (layeredSink_safe h n).flush
  close := safe_onStream fun n => (layeredSink_safe h n).close
  drop out s hout hs := (layeredSink_safe h out.layers).drop out.stream s hout hs

end Output

end Blockwise
