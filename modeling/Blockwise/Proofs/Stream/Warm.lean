import Blockwise.Proofs.Stream.Safety
import Blockwise.Proofs.Tier.Recent

namespace Blockwise

open Act

namespace Tier

theorem borrow_files (t : Tier) (pool size : Nat) :
    Ends (borrow pool size) t (fun _ t' => t'.files = t.files) (fun _ t' => t'.files = t.files) := by
  simp only [Ends, borrow]
  cases t.pools[pool]? with
  | none => rfl
  | some p => rfl

end Tier

-- The store was not asked, the cache had what it was asked for, and it still has all it had.
structure Site.Spared {β : Type} (s s' : Site β) : Prop where
  store : s'.store = s.store
  hits : ∀ call ∈ s'.tier.journal, call ∈ s.tier.journal ∨ call.IsHit
  kept : ∀ name block, s.tier.Holds name block → s'.tier.Holds name block

theorem Site.Spared.refl {β : Type} (s : Site β) : s.Spared s := ⟨rfl, fun _ => .inl, fun _ _ => id⟩

theorem Site.Spared.trans {β : Type} {s s' s'' : Site β} (h : s.Spared s') (h' : s'.Spared s'') :
    s.Spared s'' := by
  refine ⟨h'.store.trans h.store, fun call hcall => ?_, fun name block hheld => ?_⟩
  · exact (h'.hits call hcall).elim (h.hits call) .inr
  · exact h'.kept name block (h.kept name block hheld)

namespace CacheLabel

variable {ι β : Type} {label : CacheLabel} {seek : Nat → Act (Site β) Unit}
  {read : Nat → Nat → Site β → Delivery × Site β} {span : Grid.Span} {spans : List Grid.Span}
  {s : Site β} {capacity : Nat} {blocks : List Nat} {got : Bytes}

section Miss

variable (feed : Feed ι β) (input : ι)

-- Reading the block below the cache moves nothing in it; the block comes in front of all others.
theorem loadBlock_recent (h : s.tier.Recent capacity label.cacheName blocks)
    (hfew : (FileCache.use span.block blocks).length ≤ capacity) :
    Ends (label.loadBlock (Source.seek feed (.plain input)) (Source.read feed (.plain input)) span) s
      (fun _ s' => s'.tier.Recent capacity label.cacheName (FileCache.use span.block blocks))
      (fun _ _ => True) := by
  have hany {α : Type} (x : Except Failure α) (s : Site β) {done : α → Site β → Prop}
      (hdone : ∀ a, done a s) : Ends (Act.lift x) s done fun _ _ => True := by
    cases x with
    | ok a => exact hdone a
    | error e => trivial
  by_cases hstart : label.length < Grid.start span.block
  · simp only [loadBlock, if_pos hstart, ends_bind, ends_breach]
  simp only [loadBlock, if_neg hstart, ends_bind, Source.seek, Site.ends_onStore, Site.ends_onTier]
  refine .always (fun _ store => ?_) fun _ _ => trivial
  refine (Tier.borrow_files s.tier label.pool Grid.blockSize).imp ?_ fun _ _ _ => trivial
  intro scratch t hfiles
  refine hany _ _ fun _ => ?_
  simp only [ends_modifyGet, Source.read]
  rcases hread : feed.read input (Grid.start span.block)
    (min Grid.blockSize (label.length - Grid.start span.block)) store with ⟨⟨bytes, failure⟩, store'⟩
  simp only [hread]
  cases failure with
  | some e => simp only [ends_bind, Site.ends_onTier, Tier.ends_giveBack, ends_throw]
  | none =>
    simp only [ends_bind, Site.ends_onTier]
    refine hany _ _ fun _ => ?_
    refine (Tier.update_recent (h.of_files hfiles) hfew).imp ?_ fun _ _ _ => trivial
    intro _ t' hupdated
    simp only [Tier.ends_giveBack, ends_pure]
    exact hupdated.of_files rfl

theorem readSpan_recent (h : s.tier.Recent capacity label.cacheName blocks)
    (hfew : (FileCache.use span.block blocks).length ≤ capacity)
    (hfits : span.offset + span.length ≤ Grid.blockSize) :
    Ends (label.readSpan (Source.seek feed (.plain input)) (Source.read feed (.plain input)) span) s
      (fun _ s' => s'.tier.Recent capacity label.cacheName (FileCache.use span.block blocks))
      (fun _ _ => True) := by
  simp only [readSpan, ends_bind, Site.ends_onTier]
  refine (Tier.fetch_recent h hfits).imp ?_ fun _ _ _ => trivial
  intro found t hfetched
  cases found with
  | some bytes => exact hfetched
  | none => exact loadBlock_recent feed input (s := { s with tier := t }) hfetched hfew

-- By induction on the blocks still to be read: those that were read are the ones used last.
theorem fill_recent (hfits : ∀ span ∈ spans, span.offset + span.length ≤ Grid.blockSize)
    (h : s.tier.Recent capacity label.cacheName blocks)
    (hfew : blocks.length + spans.length ≤ capacity)
    (hdone : (fill (label.readSpan (Source.seek feed (.plain input)) (Source.read feed (.plain input)))
      spans got s).1.failure = none) :
    ∃ last, (fill (label.readSpan (Source.seek feed (.plain input))
        (Source.read feed (.plain input))) spans got s).2.tier.Recent capacity label.cacheName last ∧
      (∀ block ∈ blocks, block ∈ last) ∧ ∀ span ∈ spans, span.block ∈ last := by
  induction spans generalizing got s blocks with
  | nil => exact ⟨blocks, h, fun _ => id, List.forall_mem_nil _⟩
  | cons span rest ih =>
    obtain ⟨hspan, hrest⟩ := List.forall_mem_cons.mp hfits
    have hlength := FileCache.length_use_le span.block blocks
    rw [List.length_cons] at hfew
    have hends := readSpan_recent feed input h (by omega) hspan
    rw [fill] at hdone ⊢
    cases hrun : label.readSpan (Source.seek feed (.plain input)) (Source.read feed (.plain input))
        span s with
    | error e s' =>
      simp only [hrun] at hdone
      cases hdone
    | ok bytes s' =>
      simp only [hrun] at hdone ⊢
      obtain ⟨last, hlast, hkept, hread⟩ := ih hrest (hends.ok hrun) (by omega) hdone
      refine ⟨last, hlast, fun block hblock => hkept block (FileCache.mem_use hblock), ?_⟩
      rw [List.forall_mem_cons]
      exact ⟨hkept _ List.mem_cons_self, hread⟩

end Miss

theorem readSpan_held (seek : Nat → Act (Site β) Unit)
    (read : Nat → Nat → Site β → Delivery × Site β) (h : s.tier.Holds label.cacheName span.block)
    (hfits : span.offset + span.length ≤ Grid.blockSize) :
    ∃ bytes s', label.readSpan seek read span s = .ok bytes s' ∧ s.Spared s' := by
  have hends : Ends (label.readSpan seek read span) s (fun _ s' => s.Spared s') fun _ _ => False := by
    simp only [readSpan, ends_bind, Site.ends_onTier]
    refine (Tier.fetch_held h hfits).imp ?_ fun _ _ => id
    intro found t hfetched
    obtain ⟨⟨bytes, rfl⟩, hjournal, hkept⟩ := hfetched
    refine ⟨rfl, fun call hcall => ?_, hkept⟩
    have hcall : call ∈ t.journal := hcall
    rw [hjournal, Array.mem_push] at hcall
    rcases hcall with hold | rfl
    · exact .inl hold
    · exact .inr rfl
  exact hends.exists_ok

theorem fill_held (hspans : ∀ span ∈ spans, s.tier.Holds label.cacheName span.block ∧
      span.offset + span.length ≤ Grid.blockSize) :
    ∃ bytes s', fill (label.readSpan seek read) spans got s = (⟨bytes, none⟩, s') ∧ s.Spared s' := by
  induction spans generalizing got s with
  | nil => exact ⟨got, s, rfl, .refl s⟩
  | cons span rest ih =>
    obtain ⟨⟨hheld, hfits⟩, hrest⟩ := List.forall_mem_cons.mp hspans
    obtain ⟨bytes, s₁, hrun, hfirst⟩ := readSpan_held seek read hheld hfits
    obtain ⟨all, s₂, hfill, hsecond⟩ : ∃ all s₂,
        fill (label.readSpan seek read) rest (got ++ bytes) s₁ = (⟨all, none⟩, s₂) ∧ s₁.Spared s₂ :=
      ih fun other hother => (hrest other hother).imp_left (hfirst.kept _ _)
    refine ⟨all, s₂, ?_, hfirst.trans hsecond⟩
    rw [fill, hrun]
    exact hfill

end CacheLabel

namespace Source

variable {ι β : Type} (feed : Feed ι β) {label : CacheLabel} {s : Site β}
  {position len capacity : Nat}

-- What a read that succeeds has touched is cached after it.
theorem read_fills (input : ι) (h : s.tier.Recent capacity label.cacheName [])
    (hfew : (Grid.touched position len).length ≤ capacity)
    (hdone : ((Source.cached (.plain input) label).read feed position len s).1.failure = none) :
    position + len ≤ label.length ∧ ∀ span ∈ Grid.spans position len,
      ((Source.cached (.plain input) label).read feed position len s).2.tier.Holds
        label.cacheName span.block := by
  rw [Source.read, CacheLabel.read, readPastEof] at hdone ⊢
  by_cases hpast : label.length < position + len
  · rw [if_pos hpast] at hdone
    cases hdone
  rw [if_neg hpast] at hdone ⊢
  rw [Grid.length_touched] at hfew
  obtain ⟨last, hlast, _, hread⟩ := CacheLabel.fill_recent feed input
    (fun span hspan => (Grid.within_of_mem span hspan).fits) h (by rwa [List.length_nil, Nat.zero_add])
    hdone
  exact ⟨Nat.not_lt.mp hpast, fun span hspan => hlast.holds (hread span hspan)⟩

-- A read of cached blocks is served without the store.
theorem read_held (below : Source ι) (hin : position + len ≤ label.length)
    (hheld : ∀ span ∈ Grid.spans position len, s.tier.Holds label.cacheName span.block) :
    ∃ bytes s', (Source.cached below label).read feed position len s = (⟨bytes, none⟩, s') ∧
      s.Spared s' := by
  rw [Source.read, CacheLabel.read, readPastEof, if_neg (Nat.not_lt.mpr hin)]
  exact CacheLabel.fill_held fun span hspan =>
    ⟨hheld span hspan, (Grid.within_of_mem span hspan).fits⟩

end Source

end Blockwise
