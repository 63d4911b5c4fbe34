import Blockwise.Proofs.Stream.Sharing

namespace Blockwise

namespace Regime

-- Only an order.
def along {σ : Type} (moves : σ → σ → Prop) (refl : ∀ s, moves s s)
    (trans : ∀ {s s' s''}, moves s s' → moves s' s'' → moves s s'') : Regime σ where
  holds _ := True
  moves := moves
  refl := refl
  trans := trans

end Regime

open Act

namespace Act

variable {σ τ α α' : Type} {g : Regime σ} {x : Act σ α}

-- However the action ends, it has moved the state along the order of the regime.
def Moves (g : Regime σ) (x : Act σ α) : Prop :=
  ∀ s, Ends x s (fun _ s' => g.moves s s') (fun _ s' => g.moves s s')

theorem Moves.pure {a : α} : Moves g (Pure.pure a : Act σ α) := fun s => g.refl s

theorem Moves.lift {r : Except Failure α} : Moves g (Act.lift r : Act σ α) := by
  intro s
  cases r with
  | ok a => exact g.refl s
  | error e => exact g.refl s

theorem Moves.bind {f : α → Act σ α'} (hx : Moves g x) (hf : ∀ a, Moves g (f a)) :
    Moves g (x >>= f) := by
  intro s
  rw [ends_bind]
  refine (hx s).imp (fun a s' h => ?_) fun _ _ => id
  exact (hf a s').imp (fun _ _ => g.trans h) fun _ _ => g.trans h

end Act

namespace Tier

variable {α : Type}

-- A call on the file cache has no part in the journal and the buffers.
theorem onFiles_beside (absent : α) (x : FileCache.Run α) (t : Tier) :
    Ends (onFiles absent x) t (fun _ t' => t'.journal = t.journal ∧ t'.pools = t.pools)
      (fun _ t' => t'.journal = t.journal ∧ t'.pools = t.pools) := by
  simp only [Ends, onFiles]
  cases t.files with
  | none => exact ⟨rfl, rfl⟩
  | some c =>
    dsimp only
    cases x ⟨c, t.tally⟩ with
    | ok a m => exact ⟨rfl, rfl⟩
    | error b m => exact ⟨rfl, rfl⟩

theorem fetch_beside (name : String) (block offset len : Nat) (t : Tier) :
    Ends (fetch name block offset len) t
      (fun found t' => t'.journal = t.journal.push (.fetch name block offset len found.isSome) ∧
        t'.pools = t.pools)
      (fun _ t' => t'.journal = t.journal ∧ t'.pools = t.pools) := by
  simp only [fetch, ends_bind, ends_note, ends_pure]
  refine (onFiles_beside _ _ t).imp (fun found t' h => ?_) fun _ _ => id
  exact ⟨by rw [h.1], h.2⟩

theorem update_beside (name : String) (block offset : Nat) (data : Bytes) (t : Tier) :
    Ends (update name block offset data) t
      (fun _ t' => t'.journal = t.journal.push (.update name block offset data) ∧ t'.pools = t.pools)
      (fun _ t' => t'.journal = t.journal.push (.update name block offset data) ∧
        t'.pools = t.pools) := by
  simp only [update, ends_bind, ends_note]
  exact onFiles_beside _ _ _

-- A buffer is taken from its pool and from nothing else.
theorem borrow_beside (pool size : Nat) (t : Tier) :
    Ends (borrow pool size) t
      (fun buffer t' => t'.journal = t.journal ∧ ∃ p, t.pools[pool]? = some p ∧
        (p.take size).1 = buffer ∧ t'.pools = t.pools.setIfInBounds pool (p.take size).2)
      (fun _ t' => t' = t) := by
  simp only [Ends, borrow]
  cases t.pools[pool]? with
  | none => rfl
  | some p => exact ⟨rfl, p, rfl, rfl, rfl⟩

end Tier

-- What an action on the tier does, the store aside.
theorem Site.ends_beside {α β : Type} {x : Act Tier α} {s : Site β} {done : α → Tier → Prop}
    {failed : Failure → Tier → Prop} (h : Ends x s.tier done failed) :
    Ends (Site.onTier x) s (fun a s' => done a s'.tier ∧ s'.store = s.store)
      (fun e s' => failed e s'.tier ∧ s'.store = s.store) :=
  Site.ends_onTier.mpr (h.imp (fun _ _ ht => ⟨ht, rfl⟩) fun _ _ ht => ⟨ht, rfl⟩)

namespace CacheLabel

variable {β : Type} {label : CacheLabel} {seek : Nat → Act (Site β) Unit}
  {read : Nat → Nat → Site β → Delivery × Site β} {span : Grid.Span} {s s' : Site β}

-- How much of the file lies in a block.
def room (label : CacheLabel) (block : Nat) : Nat :=
  min Grid.blockSize (label.length - Grid.start block)

-- A buffer goes back to the pool of the label.
abbrev back (label : CacheLabel) (buffer : Bytes) (s : Site β) : Site β :=
  { s with tier := { s.tier with pools := s.tier.pools.modify label.pool (·.put buffer) } }

-- What comes after the read of a block, whose buffer is in use: the block is published or, if the read
-- has failed, given up, and the buffer goes back either way.
structure Settles (label : CacheLabel) (span : Grid.Span) (scratch : Bytes) (r : Delivery × Site β)
    (done : Bytes → Site β → Prop) (failed : Failure → Site β → Prop) : Prop where
  size : scratch.size = Grid.blockSize
  full : r.1.failure = none → r.1.bytes.size = label.room span.block
  refused : ∀ e ∈ r.1.failure, failed e (label.back (r.1.into scratch) r.2)
  filled : r.1.failure = none →
    Ends (Site.onTier (Tier.update label.cacheName span.block 0 (Bytes.padTo r.1.bytes Grid.blockSize)))
      r.2 (fun _ s' => done (Bytes.slice (Bytes.padTo r.1.bytes Grid.blockSize) span.offset span.length)
        (label.back (Bytes.padTo r.1.bytes Grid.blockSize) s')) failed

-- What the buffer held has no part in what is published.
theorem loadBlock_steps {done : Bytes → Site β → Prop} {failed : Failure → Site β → Prop}
    (hfits : span.offset + span.length ≤ Grid.blockSize)
    (hstart : Grid.start span.block ≤ label.length)
    (h : Ends (seek (Grid.start span.block)) s (fun _ s₁ =>
      Ends (Site.onTier (Tier.borrow label.pool Grid.blockSize)) s₁ (fun scratch s₂ =>
        label.Settles span scratch (read (Grid.start span.block) (label.room span.block) s₂) done failed)
        failed) failed) :
    Ends (label.loadBlock seek read span) s done failed := by
  have hle : label.room span.block ≤ Grid.blockSize := Nat.min_le_left _ _
  have hroom : min Grid.blockSize (label.length - Grid.start span.block) = label.room span.block := rfl
  simp only [loadBlock, if_neg (Nat.not_lt.mpr hstart), hroom, ends_bind]
  refine h.imp (fun _ s₁ hborrow => ?_) fun _ _ => id
  refine hborrow.imp (fun scratch s₂ hread => ?_) fun _ _ => id
  obtain ⟨hscratch, hfull, hrefused, hfilled⟩ := hread
  simp only [part_of_le (Nat.zero_le _) (hscratch ▸ hle), ends_lift_ok, ends_modifyGet]
  generalize read (Grid.start span.block) (label.room span.block) s₂ = r at hfull hrefused hfilled ⊢
  obtain ⟨d, s₃⟩ := r
  cases hfailure : d.failure with
  | some e =>
    simp only [ends_bind, Site.ends_onTier, Tier.ends_giveBack, ends_throw]
    exact hrefused e hfailure
  | none =>
    have hsize : d.bytes.size = label.room span.block := hfull hfailure
    have hblock : (Bytes.padTo d.bytes Grid.blockSize).size = Grid.blockSize := by
      rw [Bytes.size_padTo]
      omega
    have hfilled := hfilled hfailure
    dsimp only
    rw [block_eq hle hscratch hsize]
    generalize Bytes.padTo d.bytes Grid.blockSize = block at hblock hfilled ⊢
    have hpart := part_of_le (Nat.le_add_right span.offset span.length)
      (show span.offset + span.length ≤ block.size by omega)
    simp only [ends_bind, hpart, ends_lift_ok, Nat.add_sub_cancel_left]
    exact hfilled

-- The single calls that a layer makes to the tier keep to an order of states.
structure Orderly (label : CacheLabel) (g : Regime (Site β)) : Prop where
  fetch : ∀ block offset len, Moves g (Site.onTier (Tier.fetch label.cacheName block offset len))
  update : ∀ block offset data, Moves g (Site.onTier (Tier.update label.cacheName block offset data))
  borrow : ∀ size, Moves g (Site.onTier (Tier.borrow label.pool size))
  giveBack : ∀ buffer, Moves g (Site.onTier (Tier.giveBack label.pool buffer))

section Moving

variable {g : Regime (Site β)} (h : label.Orderly g) (hseek : ∀ position, Moves g (seek position))
  (hread : ∀ position len s, g.moves s (read position len s).2)

include h hseek hread

theorem moves_loadBlock : Moves g (label.loadBlock seek read span) := by
  unfold loadBlock
  by_cases hstart : label.length < Grid.start span.block
  · simp only [if_pos hstart]
    exact fun s => g.refl s
  simp only [if_neg hstart]
  refine (hseek _).bind fun _ => (h.borrow _).bind fun scratch => Moves.lift.bind fun _ => ?_
  refine .bind (fun s => hread _ _ s) fun d => ?_
  cases d.failure with
  | some e => exact (h.giveBack _).bind fun _ s => g.refl s
  | none =>
    exact Moves.lift.bind fun _ => (h.update _ _ _).bind fun _ => (h.giveBack _).bind fun _ => .pure

theorem moves_readSpan : Moves g (label.readSpan seek read span) := by
  refine (h.fetch _ _ _).bind fun found => ?_
  cases found with
  | some bytes => exact .pure
  | none => exact moves_loadBlock h hseek hread

theorem fill_moves (spans : List Grid.Span) (got : Bytes) (s : Site β) :
    g.moves s (fill (label.readSpan seek read) spans got s).2 := by
  induction spans generalizing got s with
  | nil => exact g.refl s
  | cons span rest ih =>
    have hends : Moves g (label.readSpan seek read span) := moves_readSpan h hseek hread
    rw [fill]
    cases hrun : label.readSpan seek read span s with
    | error e s' => exact (hends s).error hrun
    | ok bytes s' => exact g.trans ((hends s).ok hrun) (ih (got ++ bytes) s')

end Moving

end CacheLabel

namespace Source

variable {ι β : Type} {g : Regime (Site β)}

-- The layers of an input, the one on top first.
def labels : Source ι → List CacheLabel
  | plain _ => []
  | cached below label => label :: below.labels

section Moving

variable (feed : Feed ι β) (hstore : ∀ s store, g.moves s { s with store })

include hstore

theorem moves_seek (source : Source ι) (position : Nat) : Moves g (source.seek feed position) := by
  cases source with
  | plain input => exact fun s => Site.ends_onStore.mpr (.always (fun _ _ => hstore s _) fun _ _ => hstore s _)
  | cached below label => exact .pure

-- By induction on the layers: each adds calls of its own to those of the one below.
theorem read_moves {source : Source ι} (h : ∀ label ∈ source.labels, label.Orderly g)
    (position len : Nat) (s : Site β) : g.moves s (source.read feed position len s).2 := by
  induction source generalizing position len s with
  | plain input => exact hstore s _
  | cached below label ih =>
    obtain ⟨hlabel, hbelow⟩ := List.forall_mem_cons.mp h
    rw [Source.read, CacheLabel.read]
    split
    · exact g.refl s
    · exact CacheLabel.fill_moves hlabel (moves_seek feed hstore below) (ih hbelow) _ _ s

end Moving

end Source

-- The name that a call to the cache is about.
def CacheCall.name : CacheCall → String
  | .update name _ _ _ | .fetch name _ _ _ _ | .delete name | .rename name _ => name

namespace Site

variable {β : Type} {own : CacheCall → Prop} {s s' s'' : Site β}

-- Calls have been added to the journal, and these only.
def Grown (own : CacheCall → Prop) (s s' : Site β) : Prop :=
  ∃ calls, s'.tier.journal.toList = s.tier.journal.toList ++ calls ∧ ∀ call ∈ calls, own call

theorem Grown.same (h : s'.tier.journal = s.tier.journal) : s.Grown own s' :=
  ⟨[], by rw [h, List.append_nil], List.forall_mem_nil _⟩

theorem Grown.push {call : CacheCall} (h : s'.tier.journal = s.tier.journal.push call)
    (hown : own call) : s.Grown own s' :=
  ⟨[call], by rw [h, Array.toList_push], by simpa using hown⟩

theorem Grown.trans (h : s.Grown own s') (h' : s'.Grown own s'') : s.Grown own s'' := by
  obtain ⟨calls, hcalls, hown⟩ := h
  obtain ⟨calls', hcalls', hown'⟩ := h'
  refine ⟨calls ++ calls', by rw [hcalls', hcalls, List.append_assoc], fun call hcall => ?_⟩
  exact (List.mem_append.mp hcall).elim (hown call) (hown' call)

-- The order of states in which the journal grows by calls of the given kinds.
def growing (own : CacheCall → Prop) : Regime (Site β) := .along (Grown own) (fun _ => .same rfl) .trans

end Site

theorem CacheLabel.orderly_growing {β : Type} {own : CacheCall → Prop} {label : CacheLabel}
    (hown : ∀ call, call.name = label.cacheName → own call) :
    label.Orderly (Site.growing own : Regime (Site β)) where
  fetch _ _ _ _ := Site.ends_onTier.mpr ((Tier.fetch_beside _ _ _ _ _).imp
    (fun _ _ h => .push h.1 (hown _ rfl)) fun _ _ h => .same h.1)
  update _ _ _ _ := Site.ends_onTier.mpr ((Tier.update_beside _ _ _ _ _).imp
    (fun _ _ h => .push h.1 (hown _ rfl)) fun _ _ h => .push h.1 (hown _ rfl))
  borrow _ _ := Site.ends_onTier.mpr ((Tier.borrow_beside _ _ _).imp
    (fun _ _ h => .same h.1) fun _ _ h => h ▸ .same rfl)
  giveBack _ _ := .same rfl

namespace Source

variable {ι β : Type} (feed : Feed ι β)

-- The calls that the layers of an input make.
def Calls (source : Source ι) (call : CacheCall) : Prop := call.name ∈ source.labels.map (·.cacheName)

theorem read_grown (source : Source ι) (position len : Nat) (s : Site β) :
    s.Grown source.Calls (source.read feed position len s).2 := by
  have hlabels : ∀ label ∈ source.labels, label.Orderly (Site.growing source.Calls : Regime (Site β)) :=
    fun label hlabel => CacheLabel.orderly_growing fun _ hname =>
      List.mem_map.mpr ⟨label, hlabel, hname.symm⟩
  exact read_moves feed (fun _ _ => Site.Grown.same rfl) hlabels position len s

theorem seek_grows (source : Source ι) (position : Nat) :
    Moves (Site.growing source.Calls) (source.seek feed position) :=
  moves_seek feed (fun _ _ => Site.Grown.same rfl) source position

end Source

end Blockwise
