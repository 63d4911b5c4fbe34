import Blockwise.Proofs.Stream.Destination
import Blockwise.Proofs.Stream.Steps
import Blockwise.Proofs.Stream.Views

namespace Blockwise

open Act

theorem Act.ends_run {ε σ α : Type} (x : EStateM ε σ α) (s : σ) :
    Ends x s (fun a s' => x s = .ok a s') (fun e s' => x s = .error e s') := by
  unfold Ends
  cases x s with
  | ok a s' => rfl
  | error e s' => rfl

-- A delivery fills the start of the buffer and leaves the rest as it was.
theorem Delivery.into_eq {d : Delivery} {buffer : Bytes} (h : d.bytes.size ≤ buffer.size) :
    d.into buffer = d.bytes ++ Bytes.slice buffer d.bytes.size (buffer.size - d.bytes.size) := by
  refine Bytes.ext_getElem? fun i => ?_
  rw [Delivery.into, Bytes.getElem?_overlay (by omega), Bytes.getElem?_append, Bytes.getElem?_slice]
  by_cases hi : i < d.bytes.size
  · rw [if_pos ⟨Nat.zero_le _, by omega⟩, if_pos hi, Nat.sub_zero]
  · rw [if_neg (by omega), if_neg hi]
    by_cases hlt : i < buffer.size
    · rw [if_pos (by omega)]
      congr 1
      omega
    · rw [if_neg (by omega), getElem?_neg buffer i hlt]

theorem Delivery.into_nothing (failure : Option Failure) (buffer : Bytes) :
    Delivery.into ⟨ByteArray.empty, failure⟩ buffer = buffer := by
  rw [Delivery.into_eq (Nat.zero_le _), ByteArray.empty_append]
  exact Bytes.slice_whole buffer

namespace ScratchPool

variable {p : ScratchPool} {buffer : Bytes}

-- No more block buffers are kept than there is room for, which is room for one at least.
structure Roomy (p : ScratchPool) : Prop where
  depth_pos : 0 < p.depth
  length_le : p.block.length ≤ p.depth

theorem roomy_ofDepth (depth : Nat) : (ofDepth depth).Roomy :=
  ⟨Nat.lt_of_lt_of_le Nat.one_pos (Nat.le_max_right _ _), Nat.zero_le _⟩

theorem Roomy.take (h : p.Roomy) (size : Nat) : (p.take size).2.Roomy := by
  have hlength := h.length_le
  unfold ScratchPool.take
  split
  · cases p.small with
    | nil => exact ⟨h.depth_pos, hlength⟩
    | cons b rest => exact ⟨h.depth_pos, hlength⟩
  split
  · cases hblock : p.block with
    | nil => exact ⟨h.depth_pos, hlength⟩
    | cons b rest =>
      rw [hblock, List.length_cons] at hlength
      exact ⟨h.depth_pos, Nat.le_of_succ_le hlength⟩
  · exact ⟨h.depth_pos, hlength⟩

theorem Roomy.put (h : p.Roomy) (buffer : Bytes) : (p.put buffer).Roomy := by
  have hlength := h.length_le
  unfold ScratchPool.put
  split
  · split
    · exact ⟨h.depth_pos, hlength⟩
    · exact h
  split
  · next hsize =>
    split
    · next hroom =>
      refine ⟨h.depth_pos, ?_⟩
      rw [List.length_append]
      exact hroom
    · exact h
  · exact h

-- Where a block buffer was taken, there is room for one.
theorem Roomy.room (h : p.Roomy) : (p.take blockSize).2.block.length < (p.take blockSize).2.depth := by
  have hne : blockSize ≠ smallSize := by decide
  have hlength := h.length_le
  unfold ScratchPool.take
  rw [if_neg hne, if_pos rfl]
  cases hblock : p.block with
  | nil =>
    show p.block.length < p.depth
    rw [hblock]
    exact h.depth_pos
  | cons b rest =>
    rw [hblock, List.length_cons] at hlength
    exact hlength

theorem put_of_room (hroom : p.block.length < p.depth) (hsize : buffer.size = blockSize) :
    p.put buffer = { p with block := p.block ++ [buffer] } := by
  have hne : blockSize ≠ smallSize := by decide
  simp [ScratchPool.put, hsize, hne, hroom]

-- A buffer for which there is no room is given up.
theorem put_of_full (hfull : ¬p.block.length < p.depth) (hsize : buffer.size = blockSize) :
    p.put buffer = p := by
  have hne : blockSize ≠ smallSize := by decide
  simp [ScratchPool.put, hsize, hne, hfull]

end ScratchPool

namespace Site

variable {β : Type}

-- The order of states in which all pools stay roomy.
def roomy : Regime (Site β) :=
  .along (fun s s' => (∀ p ∈ s.tier.pools, p.Roomy) → ∀ p ∈ s'.tier.pools, p.Roomy) (fun _ => id)
    fun h h' => h' ∘ h

-- The order of states in which one pool stays as it is.
def untouched (pool : Nat) : Regime (Site β) :=
  .along (fun s s' => s'.tier.pools[pool]? = s.tier.pools[pool]?) (fun _ => rfl) fun h h' => h'.trans h

end Site

namespace CacheLabel

variable {ι β : Type} {label : CacheLabel}

theorem orderly_roomy (label : CacheLabel) : label.Orderly (Site.roomy : Regime (Site β)) where
  fetch _ _ _ _ := Site.ends_onTier.mpr ((Tier.fetch_beside _ _ _ _ _).imp
    (fun _ _ h hp => h.2 ▸ hp) fun _ _ h hp => h.2 ▸ hp)
  update _ _ _ _ := Site.ends_onTier.mpr ((Tier.update_beside _ _ _ _ _).imp
    (fun _ _ h hp => h.2 ▸ hp) fun _ _ h hp => h.2 ▸ hp)
  borrow size s := by
    refine Site.ends_onTier.mpr ((Tier.borrow_beside _ _ _).imp ?_ fun _ _ h hp => h ▸ hp)
    rintro _ t ⟨_, q, hq, _, hpools⟩ hp p hmem
    have hmem : p ∈ t.pools := hmem
    rw [hpools] at hmem
    rcases Array.mem_or_eq_of_mem_setIfInBounds hmem with hmem | rfl
    · exact hp p hmem
    · exact (hp q (Array.mem_of_getElem? hq)).take size
  giveBack buffer s := by
    intro hp p hmem
    obtain ⟨i, hi, rfl⟩ := Array.mem_iff_getElem.mp hmem
    have hlt : i < s.tier.pools.size := by simpa using hi
    rw [Array.getElem_modify]
    split
    · exact (hp _ (Array.getElem_mem hlt)).put buffer
    · exact hp _ (Array.getElem_mem hlt)

theorem orderly_untouched {pool : Nat} (hne : label.pool ≠ pool) :
    label.Orderly (Site.untouched pool : Regime (Site β)) where
  fetch _ _ _ _ := Site.ends_onTier.mpr ((Tier.fetch_beside _ _ _ _ _).imp
    (fun _ _ h => congrArg (·[pool]?) h.2) fun _ _ h => congrArg (·[pool]?) h.2)
  update _ _ _ _ := Site.ends_onTier.mpr ((Tier.update_beside _ _ _ _ _).imp
    (fun _ _ h => congrArg (·[pool]?) h.2) fun _ _ h => congrArg (·[pool]?) h.2)
  borrow _ _ := by
    refine Site.ends_onTier.mpr ((Tier.borrow_beside _ _ _).imp ?_ fun _ _ h => h ▸ rfl)
    rintro _ t ⟨_, q, _, _, hpools⟩
    exact (congrArg (·[pool]?) hpools).trans (Array.getElem?_setIfInBounds_ne hne)
  giveBack buffer s := by
    show (s.tier.pools.modify label.pool (·.put buffer))[pool]? = _
    rw [Array.getElem?_modify, if_neg hne]

end CacheLabel

namespace Source

variable {ι β : Type} (feed : Feed ι β)

theorem seek_roomy (source : Source ι) (position : Nat) : Moves Site.roomy (source.seek feed position) :=
  moves_seek feed (fun _ _ => id) source position

theorem read_roomy (source : Source ι) (position len : Nat) (s : Site β) :
    Site.roomy.moves s (source.read feed position len s).2 :=
  read_moves feed (fun _ _ => id) (fun label _ => CacheLabel.orderly_roomy label) position len s

theorem read_untouched {source : Source ι} {pool : Nat} (h : pool ∉ source.labels.map (·.pool))
    (position len : Nat) (s : Site β) :
    (source.read feed position len s).2.tier.pools[pool]? = s.tier.pools[pool]? := by
  have hlabels : ∀ label ∈ source.labels, label.Orderly (Site.untouched pool : Regime (Site β)) :=
    fun label hlabel => CacheLabel.orderly_untouched fun hsame =>
      h (List.mem_map.mpr ⟨label, hlabel, hsame⟩)
  exact read_moves (g := Site.untouched pool) feed (fun _ _ => rfl) hlabels position len s

end Source

namespace CacheLabel

variable {ι β : Type} {feed : Feed ι β} {below : Source ι} {label : CacheLabel} {name : String}
  {file : Bytes} {pool : Nat} {claims : String → Bytes → Prop} {states : β → Prop}
  {span : Grid.Span} {s s' : Site β} {e : Failure}

-- The calls that the label itself makes for a file: fetches, and updates that publish a whole block, filled
-- up with zeros.
def Asks (label : CacheLabel) (file : Bytes) : CacheCall → Prop
  | .fetch name _ _ _ _ => name = label.cacheName
  | .update name block offset data => name = label.cacheName ∧ offset = 0 ∧
      data = Bytes.padTo (Bytes.slice file (Grid.start block) (label.room block)) Grid.blockSize
  | .delete _ | .rename _ _ => False

-- The calls that a read makes, those of the layers below included.
def Makes (label : CacheLabel) (below : Source ι) (file : Bytes) (call : CacheCall) : Prop :=
  below.Calls call ∨ label.Asks file call

theorem makes_of_below (label : CacheLabel) (file : Bytes) (h : s.Grown below.Calls s') :
    s.Grown (label.Makes below file) s' :=
  h.imp fun _ hcalls => ⟨hcalls.1, fun call hcall => .inl (hcalls.2 call hcall)⟩

-- The block buffer is back. Only layers below that draw on the same pool can have filled the pool meanwhile,
-- so that it was given up.
structure Returned (label : CacheLabel) (below : Source ι) (buffer : Bytes) (s s' : Site β) : Prop where
  size : buffer.size = Grid.blockSize
  back : s' = label.back buffer s
  kept : ∃ p, s'.tier.pools[label.pool]? = some p ∧
    (buffer ∈ p.block ∨ label.pool ∈ below.labels.map (·.pool) ∧ p.block.length = p.depth)

-- How a block was not read: the source could not be positioned, before a buffer was taken, or its read
-- failed, and the buffer that was taken for it is back.
inductive Broke (feed : Feed ι β) (below : Source ι) (label : CacheLabel) (file : Bytes) (block : Nat)
    (e : Failure) (s s' : Site β) : Prop where
  | seek (s₁ : Site β) (hreached : s.Grown (label.Makes below file) s₁)
      (hfailed : below.seek feed (Grid.start block) s₁ = .error e s')
  | read (s₁ s₂ : Site β) (buffer : Bytes) (hreached : s.Grown (label.Makes below file) s₁)
      (htaken : Site.onTier (Tier.borrow label.pool Grid.blockSize) s₁ = .ok buffer s₂)
      (hfailed : (below.read feed (Grid.start block) (label.room block) s₂).1.failure = some e)
      (hreturned : label.Returned below
        ((below.read feed (Grid.start block) (label.room block) s₂).1.into buffer)
        (below.read feed (Grid.start block) (label.room block) s₂).2 s')

theorem Broke.after {s₀ : Site β} {block : Nat} (hbefore : s₀.Grown (label.Makes below file) s)
    (h : label.Broke feed below file block e s s') : label.Broke feed below file block e s₀ s' := by
  cases h with
  | seek s₁ hreached hfailed => exact .seek s₁ (hbefore.trans hreached) hfailed
  | read s₁ s₂ buffer hreached htaken hfailed hreturned =>
    exact .read s₁ s₂ buffer (hbefore.trans hreached) htaken hfailed hreturned

-- What holds before and after each block.
structure Steadfast (pool : Nat) (claims : String → Bytes → Prop) (states : β → Prop) (s : Site β) :
    Prop where
  steady : Steady pool claims states s
  roomy : ∀ p ∈ s.tier.pools, p.Roomy

-- A buffer that comes back finds room, unless others have come to the pool since it was taken.
theorem returned_of_taken {s₁ s₂ s₃ : Site β} {buffer : Bytes} {p : ScratchPool}
    (hp : s₁.tier.pools[label.pool]? = some p) (hroomy : p.Roomy)
    (htaken : s₂.tier.pools = s₁.tier.pools.setIfInBounds label.pool (p.take Grid.blockSize).2)
    (hread : label.pool ∉ below.labels.map (·.pool) →
      s₃.tier.pools[label.pool]? = s₂.tier.pools[label.pool]?)
    (hthere : label.pool < s₃.tier.pools.size) (hroomy₃ : ∀ q ∈ s₃.tier.pools, q.Roomy)
    (hsize : buffer.size = Grid.blockSize) :
    label.Returned below buffer s₃ (label.back buffer s₃) := by
  have hq := Array.getElem?_eq_getElem hthere
  have hput : (label.back buffer s₃).tier.pools[label.pool]? =
      some (s₃.tier.pools[label.pool].put buffer) := by
    show (s₃.tier.pools.modify label.pool (·.put buffer))[label.pool]? = _
    rw [Array.getElem?_modify, if_pos rfl, hq, Option.map_some]
  refine ⟨hsize, rfl, _, hput, ?_⟩
  generalize s₃.tier.pools[label.pool] = q at hq
  by_cases hroom : q.block.length < q.depth
  · rw [ScratchPool.put_of_room hroom hsize]
    exact .inl (List.mem_append_right _ (List.mem_singleton_self buffer))
  · have hfull : q.block.length = q.depth :=
      Nat.le_antisymm (hroomy₃ q (Array.mem_of_getElem? hq)).length_le (Nat.not_lt.mp hroom)
    refine .inr ⟨?_, by rw [ScratchPool.put_of_full hroom hsize, hfull]⟩
    by_contra hnone
    have hlt := (Array.getElem?_eq_some_iff.mp hp).1
    have hsame := hread hnone
    rw [htaken, Array.getElem?_setIfInBounds_self_of_lt hlt, hq, Option.some.injEq] at hsame
    exact hroom (hsame ▸ hroomy.room)

-- A whole block of the file, as it is published.
theorem whole_block (hlength : label.length = file.size) {block : Nat}
    (hfile : Grid.start block + label.room block ≤ file.size) :
    let data := Bytes.padTo (Bytes.slice file (Grid.start block) (label.room block)) Grid.blockSize
    data.size = Grid.blockSize ∧ ∀ i < Grid.blockSize, ∀ y, file[Grid.start block + i]? = some y →
      data[i]? = some y := by
  have hle : label.room block ≤ Grid.blockSize := Nat.min_le_left _ _
  have hsize : (Bytes.slice file (Grid.start block) (label.room block)).size = label.room block :=
    Bytes.size_slice_of_le hfile
  refine ⟨?_, fun i hi y hy => ?_⟩
  · rw [Bytes.size_padTo, hsize]
    omega
  · have hlt : Grid.start block + i < file.size := (getElem?_eq_some_iff.mp hy).1
    have hin : i < label.room block := by
      rw [room, hlength]
      omega
    rw [Bytes.getElem?_padTo, hsize, if_pos hin, Bytes.getElem?_slice, if_pos hin, hy]

section Failing

variable (hserves : (Source.feed feed).Serves below name file (Steady pool claims states) False)
  (hsize : ∀ position len s, Steady pool claims states s →
    (below.read feed position len s).1.bytes.size ≤ len)
  (hnames : label.Names pool file claims)

include hserves hsize hnames

theorem loadBlock_broken (hs : Steadfast pool claims states s) (hspan : Fits span file) :
    Ends (label.loadBlock (below.seek feed) (below.read feed) span) s
      (fun _ s' => s.Grown (label.Makes below file) s')
      (fun e s' => s.Grown (label.Makes below file) s' ∧
        label.Broke feed below file span.block e s s') := by
  obtain ⟨hoffset, hinside⟩ := hspan
  have hlength := hnames.length
  have hfile : Grid.start span.block + label.room span.block ≤ file.size := by
    have hroom : label.room span.block ≤ label.length - Grid.start span.block := Nat.min_le_right _ _
    omega
  have hle : label.room span.block ≤ Grid.blockSize := Nat.min_le_left _ _
  refine loadBlock_steps hoffset (by omega) ?_
  refine ((((hserves.seek (Grid.start span.block) s hs.steady).and
    (below.seek_grows feed (Grid.start span.block) s)).and
    (below.seek_roomy feed (Grid.start span.block) s)).and (ends_run _ _)).imp ?_ ?_
  · rintro _ s₁ ⟨⟨⟨hs₁, hgrown₁⟩, hroomy₁⟩, _⟩
    have hborrowed := (Tier.borrow_ends hs₁.honest hnames.pool Grid.blockSize).and
      (Tier.borrow_beside label.pool Grid.blockSize s₁.tier)
    refine ((Site.ends_beside hborrowed).and (ends_run _ _)).imp ?_ fun _ _ h => h.1.1.1.elim
    rintro scratch s₂ ⟨⟨⟨⟨hhonest, hscratch⟩, hjournal₂, p, hp, _, hpools⟩, hstore₂⟩, htaken⟩
    have hs₂ : Steady pool claims states s₂ := ⟨hhonest, hstore₂ ▸ hs₁.states⟩
    have hgrown := hgrown₁.trans (.trans (.same hjournal₂)
      (below.read_grown feed (Grid.start span.block) (label.room span.block) s₂))
    have hroomy₃ := below.read_roomy feed (Grid.start span.block) (label.room span.block) s₂
    have hkept : label.pool ∉ below.labels.map (·.pool) → _ := fun hnone =>
      Source.read_untouched feed hnone (Grid.start span.block) (label.room span.block) s₂
    have hlen := hsize (Grid.start span.block) (label.room span.block) s₂ hs₂
    obtain ⟨hs₃, hdelivered⟩ := hserves.read (Grid.start span.block) (label.room span.block) s₂ hs₂
    rw [Delivery.ofFile_of_le name hfile] at hdelivered
    change (below.read feed (Grid.start span.block) (label.room span.block) s₂).1.failure = none ∨ False →
      (below.read feed (Grid.start span.block) (label.room span.block) s₂).1 = _ at hdelivered
    refine ⟨hscratch, fun hnone => ?_, fun e he => ⟨makes_of_below label file hgrown, .read s₁ s₂ scratch (makes_of_below label file hgrown₁) htaken he ?_⟩,
      fun hnone => ?_⟩
    · rw [hdelivered (.inl hnone)]
      exact Bytes.size_slice_of_le hfile
    · have hroomy₂ := ((orderly_roomy label).borrow Grid.blockSize s₁).ok htaken (hroomy₁ hs.roomy)
      refine returned_of_taken hp (hroomy₁ hs.roomy p (Array.mem_of_getElem? hp)) hpools hkept
        (Nat.lt_of_le_of_lt hnames.pool hs₃.honest.stocked.pool) (hroomy₃ hroomy₂) ?_
      rw [Delivery.into, Bytes.size_overlay (by omega), hscratch]
    · obtain ⟨hwhole, hbytes⟩ := whole_block hlength hfile
      rw [hdelivered (.inl hnone)]
      refine ((publish_ends hnames hs₃ hwhole hbytes).and
        (Site.ends_beside (Tier.update_beside _ _ _ _ _))).imp ?_ fun _ _ h => h.1.elim
      rintro _ s₄ ⟨_, ⟨hjournal₄, _⟩, _⟩
      exact (makes_of_below label file hgrown).trans (.push hjournal₄ (.inr ⟨rfl, rfl, rfl⟩))
  · rintro e s₁ ⟨⟨⟨_, hgrown⟩, _⟩, hrun⟩
    exact ⟨makes_of_below label file hgrown, .seek s (.same rfl) hrun⟩

theorem readSpan_broken (hclaimed : claims label.cacheName file) (hs : Steadfast pool claims states s)
    (hspan : Fits span file) :
    Ends (label.readSpan (below.seek feed) (below.read feed) span) s
      (fun bytes s' => Steadfast pool claims states s' ∧
        s.Grown (label.Makes below file) s' ∧
        bytes = Bytes.slice file (Grid.start span.block + span.offset) span.length)
      (fun e s' => Steadfast pool claims states s' ∧
        s.Grown (label.Makes below file) s' ∧
        label.Broke feed below file span.block e s s') := by
  have hsteady := readSpan_ends hserves hnames hs.steady hspan
  have hroomy : Ends (label.readSpan (below.seek feed) (below.read feed) span) s
      (fun _ s' => Site.roomy.moves s s') (fun _ s' => Site.roomy.moves s s') :=
    moves_readSpan (orderly_roomy label) (below.seek_roomy feed) (below.read_roomy feed) s
  have hbroken : Ends (label.readSpan (below.seek feed) (below.read feed) span) s
      (fun _ s' => s.Grown (label.Makes below file) s')
      (fun e s' => s.Grown (label.Makes below file) s' ∧
        label.Broke feed below file span.block e s s') := by
    simp only [readSpan, ends_bind]
    have hfetch := (Tier.fetch_ends hs.steady.honest label.cacheName span.block span.offset
      span.length).and (Tier.fetch_beside label.cacheName span.block span.offset span.length s.tier)
    refine (Site.ends_beside hfetch).imp ?_ fun _ _ hfailed => ?_
    · rintro found s₁ ⟨⟨⟨hhonest, _⟩, hjournal, hpools⟩, hstore⟩
      have hgrown : s.Grown (label.Makes below file) s₁ :=
        .push hjournal (.inr rfl)
      cases found with
      | some bytes => exact hgrown
      | none =>
        have hs₁ : Steadfast pool claims states s₁ :=
          ⟨⟨hhonest, hstore ▸ hs.steady.states⟩, hpools ▸ hs.roomy⟩
        refine (loadBlock_broken hserves hsize hnames hs₁ hspan).imp ?_ ?_
        · exact fun _ _ h => hgrown.trans h
        · exact fun _ _ h => ⟨hgrown.trans h.1, h.2.after hgrown⟩
    · obtain ⟨⟨⟨_, hlong⟩, _⟩, _⟩ := hfailed
      exact absurd hspan.offset (Nat.not_le.mpr hlong)
  refine ((hsteady.and hroomy).and hbroken).imp ?_ ?_
  · rintro bytes s' ⟨⟨⟨hs', hbytes⟩, hpools⟩, hgrown⟩
    exact ⟨⟨hs', hpools hs.roomy⟩, hgrown, hbytes hclaimed⟩
  · rintro e s' ⟨⟨⟨hs', _⟩, hpools⟩, hgrown, hbroke⟩
    exact ⟨⟨hs', hpools hs.roomy⟩, hgrown, hbroke⟩

-- By induction on the spans: those before the failed block are delivered, and they end where its part of the
-- range begins.
theorem fill_broken (hclaimed : claims label.cacheName file) {got bytes : Bytes} (position len : Nat)
    (hs : Steadfast pool claims states s) (hin : position + len ≤ file.size)
    (hrun : fill (label.readSpan (below.seek feed) (below.read feed)) (Grid.spans position len) got s =
      (⟨bytes, some e⟩, s')) :
    Steadfast pool claims states s' ∧
      s.Grown (label.Makes below file) s' ∧
      ∃ block ∈ Grid.blocks position len, label.Broke feed below file block e s s' ∧
        bytes = got ++ Bytes.slice file position (Grid.start block - position) := by
  induction position, len using Grid.spans.induct generalizing got s with
  | case1 position =>
    rw [Grid.spans, if_pos rfl] at hrun
    cases hrun
  | case2 position len hlen n =>
    rename_i ih
    have hn : min len (Grid.blockSize - Grid.offset position) = n := rfl
    rw [Grid.spans, if_neg hlen, fill] at hrun
    simp only [hn] at hrun
    clear_value n
    have hoffset := Grid.offset_lt position
    have hstart := Grid.start_add_offset position
    have hfits : Fits ⟨Grid.block position, Grid.offset position, n⟩ file := by
      refine ⟨?_, ?_⟩
      · show Grid.offset position + n ≤ Grid.blockSize
        omega
      · show Grid.start (Grid.block position) + Grid.offset position + n ≤ file.size
        omega
    have hends := readSpan_broken hserves hsize hnames hclaimed hs hfits
    have hnext := Grid.start_succ (Grid.block position)
    cases hpart : label.readSpan (below.seek feed) (below.read feed)
        ⟨Grid.block position, Grid.offset position, n⟩ s with
    | error e₁ s₁ =>
      rw [hpart] at hrun
      cases hrun
      obtain ⟨hs', hgrown, hbroke⟩ := hends.error hpart
      have hmet : Grid.block position ∈ Grid.blocks position len :=
        Grid.mem_blocks_iff.mpr ⟨hlen, by omega, by omega⟩
      have hnothing : Grid.start (Grid.block position) - position = 0 := by omega
      refine ⟨hs', hgrown, _, hmet, hbroke, ?_⟩
      rw [hnothing, Bytes.slice_zero, ByteArray.append_empty]
    | ok part s₁ =>
      rw [hpart] at hrun
      obtain ⟨hs₁, hgrown₁, rfl⟩ := hends.ok hpart
      obtain ⟨hs', hgrown, block, hmet, hbroke, rfl⟩ := ih hs₁ (by omega) hrun
      obtain ⟨hmore, hbefore, hafter⟩ := Grid.mem_blocks_iff.mp hmet
      have hlater : position + n ≤ Grid.start block := by
        simp only [Grid.start, Grid.blockSize] at hnext hstart hafter hoffset hn ⊢
        omega
      have hlast := Grid.start_succ block
      refine ⟨hs', hgrown₁.trans hgrown, block, ?_, hbroke.after hgrown₁, ?_⟩
      · exact Grid.mem_blocks_iff.mpr ⟨hlen, by omega, by omega⟩
      · have hrest : Grid.start block - (position + n) = Grid.start block - position - n := by omega
        show got ++ Bytes.slice file (Grid.start (Grid.block position) + Grid.offset position) n ++ _ = _
        rw [hstart, ByteArray.append_assoc, hrest, Bytes.slice_append_slice (by omega) (by omega)]

end Failing

end CacheLabel

namespace Source

open CacheLabel

variable {ι β : Type} {feed : Feed ι β} {below : Source ι} {label : CacheLabel} {name : String}
  {file : Bytes} {pool : Nat} {claims : String → Bytes → Prop} {states calm : β → Prop}
  {s s' : Site β} {e : Failure}

-- A read within the file that fails does no harm, whichever call of the source below fails, and on whatever
-- block. It has filled the buffer with the file up to the part of that block. Once the source is calm, the
-- read can be repeated where it stood.
theorem failed_read_harmless
    (hserves : (Source.feed feed).Serves below name file (Steady pool claims states) False)
    (hsize : ∀ position len s, Steady pool claims states s →
      (below.read feed position len s).1.bytes.size ≤ len)
    (hcalm : (Source.feed feed).Serves below name file (Steady pool claims calm) True)
    (hnames : label.Names pool file claims) (hclaimed : claims label.cacheName file)
    (hs : Steadfast pool claims states s) {position len : Nat} (hin : position + len ≤ file.size)
    {bytes : Bytes} {r : Reader (Source ι)}
    (hrun : Reader.read (Source.feed feed) ⟨.cached below label, position⟩ len s =
      (⟨bytes, some e⟩, r, s')) :
    r = ⟨.cached below label, position⟩ ∧
      (∃ block ∈ Grid.blocks position len, label.Broke feed below file block e s s' ∧
        let got := Grid.start block - position
        ∀ buffer : Bytes, buffer.size = len → Delivery.into ⟨bytes, some e⟩ buffer =
          Bytes.slice file position got ++ Bytes.slice buffer got (len - got)) ∧
      Steadfast pool claims states s' ∧
      s.Grown (label.Makes below file) s' ∧
      ∀ store, calm store → ∃ s'', Reader.read (Source.feed feed) r len { s' with store } =
        (⟨Bytes.slice file position len, none⟩, { r with position := position + len }, s'') := by
  have hread : (Source.cached below label).read feed position len s = (⟨bytes, some e⟩, s') ∧
      r = ⟨.cached below label, position⟩ := by
    simp only [Reader.read, Source.feed] at hrun
    split at hrun
    · cases hrun
    · next hsame =>
      simp only [Prod.mk.injEq, Delivery.mk.injEq, Option.some.injEq] at hrun
      obtain ⟨⟨rfl, rfl⟩, rfl, rfl⟩ := hrun
      exact ⟨hsame, rfl⟩
  obtain ⟨hread, rfl⟩ := hread
  rw [Source.read, CacheLabel.read, hnames.length, readPastEof, if_neg (Nat.not_lt.mpr hin)] at hread
  obtain ⟨hs', hgrown, block, hmet, hbroke, rfl⟩ :=
    fill_broken hserves hsize hnames hclaimed position len hs hin hread
  refine ⟨rfl, ⟨block, hmet, hbroke, fun buffer hbuffer => ?_⟩, hs', hgrown, fun store hstore => ?_⟩
  · obtain ⟨_, hbefore, _⟩ := Grid.mem_blocks_iff.mp hmet
    have hgot : (Bytes.slice file position (Grid.start block - position)).size =
        Grid.start block - position := Bytes.size_slice_of_le (by omega)
    rw [ByteArray.empty_append, Delivery.into_eq (by rw [hgot]; omega), hgot, hbuffer]
  · have hsteady : Steady pool claims calm { s' with store } := ⟨hs'.steady.honest, hstore⟩
    have hagain := (read_spec hcalm hnames hsteady position len).2 hclaimed (.inr trivial)
    rw [Delivery.ofFile_of_le _ hin] at hagain
    obtain ⟨⟨d, s''⟩, hr⟩ :
      ∃ r, (Source.cached below label).read feed position len { s' with store } = r := ⟨_, rfl⟩
    obtain rfl : d = ⟨Bytes.slice file position len, none⟩ := (congrArg Prod.fst hr).symm.trans hagain
    exact ⟨s'', by simp only [Reader.read, Source.feed, hr]⟩

end Source

namespace Tier

-- A block of which nothing is shown is not found.
theorem fetch_blank {t : Tier} {pool : Nat} {claims : String → Bytes → Prop} (h : t.Honest pool claims)
    {name : String} {block offset len : Nat} (hlen : 0 < len)
    (hblank : t.byteAt name block offset = none) (hfits : offset + len ≤ Grid.blockSize) :
    Ends (fetch name block offset len) t
      (fun found t' => found = none ∧ t'.Honest pool claims) (fun _ _ => False) := by
  refine (fetch_ends h name block offset len).imp ?_ ?_
  · rintro (_ | bytes) t' ⟨ht', hfound⟩
    · exact ⟨rfl, ht'⟩
    · obtain ⟨hsize, hbytes⟩ := hfound bytes rfl
      have hfirst := hbytes 0 hlen
      rw [Nat.add_zero, hblank, getElem?_pos bytes 0 (hsize ▸ hlen)] at hfirst
      cases hfirst
  · rintro _ t' ⟨_, hlong⟩
    exact absurd hfits (Nat.not_le.mpr hlong)

-- Where two files that are both claimed differ, nothing is shown.
theorem Honest.blank {t : Tier} {pool : Nat} {claims : String → Bytes → Prop} (h : t.Honest pool claims)
    {name : String} {a b : Bytes} (ha : claims name a) (hb : claims name b) {block i : Nat}
    (hi : i < Grid.blockSize) {x y : UInt8} (hx : a[Grid.start block + i]? = some x)
    (hy : b[Grid.start block + i]? = some y) (hne : x ≠ y) : t.byteAt name block i = none := by
  cases hbyte : t.byteAt name block i with
  | none => rfl
  | some z =>
    have hzx := h.shows name a ha block i hi z x hbyte hx
    have hzy := h.shows name b hb block i hi z y hbyte hy
    exact absurd (hzx.symm.trans hzy) hne

end Tier

namespace Guarded

variable {ι β γ : Type} {feed : Feed ι β} {input : ι} {name : String} {file : Bytes} {states : β → Prop}
  {sure : Prop}

-- Behind a guard any call may be refused.
theorem feed_serves (verdict : Verdict γ) (h : feed.Serves input name file states sure) :
    (Guarded.feed verdict feed).Serves input name file (fun t => states t.inner) False where
  seek position t ht := by
    simp only [Guarded.feed, ends_bind, ask, onInner, ends_onPart, ends_mapFailure]
    refine .always (fun _ _ => ?_) fun _ _ => ⟨ht, id⟩
    exact (h.seek position t.inner ht).imp (fun _ _ => id) fun _ _ hfailed => ⟨hfailed.1, id⟩
  read position len t ht := by
    obtain ⟨hstates, hread⟩ := h.read position len t.inner ht
    simp only [Guarded.feed, ask, onPart, mapFailure]
    cases verdict .read (feed.name input) t.guard with
    | ok a guard => exact ⟨hstates, fun hcase => hread (.inl (hcase.resolve_right id))⟩
    | error e guard =>
      exact ⟨ht, fun hcase => absurd (hcase.resolve_right id) (Option.some_ne_none _)⟩

-- A script that has come to its end refuses nothing.
theorem script_serves (h : feed.Serves input name file states True) :
    (Guarded.feed .script feed).Serves input name file (fun t => states t.inner ∧ t.guard = []) True where
  seek position t ht := by
    obtain ⟨guard, inner⟩ := t
    obtain ⟨ht, rfl⟩ := ht
    show Ends (onInner (feed.seek input position)) ⟨[], inner⟩ _ _
    rw [onInner, ends_onPart]
    exact (h.seek position inner ht).imp (fun _ _ hinner => ⟨hinner, rfl⟩)
      fun _ _ hfailed => absurd trivial hfailed.2
  read position len t ht := by
    obtain ⟨guard, inner⟩ := t
    obtain ⟨ht, rfl⟩ := ht
    obtain ⟨hstates, hread⟩ := h.read position len inner ht
    exact ⟨⟨hstates, rfl⟩, hread⟩

theorem size_read_le (verdict : Verdict γ)
    (h : ∀ position len t, (feed.read input position len t).1.bytes.size ≤ len) (position len : Nat)
    (t : Guarded γ β) : ((Guarded.feed verdict feed).read input position len t).1.bytes.size ≤ len := by
  simp only [Guarded.feed]
  cases ask verdict .read (feed.name input) t with
  | ok a t' => exact h position len t'.inner
  | error e t' => exact Nat.zero_le _

end Guarded

namespace CacheLabel

variable {β : Type} {label : CacheLabel} {seek : Nat → Act (Site β) Unit}
  {read : Nat → Nat → Site β → Delivery × Site β} {span : Grid.Span} {s : Site β} {e : Failure}

-- A block that is not cached, and which the source refuses to read.
theorem readSpan_refused {left : Site β → Prop} (hfits : span.offset + span.length ≤ Grid.blockSize)
    (hstart : Grid.start span.block ≤ label.length)
    (h : Ends (Site.onTier (Tier.fetch label.cacheName span.block span.offset span.length)) s
      (fun found s₁ => found = none ∧ Ends (seek (Grid.start span.block)) s₁
        (fun _ s₂ => Ends (Site.onTier (Tier.borrow label.pool Grid.blockSize)) s₂
          (fun scratch s₃ => scratch.size = Grid.blockSize ∧ ∃ d s₄,
            read (Grid.start span.block) (label.room span.block) s₃ = (d, s₄) ∧ d.failure = some e ∧
            left (label.back (d.into scratch) s₄))
          fun _ _ => False) fun _ _ => False) fun _ _ => False) :
    Ends (label.readSpan seek read span) s (fun _ _ => False) (fun e' s' => e' = e ∧ left s') := by
  simp only [readSpan, ends_bind]
  refine h.imp ?_ fun _ _ => False.elim
  rintro _ s₁ ⟨rfl, hseek⟩
  refine loadBlock_steps hfits hstart ?_
  refine hseek.imp (fun _ s₂ hborrow => ?_) fun _ _ => False.elim
  refine hborrow.imp ?_ fun _ _ => False.elim
  rintro scratch s₃ ⟨hsize, d, s₄, hrun, hfailed, hleft⟩
  rw [hrun]
  have hnever {α : Prop} (hnone : d.failure = none) : α :=
    absurd (hfailed.symm.trans hnone) (Option.some_ne_none _)
  refine ⟨hsize, hnever, fun e' he' => ⟨?_, hleft⟩, hnever⟩
  exact (Option.some.inj (hfailed.symm.trans he')).symm

theorem read_refused {left : Site β → Prop} {position len : Nat}
    (hspans : Grid.spans position len = [span]) (hin : position + len ≤ label.length)
    (h : Ends (label.readSpan seek read span) s (fun _ _ => False) (fun e' s' => e' = e ∧ left s')) :
    ∃ s', label.read seek read position len s = (⟨ByteArray.empty, some e⟩, s') ∧ left s' := by
  obtain ⟨_, s', hrun, rfl, hleft⟩ := h.exists_error
  refine ⟨s', ?_, hleft⟩
  rw [CacheLabel.read, hspans, readPastEof, if_neg (Nat.not_lt.mpr hin), fill, hrun]

end CacheLabel

namespace LongFile

open CacheLabel

-- A file a little longer than one block, which is held in memory and read through one layer. A script says
-- which calls for it are refused.
abbrev file : Bytes := Bytes.replicate 8200 7

abbrev label : CacheLabel := ⟨"f", "d/f:1", 8200, 0⟩

abbrev below : Source MemoryInput := .plain ⟨"f", file⟩

abbrev feed : Feed MemoryInput (Guarded (List Bool) MemoryStore) := Guarded.feed .script MemoryStore.feed

abbrev firstBlock : Bytes := Bytes.replicate Grid.blockSize 7

-- Of the files that begin with the first block no two agree on what comes after it.
abbrev Likely (_ : String) (data : Bytes) : Prop := ∃ rest, data = firstBlock ++ rest

theorem size_firstBlock : firstBlock.size = Grid.blockSize := Bytes.size_replicate _ _

theorem reads_first (t : Tier) : below.read feed 0 8192 ⟨t, ⟨[false, false, true], {}⟩⟩ =
    (⟨Bytes.slice file 0 8192, none⟩, ⟨t, ⟨[false, true], { reads := 1 }⟩⟩) := by
  have hread : MemoryStore.readAt ⟨"f", file⟩ 0 8192 {} =
      (⟨Bytes.slice file 0 8192, none⟩, { reads := 1 }) := by
    rw [MemoryStore.readAt, readPastEof, Bytes.size_replicate, if_neg (by decide)]
  exact congrArg (fun r : Delivery × MemoryStore =>
    (r.1, (⟨t, ⟨[false, true], r.2⟩⟩ : Site (Guarded (List Bool) MemoryStore)))) hread

-- The first block is not cached. It is read and published.
theorem loads_first {t : Tier} (h : t.Honest 0 Likely) (hblank : t.byteAt "d/f:1" 0 8190 = none) :
    Ends (label.readSpan (below.seek feed) (below.read feed) ⟨0, 8190, 2⟩)
      ⟨t, ⟨[false, false, false, true], {}⟩⟩
      (fun bytes s' => bytes = Bytes.slice file 8190 2 ∧
        ∃ t', s' = ⟨t', ⟨[false, true], { reads := 1 }⟩⟩ ∧ t'.Honest 0 Likely)
      (fun _ _ => False) := by
  have hmiss : Ends (Tier.fetch "d/f:1" 0 8190 2) t _ _ :=
    Tier.fetch_blank h (by decide) hblank (by decide)
  simp only [readSpan, ends_bind]
  refine Site.ends_onTier.mpr (hmiss.imp ?_ fun _ _ => False.elim)
  rintro _ t ⟨rfl, ht⟩
  refine loadBlock_steps (by decide) (by decide) ?_
  have hseek : below.seek feed 0 ⟨t, ⟨[false, false, false, true], {}⟩⟩ =
      .ok () ⟨t, ⟨[false, false, true], {}⟩⟩ := rfl
  refine ends_of_ok hseek ?_
  have hborrow := Tier.borrow_ends ht (Nat.le_refl 0) Grid.blockSize
  refine Site.ends_onTier.mpr (hborrow.imp ?_ fun _ _ => False.elim)
  rintro scratch t ⟨ht, hscratch⟩
  change Settles label _ scratch (below.read feed 0 8192 ⟨t, ⟨[false, false, true], {}⟩⟩) _ _
  have hfull : (Bytes.slice file 0 8192).size = 8192 :=
    Bytes.size_slice_of_le (by rw [Bytes.size_replicate]; decide)
  have hsize : Grid.blockSize = 8192 := rfl
  have hblock : Bytes.padTo (Bytes.slice file 0 8192) Grid.blockSize = firstBlock := by
    refine Bytes.ext_getElem? fun i => ?_
    rw [Bytes.getElem?_padTo, hfull, Bytes.getElem?_slice, Bytes.getElem?_replicate,
      Bytes.getElem?_replicate]
    grind
  rw [reads_first]
  refine ⟨hscratch, fun _ => hfull, fun _ h => absurd h (Option.not_mem_none _), fun _ => ?_⟩
  rw [hblock]
  refine Site.ends_onTier.mpr ((Tier.update_ends ht.sound ht.stocked
    (fun name data hdata block _ => ht.shows name data hdata block) ?_).imp ?_ ?_)
  · rintro data ⟨rest, rfl⟩ i hi y hy
    have hstart : Grid.start 0 + i = i := Nat.zero_add i
    rw [hstart, Bytes.getElem?_append, size_firstBlock, if_pos hi] at hy
    exact hy
  · refine fun _ t' ht' => ⟨Bytes.ext_getElem? fun i => ?_, _, rfl, ht'.giveBack 0 _⟩
    rw [Bytes.getElem?_slice, Bytes.getElem?_slice, Bytes.getElem?_replicate, Bytes.getElem?_replicate]
    grind
  · rintro _ _ ⟨hlong, _⟩
    exact absurd hlong (size_firstBlock ▸ Nat.lt_irrefl _)

-- The second one is not cached either, and the call that reads it is refused.
theorem refuses_second {t : Tier} (h : t.Honest 0 Likely) :
    Ends (label.readSpan (below.seek feed) (below.read feed) ⟨1, 0, 8⟩)
      ⟨t, ⟨[false, true], { reads := 1 }⟩⟩ (fun _ _ => False)
      (fun e _ => e = .error (.io (.other "refused")) ∧ True) := by
  have hbyte (x : UInt8) : (firstBlock ++ Bytes.replicate 1 x)[Grid.start 1 + 0]? = some x := by
    rw [Bytes.getElem?_append, size_firstBlock, if_neg (by decide), Bytes.getElem?_replicate,
      if_pos (by decide)]
  have hblank : t.byteAt "d/f:1" 1 0 = none :=
    h.blank ⟨_, rfl⟩ ⟨_, rfl⟩ Grid.blockSize_pos (hbyte 0) (hbyte 1) (by decide)
  have hmiss : Ends (Tier.fetch "d/f:1" 1 0 8) t _ _ :=
    Tier.fetch_blank h (by decide) hblank (by decide)
  refine readSpan_refused (by decide) (by decide) ?_
  refine Site.ends_onTier.mpr (hmiss.imp ?_ fun _ _ => False.elim)
  rintro _ t ⟨rfl, ht⟩
  have hseek : below.seek feed 8192 ⟨t, ⟨[false, true], { reads := 1 }⟩⟩ =
      .ok () ⟨t, ⟨[true], { reads := 1 }⟩⟩ := rfl
  refine ⟨rfl, ends_of_ok hseek ?_⟩
  have hborrow := Tier.borrow_ends ht (Nat.le_refl 0) Grid.blockSize
  refine Site.ends_onTier.mpr (hborrow.imp ?_ fun _ _ => False.elim)
  rintro scratch t ⟨_, hscratch⟩
  exact ⟨hscratch, _, _, rfl, rfl, trivial⟩

theorem reads_up_to_second {t : Tier} (h : t.Honest 0 Likely) (hblank : t.byteAt "d/f:1" 0 8190 = none) :
    ∃ s', (Source.cached below label).read feed 8190 10 ⟨t, ⟨[false, false, false, true], {}⟩⟩ =
      (⟨Bytes.slice file 8190 2, some (.error (.io (.other "refused")))⟩, s') := by
  have hspans : Grid.spans 8190 10 = [⟨0, 8190, 2⟩, ⟨1, 0, 8⟩] := by
    rw [Grid.spans_eq]
    rfl
  obtain ⟨bytes, s₁, hfirst, rfl, t', rfl, ht'⟩ := (loads_first h hblank).exists_ok
  obtain ⟨_, s₂, hsecond, rfl, _⟩ := (refuses_second ht').exists_error
  refine ⟨s₂, ?_⟩
  rw [Source.read, CacheLabel.read, hspans, readPastEof, if_neg (by decide), fill, hfirst]
  dsimp only
  rw [fill, hsecond, ByteArray.empty_append]

end LongFile

namespace Source

open CacheLabel

-- The read of a range that reaches into the second block of a file, none of which is cached yet. The first
-- block is read and published, and the read of the second is refused.
theorem failed_read_harmless_at_second_block :
    ∃ c, FileCache.ofSizing (.ofLayout 1 8 8192) = .ok c ∧
    let file := Bytes.replicate 8200 7
    let label : CacheLabel := ⟨"f", "d/f:1", 8200, 0⟩
    let below : Source MemoryInput := .plain ⟨"f", file⟩
    let feed := Guarded.feed .script MemoryStore.feed
    let r : Reader (Source MemoryInput) := ⟨.cached below label, 8190⟩
    let site : Site (Guarded (List Bool) MemoryStore) :=
      ⟨{ files := some c, pools := #[.ofDepth 1] }, ⟨[false, false, false, true], {}⟩⟩
    let refused : Failure := .error (.io (.other "refused"))
    ∃ s', r.read (Source.feed feed) 10 site = (⟨Bytes.slice file 8190 2, some refused⟩, r, s') ∧
      (∃ block ∈ Grid.blocks 8190 10, label.Broke feed below file block refused site s') ∧
      ∃ s'', r.read (Source.feed feed) 10 { s' with store := ⟨[], {}⟩ } =
        (⟨Bytes.slice file 8190 10, none⟩, { r with position := 8200 }, s'') := by
  obtain ⟨c, hsizing⟩ : ∃ c, FileCache.ofSizing (.ofLayout 1 8 8192) = .ok c := ⟨_, rfl⟩
  refine ⟨c, hsizing, ?_⟩
  intro file label below feed r site refused
  have hsize : file.size = 8200 := Bytes.size_replicate 8200 7
  let claims : String → Bytes → Prop := fun _ data => data = file
  have hnames : label.Names 0 file claims := ⟨hsize.symm, Nat.le_refl 0, fun _ => id⟩
  have hfixed : MemoryStore.feed.Serves ⟨"f", file⟩ "f" file (fun _ => True) True :=
    (Views.memory_fixed ⟨"f", file⟩).serves _ rfl
  have hserves : (Source.feed feed).Serves below "f" file (Steady 0 claims fun _ => True) False :=
    Source.plain_serves (Guarded.feed_serves .script hfixed)
  have hcalm : (Source.feed feed).Serves below "f" file
      (Steady 0 claims fun t => True ∧ t.guard = []) True :=
    Source.plain_serves (Guarded.script_serves hfixed)
  have hle (position len : Nat) (s : Site (Guarded (List Bool) MemoryStore)) :
      (below.read feed position len s).1.bytes.size ≤ len :=
    Guarded.size_read_le .script (fun position len t => (MemoryStore.readAt_within _ position len t).1.size_le)
      position len s.store
  have hpools : ∀ p ∈ site.tier.pools, p.Sound ∧ p.Roomy := by
    simpa [site] using ⟨ScratchPool.sound_ofDepth 1, ScratchPool.roomy_ofDepth 1⟩
  have hhonest (claims : String → Bytes → Prop) : site.tier.Honest 0 claims :=
    .of_sizing hsizing rfl ⟨Nat.one_pos, fun p hp => (hpools p hp).1⟩
  have hs : Steadfast 0 claims (fun _ => True) site := ⟨⟨hhonest claims, trivial⟩, fun p hp => (hpools p hp).2⟩
  obtain ⟨s', hread⟩ := LongFile.reads_up_to_second (hhonest LongFile.Likely)
    ((FileCache.ofSizing_sound hsizing).2 "d/f:1" 0 8190)
  have hrun : r.read (Source.feed feed) 10 site = (⟨Bytes.slice file 8190 2, some refused⟩, r, s') := by
    simp only [Reader.read, Source.feed, r]
    rw [hread]
  obtain ⟨_, ⟨block, hblock, hbroke, _⟩, _, _, hretry⟩ :=
    failed_read_harmless hserves (fun position len s _ => hle position len s) hcalm hnames rfl hs
      (Nat.le_of_eq hsize.symm) hrun
  exact ⟨s', hrun, ⟨block, hblock, hbroke⟩, hretry ⟨[], {}⟩ ⟨trivial, rfl⟩⟩

-- Two layers that draw on one pool, which has room for a single buffer. Both take a buffer for the block, and
-- when the read of the store fails the lower layer's fills the pool, so that the other is given up.
theorem failed_read_gives_up_buffer :
    let upper : CacheLabel := ⟨"f", "e/f:1", 1, 0⟩
    let lower : CacheLabel := ⟨"f", "d/f:1", 1, 0⟩
    let feed := Source.feed (Guarded.feed .script MemoryStore.feed)
    let r : Reader (Source MemoryInput) :=
      ⟨.cached (.cached (.plain ⟨"f", Bytes.replicate 1 120⟩) lower) upper, 0⟩
    let used := Bytes.replicate Grid.blockSize 9
    let site : Site (Guarded (List Bool) MemoryStore) :=
      ⟨{ files := none, pools := #[{ depth := 1, block := [used], allocations := 1 }] }, ⟨[false, true], {}⟩⟩
    ∃ s', r.read feed 1 site = (⟨ByteArray.empty, some (.error (.io (.other "refused")))⟩, r, s') ∧
      s'.tier.pools = #[{ depth := 1, block := [Bytes.zeros Grid.blockSize], allocations := 2 }] ∧
      used ≠ Bytes.zeros Grid.blockSize := by
  intro upper lower feed r used site
  have hspans : Grid.spans 0 1 = [⟨0, 0, 1⟩] := by
    rw [Grid.spans_eq]
    rfl
  let refused : Failure := .error (.io (.other "refused"))
  let zeros := Bytes.zeros Grid.blockSize
  let full : ScratchPool := { depth := 1, block := [zeros], allocations := 2 }
  let plain : Source MemoryInput := .plain ⟨"f", Bytes.replicate 1 120⟩
  let scripted : Feed MemoryInput (Guarded (List Bool) MemoryStore) := Guarded.feed .script MemoryStore.feed
  have hused : used.size = Grid.blockSize := Bytes.size_replicate _ _
  have hzeros : zeros.size = Grid.blockSize := Bytes.size_zeros _
  have hlower (journal : Array CacheCall) : ∃ s', (Source.cached plain lower).read scripted 0 1
      ⟨{ files := none, journal, pools := #[{ depth := 1, allocations := 1 }] }, ⟨[false, true], {}⟩⟩ =
        (⟨ByteArray.empty, some refused⟩, s') ∧ s'.tier.pools = #[full] := by
    refine read_refused hspans (Nat.le_refl 1) (readSpan_refused (by decide) (by decide) ?_)
    refine ends_of_ok rfl ⟨rfl, ends_of_ok rfl (ends_of_ok rfl ⟨hzeros, _, _, rfl, rfl, ?_⟩)⟩
    show #[ScratchPool.put { depth := 1, allocations := 2 } (Delivery.into ⟨ByteArray.empty, _⟩ zeros)] = _
    have hput : ScratchPool.put { depth := 1, allocations := 2 } zeros = full :=
      ScratchPool.put_of_room Nat.one_pos hzeros
    rw [Delivery.into_nothing, hput]
  have hupper : ∃ s', (Source.cached (.cached plain lower) upper).read scripted 0 1 site =
      (⟨ByteArray.empty, some refused⟩, s') ∧ s'.tier.pools = #[full] := by
    obtain ⟨s₁, hrun, hpools⟩ := hlower #[.fetch "e/f:1" 0 0 1 false]
    refine read_refused hspans (Nat.le_refl 1) (readSpan_refused (by decide) (by decide) ?_)
    refine ends_of_ok rfl ⟨rfl, ends_of_ok rfl (ends_of_ok rfl ⟨hused, _, _, hrun, rfl, ?_⟩)⟩
    show s₁.tier.pools.modify 0 (·.put (Delivery.into ⟨ByteArray.empty, _⟩ used)) = #[full]
    have hgiven : full.put used = full := ScratchPool.put_of_full (Nat.lt_irrefl 1) hused
    rw [hpools, Delivery.into_nothing]
    exact congrArg (#[·]) hgiven
  obtain ⟨s', hrun, hpools⟩ := hupper
  refine ⟨s', ?_, hpools, fun h => ?_⟩
  · simp only [Reader.read, r, feed, Source.feed]
    rw [hrun]
  · have hfirst : used[0]? = zeros[0]? := congrArg (·[0]?) h
    rw [Bytes.getElem?_replicate, Bytes.getElem?_zeros, if_pos Grid.blockSize_pos,
      if_pos Grid.blockSize_pos] at hfirst
    cases hfirst

end Source

end Blockwise
