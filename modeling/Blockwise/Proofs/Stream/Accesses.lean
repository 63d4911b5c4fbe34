import Blockwise.Proofs.Stream.Destination
import Blockwise.Proofs.Stream.Steps
import Blockwise.Proofs.Stream.Views

namespace Blockwise

open Act

-- A read that a source was asked for, with what it delivered.
structure SourceRead where
  position : Nat
  length : Nat
  delivery : Delivery

-- A block that was read of a source, with the calls that the source itself made to the cache meanwhile.
structure Load where
  calls : List CacheCall
  bytes : Bytes

-- A fetch of a part of a block, and the block read for it if the fetch missed.
structure Access where
  span : Grid.Span
  load : Option Load := none

namespace Access

-- The calls to the cache.
def calls (cacheName : String) : Access → List CacheCall
  | ⟨span, none⟩ => [.fetch cacheName span.block span.offset span.length true]
  | ⟨span, some load⟩ => .fetch cacheName span.block span.offset span.length false ::
      (load.calls ++ [.update cacheName span.block 0 (Bytes.padTo load.bytes Grid.blockSize)])

-- The reads of the source, of a file that has the given length.
def reads (length : Nat) : Access → List SourceRead
  | ⟨_, none⟩ => []
  | ⟨span, some load⟩ =>
    [⟨Grid.start span.block, min Grid.blockSize (length - Grid.start span.block), ⟨load.bytes, none⟩⟩]

end Access

namespace CacheCall

-- An update of the name.
def updates (cacheName : String) : CacheCall → Bool
  | .update name _ _ _ => name = cacheName
  | .fetch _ _ _ _ _ | .delete _ | .rename _ _ => false

-- A fetch of the name that found nothing.
def misses (cacheName : String) : CacheCall → Bool
  | .fetch name _ _ _ hit => name = cacheName && !hit
  | .update _ _ _ _ | .delete _ | .rename _ _ => false

theorem name_of_updates {cacheName : String} {call : CacheCall} (h : call.updates cacheName = true) :
    call.name = cacheName := by
  cases call <;> simp_all [updates, name]

theorem name_of_misses {cacheName : String} {call : CacheCall} (h : call.misses cacheName = true) :
    call.name = cacheName := by
  cases call <;> simp_all [misses, name]

end CacheCall

namespace CacheLabel

variable {β : Type} {pools : Nat} {shape : Option (Nat × Nat)} {store : Regime β}
  {label : CacheLabel} {seek : Nat → Act (Site β) Unit}
  {read : Nat → Nat → Site β → Delivery × Site β} {span : Grid.Span} {s s' : Site β}

theorem back_leaves (hs : (Site.regime pools shape store).holds s) (buffer : Bytes) :
    (Site.regime pools shape store).Leaves s (label.back buffer s) :=
  (Site.safe_onTier (Tier.safe_giveBack label.pool buffer) s hs).1

variable {g : Regime (Site β)} {trace : β → List SourceRead} {own : CacheCall → Prop}
  {accesses more : List Access}

-- A source that keeps to a regime of the site. It delivers what it is asked for unless it fails, its reads
-- are entered in a trace, and of the calls to the cache it makes none but its own.
structure Accountable (g : Regime (Site β)) (trace : β → List SourceRead) (own : CacheCall → Prop)
    (seek : Nat → Act (Site β) Unit) (read : Nat → Nat → Site β → Delivery × Site β) : Prop where
  seek : ∀ position s, g.holds s → Ends (seek position) s
    (fun _ s' => g.Leaves s s' ∧ trace s'.store = trace s.store ∧ s.Grown own s') (fun _ _ => True)
  read : ∀ position len s, g.holds s →
    g.Leaves s (read position len s).2 ∧ (read position len s).1.Within len ∧
      trace (read position len s).2.store = trace s.store ++ [⟨position, len, (read position len s).1⟩] ∧
      s.Grown own (read position len s).2

-- Between two states lie these accesses and nothing else.
structure Accessed (label : CacheLabel) (g : Regime (Site β)) (trace : β → List SourceRead)
    (own : CacheCall → Prop) (accesses : List Access) (s s' : Site β) : Prop where
  leaves : g.Leaves s s'
  journal : s'.tier.journal.toList =
    s.tier.journal.toList ++ accesses.flatMap (Access.calls label.cacheName)
  trace : trace s'.store = trace s.store ++ accesses.flatMap (Access.reads label.length)
  loads : ∀ access ∈ accesses, ∀ load ∈ access.load,
    load.bytes.size = label.room access.span.block ∧ ∀ call ∈ load.calls, own call

theorem Accessed.nil (hs : g.holds s) : label.Accessed g trace own [] s s :=
  ⟨.refl hs, (List.append_nil _).symm, (List.append_nil _).symm, List.forall_mem_nil _⟩

theorem Accessed.append {s'' : Site β} (h : label.Accessed g trace own accesses s s')
    (h' : label.Accessed g trace own more s' s'') :
    label.Accessed g trace own (accesses ++ more) s s'' := by
  refine ⟨h.leaves.trans h'.leaves, ?_, ?_, fun access haccess => ?_⟩
  · rw [h'.journal, h.journal, List.append_assoc, List.flatMap_append]
  · rw [h'.trace, h.trace, List.append_assoc, List.flatMap_append]
  · exact (List.mem_append.mp haccess).elim (h.loads access) (h'.loads access)

section Reading

variable (hsource : Accountable (Site.regime pools shape store) trace own seek read)
  (hpool : label.pool < pools)

include hsource hpool

theorem loadBlock_accessed (hs : (Site.regime pools shape store).holds s)
    (hfits : span.offset + span.length ≤ Grid.blockSize)
    (hstart : Grid.start span.block ≤ label.length) :
    Ends (label.loadBlock seek read span) s
      (fun _ s' => ∃ load : Load, (Site.regime pools shape store).Leaves s s' ∧
        s'.tier.journal.toList = s.tier.journal.toList ++ (load.calls ++
          [.update label.cacheName span.block 0 (Bytes.padTo load.bytes Grid.blockSize)]) ∧
        trace s'.store = trace s.store ++ Access.reads label.length ⟨span, some load⟩ ∧
        load.bytes.size = label.room span.block ∧ ∀ call ∈ load.calls, own call)
      (fun _ _ => True) := by
  refine loadBlock_steps hfits hstart ((hsource.seek _ s hs).imp ?_ fun _ _ _ => trivial)
  rintro _ s₁ ⟨hsought, htrace₁, calls, hjournal₁, hown⟩
  refine ((Site.safe_onTier (Tier.safe_borrow hpool Grid.blockSize) s₁ hsought.1).and
    (Site.ends_beside (Tier.borrow_beside label.pool Grid.blockSize s₁.tier))).imp ?_
    fun _ _ _ => trivial
  rintro scratch s₂ ⟨⟨hborrowed, hscratch⟩, ⟨hjournal₂, _⟩, hstore₂⟩
  obtain ⟨hread, hwithin, htrace₃, calls', hjournal₃, hown'⟩ :=
    hsource.read (Grid.start span.block) (label.room span.block) s₂ hborrowed.1
  refine ⟨hscratch, hwithin.full, fun _ _ => trivial, fun hnone => ?_⟩
  obtain ⟨⟨⟨got, failure⟩, s₃⟩, hr⟩ :
    ∃ r, read (Grid.start span.block) (label.room span.block) s₂ = r := ⟨_, rfl⟩
  simp only [hr] at hread hwithin htrace₃ hjournal₃ hnone ⊢
  subst hnone
  have hfull : got.size = label.room span.block := hwithin.full rfl
  have hle : label.room span.block ≤ Grid.blockSize := Nat.min_le_left _ _
  have hblock : 0 + (Bytes.padTo got Grid.blockSize).size ≤ Grid.blockSize := by
    rw [Bytes.size_padTo]
    omega
  refine ((Site.safe_onTier (Tier.safe_update label.cacheName span.block (hread.1.1.fits hblock)) s₃
    hread.1).and (Site.ends_beside (Tier.update_beside _ _ _ _ s₃.tier))).imp ?_ fun _ _ _ => trivial
  rintro _ s₄ ⟨⟨hpublished, _⟩, ⟨hjournal₄, _⟩, hstore₄⟩
  refine ⟨⟨calls ++ calls', got⟩, ?_, ?_, ?_, hfull, ?_⟩
  · exact hsought.trans (hborrowed.trans (hread.trans (hpublished.trans (back_leaves hpublished.1 _))))
  · show s₄.tier.journal.toList = _
    rw [hjournal₄, Array.toList_push, hjournal₃, hjournal₂, hjournal₁]
    simp only [List.append_assoc]
  · show trace s₄.store = _
    rw [hstore₄, htrace₃, hstore₂, htrace₁]
    rfl
  · exact fun call hcall => (List.mem_append.mp hcall).elim (hown call) (hown' call)

-- A hit is one access to the cache and none to the source, a miss is one to both.
theorem readSpan_accessed (hs : (Site.regime pools shape store).holds s)
    (hfits : span.offset + span.length ≤ Grid.blockSize)
    (hstart : Grid.start span.block ≤ label.length) :
    Ends (label.readSpan seek read span) s
      (fun _ s' => ∃ access, access.span = span ∧
        label.Accessed (Site.regime pools shape store) trace own [access] s s')
      (fun _ _ => True) := by
  simp only [readSpan, ends_bind]
  refine ((Site.safe_onTier (Tier.safe_fetch label.cacheName span.block (hs.1.fits hfits)) s hs).and
    (Site.ends_beside (Tier.fetch_beside label.cacheName span.block span.offset span.length
      s.tier))).imp ?_ fun _ _ _ => trivial
  rintro found s₁ ⟨⟨hfetched, _⟩, ⟨hjournal, _⟩, hstore⟩
  cases found with
  | some bytes =>
    refine ⟨⟨span, none⟩, rfl, hfetched, ?_, ?_, ?_⟩
    · rw [hjournal, Array.toList_push]
      rfl
    · rw [hstore]
      exact (List.append_nil _).symm
    · simp
  | none =>
    refine (loadBlock_accessed hsource hpool hfetched.1 hfits hstart).imp ?_ fun _ _ => id
    rintro _ s' ⟨load, hloaded, hjournal', htrace', hload⟩
    refine ⟨⟨span, some load⟩, rfl, hfetched.trans hloaded, ?_, ?_, ?_⟩
    · rw [hjournal', hjournal, Array.toList_push, List.append_assoc]
      simp only [List.flatMap_singleton, Access.calls, List.cons_append, List.nil_append,
        Option.isSome_none]
    · rw [htrace', hstore, List.flatMap_singleton]
    · simpa using hload

-- By induction on the spans still to be read.
theorem fill_accessed {spans : List Grid.Span} {got bytes : Bytes}
    (hspans : ∀ span ∈ spans, span.offset + span.length ≤ Grid.blockSize ∧
      Grid.start span.block ≤ label.length)
    (hs : (Site.regime pools shape store).holds s)
    (hrun : fill (label.readSpan seek read) spans got s = (⟨bytes, none⟩, s')) :
    ∃ accesses, accesses.map Access.span = spans ∧
      label.Accessed (Site.regime pools shape store) trace own accesses s s' := by
  induction spans generalizing got s with
  | nil =>
    obtain rfl : s = s' := congrArg Prod.snd hrun
    exact ⟨[], rfl, .nil hs⟩
  | cons span rest ih =>
    obtain ⟨⟨hfits, hstart⟩, hrest⟩ := List.forall_mem_cons.mp hspans
    have hends := readSpan_accessed hsource hpool hs hfits hstart
    rw [fill] at hrun
    cases hspan : label.readSpan seek read span s with
    | error e s₁ =>
      rw [hspan] at hrun
      cases hrun
    | ok part s₁ =>
      rw [hspan] at hrun
      obtain ⟨access, hfirst, haccess⟩ := hends.ok hspan
      obtain ⟨accesses, hlater, haccesses⟩ := ih hrest haccess.leaves.1 hrun
      exact ⟨access :: accesses, by rw [List.map_cons, hfirst, hlater], haccess.append haccesses⟩

end Reading

-- As far as the calls are about the name of the label, an access makes as many updates as there are misses,
-- and as many as there are reads of the source.
theorem counts_of_access {cacheName : String} {access : Access} (length : Nat)
    (hforeign : ∀ load ∈ access.load, ∀ call ∈ load.calls, call.name ≠ cacheName) :
    (access.calls cacheName).countP (CacheCall.misses cacheName) = (access.reads length).length ∧
      (access.calls cacheName).countP (CacheCall.updates cacheName) = (access.reads length).length := by
  obtain ⟨span, load⟩ := access
  cases load with
  | none => simp [Access.calls, Access.reads, CacheCall.misses, CacheCall.updates]
  | some load =>
    have hmisses : load.calls.countP (CacheCall.misses cacheName) = 0 :=
      List.countP_eq_zero.mpr fun call hcall h => hforeign load rfl call hcall (CacheCall.name_of_misses h)
    have hupdates : load.calls.countP (CacheCall.updates cacheName) = 0 :=
      List.countP_eq_zero.mpr fun call hcall h => hforeign load rfl call hcall (CacheCall.name_of_updates h)
    simp only [Access.calls, Access.reads, List.countP_cons, List.countP_append, hmisses, hupdates]
    simp [CacheCall.misses, CacheCall.updates]

theorem counts_of_accesses {cacheName : String} (length : Nat)
    (hforeign : ∀ access ∈ accesses, ∀ load ∈ access.load, ∀ call ∈ load.calls, call.name ≠ cacheName) :
    let calls := accesses.flatMap (Access.calls cacheName)
    let reads := accesses.flatMap (Access.reads length)
    calls.countP (CacheCall.misses cacheName) = reads.length ∧
      calls.countP (CacheCall.updates cacheName) = reads.length := by
  induction accesses with
  | nil => exact ⟨rfl, rfl⟩
  | cons access rest ih =>
    obtain ⟨hfirst, hrest⟩ := List.forall_mem_cons.mp hforeign
    obtain ⟨hmisses, hupdates⟩ := counts_of_access length hfirst
    obtain ⟨hmisses', hupdates'⟩ := ih hrest
    simp only [List.flatMap_cons, List.countP_append, List.length_append]
    exact ⟨by rw [hmisses, hmisses'], by rw [hupdates, hupdates']⟩

-- Whatever the cache holds, a read that succeeds makes one access for each block that its range meets, in
-- ascending order, and no others. A block whose fetch missed is read of the source once, as far as the file
-- goes, and published once, filled up with zeros.
theorem read_accesses (hsource : Accountable (Site.regime pools shape store) trace own seek read)
    (hpool : label.pool < pools) (hs : (Site.regime pools shape store).holds s) {position len : Nat}
    {bytes : Bytes} (hrun : label.read seek read position len s = (⟨bytes, none⟩, s')) :
    ∃ accesses, accesses.map Access.span = (Grid.blocks position len).map (Grid.meet position len) ∧
      label.Accessed (Site.regime pools shape store) trace own accesses s s' ∧
      ((∀ call, own call → call.name ≠ label.cacheName) →
        let calls := accesses.flatMap (Access.calls label.cacheName)
        let reads := accesses.flatMap (Access.reads label.length)
        calls.countP (CacheCall.misses label.cacheName) = reads.length ∧
          calls.countP (CacheCall.updates label.cacheName) = reads.length) := by
  unfold CacheLabel.read at hrun
  cases hpast : readPastEof label.name position len label.length with
  | some e =>
    rw [hpast] at hrun
    cases hrun
  | none =>
    rw [hpast] at hrun
    have hin : position + len ≤ label.length := by
      unfold readPastEof at hpast
      split at hpast
      · cases hpast
      · omega
    obtain ⟨accesses, hspans, haccessed⟩ := fill_accessed hsource hpool (fun span hspan => by
      have hwithin := Grid.within_of_mem span hspan
      have hupper := hwithin.upper
      exact ⟨hwithin.fits, by omega⟩) hs hrun
    refine ⟨accesses, hspans.trans (Grid.spans_eq position len), haccessed, fun hforeign => ?_⟩
    exact counts_of_accesses label.length fun access haccess load hload call hcall =>
      hforeign call ((haccessed.loads access haccess load hload).2 call hcall)

end CacheLabel

namespace Feed

variable {ι β : Type} {feed : Feed ι (Site β)} {input : ι} {pools : Nat} {shape : Option (Nat × Nat)}
  {store : Regime β} {sound : ι → Prop} {own : CacheCall → Prop}

-- A feed that keeps a list of its reads with the store.
def noted (feed : Feed ι (Site β)) : Feed ι (Site (Guarded (List SourceRead) β)) where
  name := feed.name
  length := feed.length
  seek input position := onPart (fun s => ⟨s.tier, s.store.inner⟩)
    (fun s t => ⟨t.tier, { s.store with inner := t.store }⟩) (feed.seek input position)
  read input position len s :=
    let (delivery, t) := feed.read input position len ⟨s.tier, s.store.inner⟩
    (delivery, ⟨t.tier, ⟨s.store.guard ++ [⟨position, len, delivery⟩], t.store⟩⟩)
  clone input := onPart (fun s => ⟨s.tier, s.store.inner⟩)
    (fun s t => ⟨t.tier, { s.store with inner := t.store }⟩) (feed.clone input)

theorem noted_accountable (h : feed.Safe (Site.regime pools shape store) sound) (hinput : sound input)
    (hseek : ∀ position, Moves (Site.growing own) (feed.seek input position))
    (hread : ∀ position len (s : Site β), s.Grown own (feed.read input position len s).2) :
    CacheLabel.Accountable (Site.regime pools shape (Guarded.regime store)) Guarded.guard own
      (feed.noted.seek input) (feed.noted.read input) where
  seek position s hs := by
    rw [noted, ends_onPart]
    refine ((h.seek input position hinput ⟨s.tier, s.store.inner⟩ hs).and (hseek position _)).imp ?_
      fun _ _ _ => trivial
    rintro _ t ⟨⟨hleaves, _⟩, hgrown⟩
    exact ⟨hleaves, rfl, hgrown⟩
  read position len s hs := by
    obtain ⟨hleaves, hwithin⟩ := h.read input position len ⟨s.tier, s.store.inner⟩ hinput hs
    exact ⟨hleaves, hwithin, rfl, hread position len ⟨s.tier, s.store.inner⟩⟩

theorem Serves.noted {name : String} {file : Bytes} {pool : Nat} {claims : String → Bytes → Prop}
    {states : β → Prop} {sure : Prop}
    (h : feed.Serves input name file (CacheLabel.Steady pool claims states) sure) :
    feed.noted.Serves input name file (CacheLabel.Steady pool claims fun t => states t.inner) sure where
  seek position s hs := by
    rw [Feed.noted, ends_onPart]
    exact (h.seek position ⟨s.tier, s.store.inner⟩ ⟨hs.honest, hs.states⟩).imp
      (fun _ _ ht => ⟨ht.honest, ht.states⟩) fun _ _ ht => ⟨⟨ht.1.honest, ht.1.states⟩, ht.2⟩
  read position len s hs := by
    obtain ⟨ht, hread⟩ := h.read position len ⟨s.tier, s.store.inner⟩ ⟨hs.honest, hs.states⟩
    exact ⟨⟨ht.honest, ht.states⟩, hread⟩

end Feed

-- An input with any number of layers can be a source that is traced in this way.
theorem Source.accountable {ι β : Type} {feed : Feed ι β} {pools : Nat} {shape : Option (Nat × Nat)}
    {store : Regime β} {sound : ι → Prop} (h : feed.Safe store sound) {source : Source ι}
    (hsource : source.Sound pools sound) :
    CacheLabel.Accountable (Site.regime pools shape (Guarded.regime store)) Guarded.guard
      source.Calls ((Source.feed feed).noted.seek source)
      ((Source.feed feed).noted.read source) :=
  Feed.noted_accountable (Source.feed_safe h) hsource (Source.seek_grows feed source)
    (Source.read_grown feed source)

namespace CacheLabel

-- Two layers over a file of four blocks, with nothing cached yet. The read starts near the end of the first
-- block and ends in the third.
theorem read_accesses_stacked :
    ∃ c, FileCache.ofSizing (.ofLayout 1 8 8192) = .ok c ∧
    let upper : CacheLabel := ⟨"f", "e/f:1", 25000, 1⟩
    let lower : CacheLabel := ⟨"f", "d/f:1", 25000, 0⟩
    let source := Source.cached (.plain ⟨"f", Bytes.replicate 25000 7⟩) lower
    let site : Site (Guarded (List SourceRead) MemoryStore) :=
      ⟨{ files := some c, pools := #[.ofDepth 1, .ofDepth 1] }, ⟨[], {}⟩⟩
    let feed := (Source.feed MemoryStore.feed).noted
    ∃ s', ∃ accesses : List Access, upper.read (feed.seek source) (feed.read source) 8190 10000 site =
        (⟨Bytes.slice (Bytes.replicate 25000 7) 8190 10000, none⟩, s') ∧
      accesses.map Access.span = [⟨0, 8190, 2⟩, ⟨1, 0, 8192⟩, ⟨2, 0, 1806⟩] ∧
      s'.tier.journal.toList = accesses.flatMap (Access.calls "e/f:1") ∧
      s'.store.guard = accesses.flatMap (Access.reads 25000) ∧
      s'.tier.journal.toList.countP (CacheCall.updates "e/f:1") = s'.store.guard.length := by
  refine ⟨_, rfl, ?_⟩
  intro upper lower source site feed
  have hsizing : FileCache.ofSizing (.ofLayout 1 8 8192) = _ := rfl
  have hpools : ∀ p ∈ site.tier.pools, p.Sound := by simpa [site] using ScratchPool.sound_ofDepth 1
  have hintact := (Tier.reached_of_sizing (t := site.tier) hsizing rfl).intact hpools
  let file := Bytes.replicate 25000 7
  let claims : String → Bytes → Prop := fun _ data => data = file
  have hsize : file.size = 25000 := Bytes.size_replicate 25000 7
  have hnames (cacheName : String) (pool : Nat) (hpool : pool ≤ 1) :
      Names ⟨"f", cacheName, 25000, pool⟩ 1 file claims := ⟨hsize.symm, hpool, fun _ => id⟩
  have hplain : (Source.feed MemoryStore.feed).Serves (.plain ⟨"f", file⟩) "f" file
      (Steady 1 claims fun _ => True) True :=
    Source.plain_serves ((Views.memory_fixed ⟨"f", file⟩).serves _ rfl)
  have hserves := (Source.cached_serves hplain (hnames "d/f:1" 0 (by decide)) rfl).noted
  have hsteady : Steady 1 claims (fun t : Guarded (List SourceRead) MemoryStore => True) site :=
    ⟨.of_sizing hsizing rfl ⟨Nat.lt_succ_self 1, hpools⟩, trivial⟩
  have hlayer : upper.Names 1 file claims := hnames "e/f:1" 1 (Nat.le_refl 1)
  have hread := (read_spec hserves hlayer hsteady 8190 10000).2 rfl (.inr trivial)
  rw [Delivery.ofFile_of_le _ (by rw [hsize]; decide)] at hread
  obtain ⟨⟨d, s'⟩, hrun⟩ : ∃ r, upper.read (feed.seek source) (feed.read source) 8190 10000 site = r :=
    ⟨_, rfl⟩
  obtain rfl : d = ⟨Bytes.slice file 8190 10000, none⟩ := (congrArg Prod.fst hrun).symm.trans hread
  have hsource : Accountable (Site.regime 2 site.tier.layout (Guarded.regime MemoryStore.regime))
      Guarded.guard _ (feed.seek source) (feed.read source) :=
    Source.accountable MemoryStore.feed_safe ⟨trivial, Nat.lt_succ_of_lt Nat.one_pos⟩
  have hpool : upper.pool < 2 := Nat.lt_succ_self 1
  obtain ⟨accesses, hspans, haccessed, hcounts⟩ :=
    read_accesses hsource hpool ⟨hintact, MemoryStore.holds_empty⟩ hrun
  have hjournal : s'.tier.journal.toList = accesses.flatMap (Access.calls "e/f:1") := haccessed.journal
  have hreads : s'.store.guard = accesses.flatMap (Access.reads 25000) := haccessed.trace
  refine ⟨s', accesses, hrun, hspans, hjournal, hreads, ?_⟩
  rw [hjournal, hreads]
  refine (hcounts ?_).2
  intro call hcall hsame
  have hlower : call.name = "d/f:1" := List.mem_singleton.mp hcall
  exact absurd (hlower.symm.trans hsame) (by decide)

end CacheLabel

end Blockwise
