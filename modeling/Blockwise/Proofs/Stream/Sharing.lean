import Blockwise.Proofs.Stream.Safety
import Blockwise.Proofs.Tier.Sharing

namespace Blockwise

open Act

namespace Act

variable {ε σ α : Type}

-- The action goes through.
def goesThrough (x : EStateM ε σ α) (s : σ) : Bool :=
  match x s with
  | .ok _ _ => true
  | .error _ _ => false

end Act

namespace Site

variable {α β : Type} {x : Act Tier α} {y : Act β α} {s : Site β} {t : Tier} {a : α}

theorem onTier_ok (h : x s.tier = .ok a t) : onTier x s = .ok a { s with tier := t } := by
  simp only [onTier, onPart, h]

end Site

namespace CacheLabel

variable {β : Type} {pool a : Nat} {label : CacheLabel} {seek : Nat → Act (Site β) Unit}
  {read : Nat → Nat → Site β → Delivery × Site β} {span : Grid.Span} {spans : List Grid.Span}
  {s s' : Site β}

-- Whether a read comes to a miss for which a block of the source is read.
def loads (label : CacheLabel) (seek : Nat → Act (Site β) Unit) : List Grid.Span → Site β → Bool
  | [], _ => false
  | span :: rest, s =>
    match Site.onTier (Tier.fetch label.cacheName span.block span.offset span.length) s with
    | .ok (some _) s' => loads label seek rest s'
    | .ok none s' => goesThrough (seek (Grid.start span.block)) s'
    | .error _ _ => false

-- How many buffers there are after a read that may have come to read a block.
def lent (loaded : Bool) (a : Nat) : Nat := if loaded then 1 else a

-- Seeks and reads of the source go side by side whatever buffers there are, and reads fill what they
-- are given unless they fail.
structure Below (pool : Nat) (seek : Nat → Act (Site β) Unit)
    (read : Nat → Nat → Site β → Delivery × Site β) : Prop where
  seeks : ∀ P position, Matches (Site.Sharing pool P) Eq (seek position) (seek position)
  reads : ∀ P position len s s', Site.Sharing pool P s s' →
    (read position len s).1 = (read position len s').1 ∧
      Site.Sharing pool P (read position len s).2 (read position len s').2
  within : ∀ position len s, (read position len s).1.Within len

-- A block as it is published: what was delivered, and zeros after it. Nothing of the buffer is left.
theorem block_eq {d : Delivery} {n : Nat} {buffer : Bytes} (hn : n ≤ Grid.blockSize)
    (hbuffer : buffer.size = Grid.blockSize) (hsize : d.bytes.size = n) :
    Bytes.padTo (Bytes.slice (d.into buffer) 0 n) (d.into buffer).size =
      Bytes.padTo d.bytes Grid.blockSize := by
  have hinto : (d.into buffer).size = Grid.blockSize := by
    rw [Delivery.into, Bytes.size_overlay (by omega), hbuffer]
  have hslice := slice_into d buffer (by omega)
  rw [hsize] at hslice
  rw [hslice, hinto]

-- The buffer goes back on every way out that took it: after a failed read, and after a block was
-- published. A seek that fails takes none.
theorem loadBlock_met (hbelow : Below pool seek read) (hpool : label.pool = pool)
    (hfits : span.offset + span.length ≤ Grid.blockSize)
    (hstart : Grid.start span.block ≤ label.length)
    (h : Site.Sharing pool (ScratchPool.Holding a) s s') :
    Met (Site.Sharing pool
        (ScratchPool.Holding (lent (goesThrough (seek (Grid.start span.block)) s) a)))
      (fun bytes bytes' => bytes = bytes' ∧ goesThrough (seek (Grid.start span.block)) s = true)
      (label.loadBlock seek read span s) (label.loadBlock seek read span s') := by
  subst hpool
  have hseek := hbelow.seeks _ (Grid.start span.block) s s' h
  simp only [loadBlock, if_neg (Nat.not_lt.mpr hstart)]
  obtain ⟨n, hn⟩ : ∃ n, min Grid.blockSize (label.length - Grid.start span.block) = n := ⟨_, rfl⟩
  have hle : n ≤ Grid.blockSize := hn ▸ Nat.min_le_left _ _
  rw [hn]
  generalize hrun : seek (Grid.start span.block) s = r at hseek
  generalize hrun' : seek (Grid.start span.block) s' = r' at hseek
  cases hseek with
  | @error e s₁ s₁' hstate =>
    have hnot : lent (goesThrough (seek (Grid.start span.block)) s) a = a := by
      simp [lent, goesThrough, hrun]
    rw [hnot, bind_error hrun, bind_error hrun']
    exact .error hstate
  | @ok _ _ s₁ s₁' _ hstate =>
    have hgoes : goesThrough (seek (Grid.start span.block)) s = true := by
      simp [goesThrough, hrun]
    have hlent : lent (goesThrough (seek (Grid.start span.block)) s) a = 1 := by
      simp [lent, hgoes]
    rw [hlent, bind_ok hrun, bind_ok hrun']
    obtain ⟨b, b', u, u', hb, hb', hsize, hsize', htier⟩ := Tier.borrow_sharing hstate.tier
    rw [bind_ok (Site.onTier_ok hb), bind_ok (Site.onTier_ok hb')]
    have hwhole : b.part 0 n = .ok (Bytes.slice b 0 (n - 0)) := part_of_le (Nat.zero_le n) (by omega)
    have hwhole' : b'.part 0 n = .ok (Bytes.slice b' 0 (n - 0)) :=
      part_of_le (Nat.zero_le n) (by omega)
    rw [bind_ok (lift_ok_apply hwhole), bind_ok (lift_ok_apply hwhole'),
      bind_ok (modifyGet_apply _), bind_ok (modifyGet_apply _)]
    obtain ⟨hsame, hread⟩ := hbelow.reads ScratchPool.Lent (Grid.start span.block) n
      { s₁ with tier := u } { s₁' with tier := u' } ⟨htier, hstate.store⟩
    have hwithin := hbelow.within (Grid.start span.block) n { s₁ with tier := u }
    rw [← hsame]
    generalize (read (Grid.start span.block) n { s₁ with tier := u }).1 = d at hwithin ⊢
    generalize (read (Grid.start span.block) n { s₁ with tier := u }).2 = s₂ at hread ⊢
    generalize (read (Grid.start span.block) n { s₁' with tier := u' }).2 = s₂' at hread ⊢
    have hinto {buffer : Bytes} (hbuffer : buffer.size = Grid.blockSize) :
        (d.into buffer).size = Grid.blockSize := by
      have hdelivered := hwithin.size_le
      rw [Delivery.into, Bytes.size_overlay (by omega), hbuffer]
    cases hfailure : d.failure with
    | some e =>
      obtain ⟨v, v', hv, hv', hback⟩ :=
        Tier.giveBack_sharing hread.tier (hinto hsize) (hinto hsize')
      dsimp only
      rw [bind_ok (Site.onTier_ok hv), bind_ok (Site.onTier_ok hv')]
      exact .error ⟨hback, hread.store⟩
    | none =>
      have hfull := hwithin.full hfailure
      dsimp only
      rw [block_eq hle hsize hfull, block_eq hle hsize' hfull]
      have hblock : (Bytes.padTo d.bytes Grid.blockSize).size = Grid.blockSize := by
        rw [Bytes.size_padTo]
        omega
      generalize Bytes.padTo d.bytes Grid.blockSize = block at hblock ⊢
      have hpart := part_of_le (Nat.le_add_right span.offset span.length)
        (show span.offset + span.length ≤ block.size by omega)
      obtain ⟨v, v', hv, hv', hpublished⟩ :=
        Tier.publish_sharing hread.tier label.cacheName span.block hblock
      obtain ⟨w, w', hw, hw', hback⟩ := Tier.giveBack_sharing hpublished hblock hblock
      rw [bind_ok (lift_ok_apply hpart), bind_ok (lift_ok_apply hpart),
        bind_ok (Site.onTier_ok hv), bind_ok (Site.onTier_ok hv'),
        bind_ok (Site.onTier_ok (s := { s₂ with tier := v }) hw),
        bind_ok (Site.onTier_ok (s := { s₂' with tier := v' }) hw')]
      exact .ok ⟨rfl, hgoes⟩ ⟨hback, hread.store⟩

-- By induction on the spans: a hit leaves the buffers alone, and the first miss decides.
theorem fill_sharing (hbelow : Below pool seek read) (hpool : label.pool = pool)
    (hspans : ∀ span ∈ spans, span.offset + span.length ≤ Grid.blockSize ∧
      Grid.start span.block ≤ label.length) (got : Bytes)
    (h : Site.Sharing pool (ScratchPool.Holding a) s s') :
    (fill (label.readSpan seek read) spans got s).1 =
        (fill (label.readSpan seek read) spans got s').1 ∧
      Site.Sharing pool (ScratchPool.Holding (lent (label.loads seek spans s) a))
        (fill (label.readSpan seek read) spans got s).2
        (fill (label.readSpan seek read) spans got s').2 := by
  induction spans generalizing got s s' a with
  | nil => exact ⟨rfl, h⟩
  | cons span rest ih =>
    obtain ⟨⟨hfits, hstart⟩, hrest⟩ := List.forall_mem_cons.mp hspans
    have hfetch := Site.onTier_matches
      (Tier.fetch_matches label.cacheName span.block span.offset span.length) s s' h
    generalize hrun : Site.onTier (Tier.fetch label.cacheName span.block span.offset span.length) s
      = r at hfetch
    generalize hrun' : Site.onTier (Tier.fetch label.cacheName span.block span.offset span.length) s'
      = r' at hfetch
    cases hfetch with
    | error hstate =>
      simp only [fill, readSpan, bind_error hrun, bind_error hrun', loads, hrun]
      exact ⟨trivial, hstate⟩
    | @ok found _ s₁ s₁' hsame hstate =>
      subst hsame
      simp only [fill, readSpan, bind_ok hrun, bind_ok hrun', loads, hrun]
      cases found with
      | some bytes => exact ih hrest (got ++ bytes) hstate
      | none =>
        have hload := loadBlock_met hbelow hpool hfits hstart hstate
        dsimp only
        generalize label.loadBlock seek read span s₁ = r at hload ⊢
        generalize label.loadBlock seek read span s₁' = r' at hload ⊢
        cases hload with
        | error hstate => exact ⟨rfl, hstate⟩
        | ok hsame hstate =>
          obtain ⟨rfl, hgoes⟩ := hsame
          obtain ⟨hdelivered, hlast⟩ := ih hrest (got ++ _) hstate
          have hone (b : Bool) : lent b (lent true a) = lent true a := by cases b <;> rfl
          rw [hgoes, hone] at hlast
          rw [hgoes]
          exact ⟨hdelivered, hlast⟩

end CacheLabel

namespace Source

variable {ι β : Type} {pool a : Nat} {feed : Feed ι β} {s s' : Site β}

-- Whether a read of an input comes to a miss for which a block below is read.
def loads (feed : Feed ι β) : Source ι → Nat → Nat → Site β → Bool
  | plain _, _, _, _ => false
  | cached below label, position, len, s =>
    match readPastEof label.name position len label.length with
    | some _ => false
    | none => label.loads (below.seek feed) (Grid.spans position len) s

-- An input of a plain volume, or one cached layer of the given pool over it.
inductive Shallow (pool : Nat) : Source ι → Prop where
  | plain (input : ι) : Shallow pool (plain input)
  | cached (input : ι) (label : CacheLabel) (h : label.pool = pool) :
    Shallow pool (cached (plain input) label)

theorem below_plain (hfeed : ∀ input position len s, (feed.read input position len s).1.Within len)
    (input : ι) :
    CacheLabel.Below pool ((plain input).seek feed) ((plain input).read (β := β) feed) where
  seeks P position := Site.onStore_matches _
  reads P position len s s' h := by
    simp only [Source.read, h.store]
    exact ⟨trivial, h.tier, rfl⟩
  within position len s := hfeed input position len s.store

theorem read_sharing (hfeed : ∀ input position len s, (feed.read input position len s).1.Within len)
    {source : Source ι} (hsource : source.Shallow pool) (position len : Nat)
    (h : Site.Sharing pool (ScratchPool.Holding a) s s') :
    (source.read feed position len s).1 = (source.read feed position len s').1 ∧
      Site.Sharing pool (ScratchPool.Holding (CacheLabel.lent (source.loads feed position len s) a))
        (source.read feed position len s).2 (source.read feed position len s').2 := by
  cases hsource with
  | plain input =>
    simp only [Source.read, h.store]
    exact ⟨trivial, h.tier, rfl⟩
  | cached input label hpool =>
    have hread (s : Site β) : (cached (plain input) label).read feed position len s =
      label.read ((plain input).seek feed) ((plain input).read feed) position len s := rfl
    rw [hread, hread]
    unfold CacheLabel.read
    cases hpast : readPastEof label.name position len label.length with
    | some e =>
      simp only [loads, hpast]
      exact ⟨trivial, h⟩
    | none =>
      have hin : position + len ≤ label.length := by
        unfold readPastEof at hpast
        split at hpast
        · cases hpast
        · omega
      simp only [loads, hpast]
      refine CacheLabel.fill_sharing (below_plain hfeed input) hpool ?_ ByteArray.empty h
      intro span hspan
      have hwithin := Grid.within_of_mem span hspan
      have hupper := hwithin.upper
      exact ⟨hwithin.fits, by omega⟩

theorem seek_sharing {source : Source ι} (hsource : source.Shallow pool) (P : ScratchPool → Prop)
    (position : Nat) :
    Matches (Site.Sharing (β := β) pool P) Eq (source.seek feed position)
      (source.seek feed position) := by
  cases hsource with
  | plain input => exact Site.onStore_matches _
  | cached input label hpool => exact .pure rfl

theorem clone_sharing {source : Source ι} (hsource : source.Shallow pool)
    (P : ScratchPool → Prop) :
    Matches (Site.Sharing (β := β) pool P) (Same (Shallow pool)) (source.clone feed)
      (source.clone feed) := by
  cases hsource with
  | plain input => exact (Site.onStore_matches _).map fun i j h => ⟨h ▸ rfl, .plain i⟩
  | cached input label hpool =>
    have hbelow : Matches (Site.Sharing pool P) (Same fun i => ∃ input, i = plain input)
        ((plain input).clone feed) ((plain input).clone feed) :=
      (Site.onStore_matches _).map fun i _ h => ⟨h ▸ rfl, i, rfl⟩
    refine hbelow.map ?_
    rintro _ _ ⟨rfl, input, rfl⟩
    exact ⟨rfl, .cached input label hpool⟩

end Source

section Writing

variable {δ β : Type} {pool : Nat} {P : ScratchPool → Prop} {good : δ → Prop}

-- Calls on a sink go side by side whatever buffers there are.
structure Sink.Shares (pool : Nat) (good : δ → Prop) (sink : Sink δ (Site β)) : Prop where
  write : ∀ P data, Matches (Joined (Same good) (Site.Sharing pool P)) Eq (sink.write data)
    (sink.write data)
  flush : ∀ P, Matches (Joined (Same good) (Site.Sharing pool P)) Eq sink.flush sink.flush
  close : ∀ P, Matches (Joined (Same good) (Site.Sharing pool P)) Eq sink.close sink.close
  drop : ∀ P o s s', good o → Site.Sharing pool P s s' →
    Site.Sharing pool P (sink.drop o s) (sink.drop o s')

namespace CachedWriter

variable {sink : Sink δ (Site β)} {w : CachedWriter δ (Site β)}

-- A writer on a stream that shares, whose final name is settled alike on both sides.
def Shared (pool : Nat) (good : δ → Prop) (w : CachedWriter δ (Site β)) : Prop :=
  good w.below ∧ ∀ settle ∈ w.settle, ∀ P, Matches (Site.Sharing pool P) Eq settle settle

abbrev Alongside (pool : Nat) (P : ScratchPool → Prop) (good : δ → Prop) :
    CachedWriter δ (Site β) × Site β → CachedWriter δ (Site β) × Site β → Prop :=
  Joined (Same (Shared pool good)) (Site.Sharing pool P)

-- After a look at the writer both go on with the same action.
theorem get_alongside {α : Type} {f : CachedWriter δ (Site β) × Site β → Run δ β α}
    (hf : ∀ w s s', Shared pool good w → f (w, s) = f (w, s') ∧
      Matches (Alongside pool P good) Eq (f (w, s)) (f (w, s))) :
    Matches (Alongside pool P good) Eq (get >>= f) (get >>= f) := by
  refine .get ?_
  rintro ⟨w, s⟩ ⟨_, s'⟩ ⟨⟨hsame, hw⟩, hs⟩
  cases hsame
  obtain ⟨heq, hmatches⟩ := hf w s s' hw
  rw [← heq]
  exact hmatches _ _ ⟨⟨rfl, hw⟩, hs⟩

theorem modifyWriter_alongside {f : CachedWriter δ (Site β) → CachedWriter δ (Site β)}
    (hf : ∀ w, Shared pool good w → Shared pool good (f w)) :
    Matches (Alongside pool P good) Eq (modifyWriter f) (modifyWriter f) := by
  refine .modify ?_
  rintro ⟨w, s⟩ ⟨_, s'⟩ ⟨⟨hsame, hw⟩, hs⟩
  cases hsame
  exact ⟨⟨rfl, hf w hw⟩, hs⟩

theorem onTier_alongside {α : Type} {x : Act Tier α}
    (hx : Matches (Tier.Sharing pool P) Eq x x) :
    Matches (Alongside pool P good) Eq (onTier x : Run δ β α) (onTier x) :=
  (Site.onTier_matches hx).onPart (fun _ _ h => h.2) fun _ _ _ _ h hs => ⟨h.1, hs⟩

theorem onBelow_alongside {α : Type} {x : Act (δ × Site β) α}
    (hx : Matches (Joined (Same good) (Site.Sharing pool P)) Eq x x) :
    Matches (Alongside pool P good) Eq (onBelow x) (onBelow x) := by
  refine hx.onPart ?_ ?_
  · rintro ⟨w, s⟩ ⟨_, s'⟩ ⟨⟨hsame, hw⟩, hs⟩
    cases hsame
    exact ⟨⟨rfl, hw.1⟩, hs⟩
  · rintro ⟨w, s⟩ ⟨_, s'⟩ ⟨o, t⟩ ⟨_, t'⟩ ⟨⟨hsame, hw⟩, _⟩ ⟨⟨hout, ho⟩, ht⟩
    cases hsame
    cases hout
    exact ⟨⟨rfl, ho, hw.2⟩, ht⟩

theorem requireOpen_alongside :
    Matches (Alongside pool P good) Eq (requireOpen sink) (requireOpen sink) := by
  refine get_alongside fun w s s' hw => ⟨rfl, ?_⟩
  dsimp only
  split
  · exact .fail _
  · exact .pure rfl

theorem passStaged_alongside (hsink : sink.Shares pool good) :
    Matches (Alongside pool P good) Eq (passStaged sink) (passStaged sink) := by
  refine get_alongside fun w s s' hw => ⟨rfl, ?_⟩
  dsimp only
  split
  · exact .pure rfl
  · refine (Matches.lift _).bind ?_
    rintro fresh _ rfl
    refine (onBelow_alongside (hsink.write P fresh)).bind fun _ _ _ => ?_
    refine (modifyWriter_alongside ?_).bind fun _ _ _ => ?_
    · exact fun w hw => hw
    exact onTier_alongside (Tier.update_matches _ _ _ _)

theorem stage_alongside (hsink : sink.Shares pool good) (data : Bytes) :
    Matches (Alongside pool P good) Eq (stage sink data) (stage sink data) := by
  refine (modifyWriter_alongside ?_).bind fun _ _ _ => ?_
  · exact fun w hw => hw
  refine get_alongside fun w s s' hw => ⟨rfl, ?_⟩
  dsimp only
  split
  · exact (passStaged_alongside hsink).bind fun _ _ _ => modifyWriter_alongside fun w hw => hw
  · exact .pure rfl

theorem write_alongside (hsink : sink.Shares pool good) (data : Bytes) :
    Matches (Alongside pool P good) Eq (write sink data) (write sink data) := by
  refine requireOpen_alongside.bind fun _ _ _ => ?_
  refine get_alongside fun w s s' hw => ⟨rfl, ?_⟩
  dsimp only
  split
  · exact fun _ _ hs => .error hs
  · exact .forM fun piece _ => stage_alongside hsink piece

theorem flush_alongside (hsink : sink.Shares pool good) :
    Matches (Alongside pool P good) Eq (flush sink) (flush sink) := by
  refine requireOpen_alongside.bind fun _ _ _ => ?_
  exact (passStaged_alongside hsink).bind fun _ _ _ => onBelow_alongside (hsink.flush P)

theorem settleName_alongside (location : String) (name : Except StorageError String) :
    Matches (Alongside (β := β) pool P good) Eq (settleName location name)
      (settleName location name) := by
  cases name with
  | ok final => exact onTier_alongside (Tier.rename_matches location final)
  | error e => exact (onTier_alongside (Tier.delete_matches location)).bind fun _ _ _ => .fail e

theorem close_alongside (hsink : sink.Shares pool good) :
    Matches (Alongside pool P good) Eq (close sink) (close sink) := by
  refine get_alongside fun w s s' hw => ⟨rfl, ?_⟩
  dsimp only
  split
  · exact .pure rfl
  · next settle hsettle =>
    refine (modifyWriter_alongside ?_).bind fun _ _ _ => ?_
    · exact fun w hw => ⟨hw.1, fun _ hnone => by simp at hnone⟩
    refine (passStaged_alongside hsink).bind fun _ _ _ => ?_
    refine (onBelow_alongside (hsink.close P)).bind fun _ _ _ => ?_
    have hname := (hw.2 settle hsettle P).attempt
    refine (hname.onPart (fun _ _ h => h.2) fun _ _ _ _ h hs => ⟨h.1, hs⟩).bind ?_
    rintro name _ rfl
    exact settleName_alongside w.location name

theorem asSink_shares (hsink : sink.Shares pool good) :
    (asSink sink).Shares pool (Shared pool good) where
  write _ data := write_alongside hsink data
  flush _ := flush_alongside hsink
  close _ := close_alongside hsink
  drop P w s s' hw hs := hsink.drop P w.below s s' hw.1 hs

end CachedWriter

namespace Output

variable {ο : Type} {plainSink : Sink ο β}

-- Every layer of the output settles its name alike on both sides.
def Shared (pool : Nat) : (n : Nat) → Layered ο (Site β) n → Prop
  | 0 => fun _ => True
  | n + 1 => CachedWriter.Shared (β := β) pool (Shared pool n)

theorem plainSink_shares (sink : Sink ο β) :
    (Output.plainSink sink).Shares pool fun _ => True := by
  have hraise (P : ScratchPool → Prop) (x : Act (ο × β) Unit) :
      Matches (Joined (Same fun _ => True) (Site.Sharing pool P)) Eq
        (onPart (fun p => (p.1, p.2.store)) (fun p q => (q.1, { p.2 with store := q.2 })) x)
        (onPart (fun p => (p.1, p.2.store)) (fun p q => (q.1, { p.2 with store := q.2 })) x) := by
    refine (Matches.refl x).onPart ?_ ?_
    · rintro ⟨o, s⟩ ⟨_, s'⟩ ⟨⟨hsame, _⟩, hs⟩
      cases hsame
      exact Prod.ext rfl hs.store.symm
    · rintro ⟨o, s⟩ ⟨_, s'⟩ r _ ⟨_, hs⟩ rfl
      exact ⟨⟨rfl, trivial⟩, hs.tier, rfl⟩
  refine ⟨fun P data => hraise P _, fun P => hraise P _, fun P => hraise P _, ?_⟩
  intro P o s s' _ hs
  exact ⟨hs.tier, by simp [Output.plainSink, hs.store]⟩

theorem layeredSink_shares (sink : Sink ο β) (n : Nat) :
    (layeredSink sink n).Shares pool (Shared pool n) := by
  induction n with
  | zero => exact plainSink_shares sink
  | succ n ih => exact CachedWriter.asSink_shares ih

-- An output of any number of layers.
def Settled (pool : Nat) (o : Output ο β) : Prop := Shared pool o.layers o.stream

theorem onStream_alongside {x : (n : Nat) → Act (Layered ο (Site β) n × Site β) Unit}
    (hx : ∀ n, Matches (Joined (Same (Shared pool n)) (Site.Sharing pool P)) Eq (x n) (x n)) :
    Matches (Joined (Same (Settled pool)) (Site.Sharing pool P)) Eq (onStream x) (onStream x) := by
  rintro ⟨⟨n, stream⟩, s⟩ ⟨_, s'⟩ ⟨⟨hsame, ho⟩, hs⟩
  cases hsame
  have hmet := hx n (stream, s) (stream, s') ⟨⟨rfl, ho⟩, hs⟩
  obtain ⟨_, _, o, _, t, t', hr, hr', hsame, ⟨rfl, hgood⟩, ht⟩ |
    ⟨e, o, _, t, t', hr, hr', ⟨rfl, hgood⟩, ht⟩ := hmet.joined
  · simp only [onStream, hr, hr']
    exact .ok hsame ⟨⟨rfl, hgood⟩, ht⟩
  · simp only [onStream, hr, hr']
    exact .error ⟨⟨rfl, hgood⟩, ht⟩

theorem sink_shares (sink : Sink ο β) : (Output.sink sink).Shares pool (Settled pool) where
  write P data := onStream_alongside fun n => (layeredSink_shares sink n).write P data
  flush P := onStream_alongside fun n => (layeredSink_shares sink n).flush P
  close P := onStream_alongside fun n => (layeredSink_shares sink n).close P
  drop P o s s' ho hs := (layeredSink_shares sink o.layers).drop P o.stream s s' ho hs

end Output

end Writing

end Blockwise
