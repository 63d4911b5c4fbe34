import Blockwise.Proofs.Ranges
import Blockwise.Proofs.Tier
import Blockwise.Stream.CachedReader

namespace Blockwise

open Act

namespace Site

variable {β α : Type} {s : Site β}

@[simp] theorem ends_onTier {x : Act Tier α} {done : α → Site β → Prop}
    {failed : Failure → Site β → Prop} :
    Ends (onTier x) s done failed ↔ Ends x s.tier (fun a tier => done a { s with tier })
      (fun e tier => failed e { s with tier }) := ends_onPart

@[simp] theorem ends_onStore {x : Act β α} {done : α → Site β → Prop}
    {failed : Failure → Site β → Prop} :
    Ends (onStore x) s done failed ↔ Ends x s.store (fun a store => done a { s with store })
      (fun e store => failed e { s with store }) := ends_onPart

end Site

namespace Delivery

variable {name : String} {file : Bytes} {position len : Nat}

theorem into_refused (e : StorageError) (buffer : Bytes) : (refused e).into buffer = buffer := by
  refine Bytes.ext_getElem? fun i => ?_
  rw [refused, into, Bytes.getElem?_overlay (by simp), if_neg (by simp)]

-- What a read of a whole file in memory delivers.
def ofFile (name : String) (file : Bytes) (position len : Nat) : Delivery :=
  match readPastEof name position len file.size with
  | some e => .refused e
  | none => ⟨Bytes.slice file position len, none⟩

theorem ofFile_of_le (name : String) (h : position + len ≤ file.size) :
    ofFile name file position len = ⟨Bytes.slice file position len, none⟩ := by
  rw [ofFile, readPastEof, if_neg (Nat.not_lt.mpr h)]

theorem ofFile_of_lt (name : String) (h : file.size < position + len) :
    ofFile name file position len = .refused (.readPastEof name position file.size) := by
  rw [ofFile, readPastEof, if_pos h]

-- A delivery without a failure is the range that was asked for.
theorem eq_of_ofFile {bytes : Bytes} (h : ⟨bytes, none⟩ = ofFile name file position len) :
    position + len ≤ file.size ∧ bytes = Bytes.slice file position len := by
  by_cases hin : position + len ≤ file.size
  · rw [ofFile_of_le name hin] at h
    exact ⟨hin, congrArg Delivery.bytes h⟩
  · rw [ofFile_of_lt name (Nat.lt_of_not_le hin)] at h
    cases h

end Delivery

-- An input that delivers a file, as long as its store is in the states given. A sure one fails only
-- where the file does not reach.
structure Feed.Serves {ι σ : Type} (feed : Feed ι σ) (input : ι) (name : String) (file : Bytes)
    (states : σ → Prop) (sure : Prop) : Prop where
  seek : ∀ position s, states s →
    Ends (feed.seek input position) s (fun _ => states) (fun _ s' => states s' ∧ ¬sure)
  read : ∀ position len s, states s → states (feed.read input position len s).2 ∧
    ((feed.read input position len s).1.failure = none ∨ sure →
      (feed.read input position len s).1 = .ofFile name file position len)

namespace CacheLabel

variable {ι β : Type} {feed : Feed ι (Site β)} {input : ι} {name : String} {file : Bytes}
  {states : β → Prop} {sure : Prop} {pool : Nat} {claims : String → Bytes → Prop}
  {label : CacheLabel} {s : Site β} {span : Grid.Span}

-- The claims of a site hold and its store is in one of the states given.
structure Steady (pool : Nat) (claims : String → Bytes → Prop) (states : β → Prop) (s : Site β) :
    Prop where
  honest : s.tier.Honest pool claims
  states : states s.store

-- The label names the file and a pool that is there, and nothing else is claimed under its name.
structure Names (label : CacheLabel) (pool : Nat) (file : Bytes) (claims : String → Bytes → Prop) :
    Prop where
  length : label.length = file.size
  pool : label.pool ≤ pool
  only : ∀ other, claims label.cacheName other → other = file

theorem Steady.tier (hs : Steady pool claims states s) {t : Tier} (ht : t.Honest pool claims) :
    Steady pool claims states { s with tier := t } := ⟨ht, hs.states⟩

theorem slice_into (d : Delivery) (buffer : Bytes) (h : d.bytes.size ≤ buffer.size) :
    Bytes.slice (d.into buffer) 0 d.bytes.size = d.bytes := by
  refine Bytes.ext_getElem? fun i => ?_
  rw [Bytes.getElem?_slice, Delivery.into, Bytes.getElem?_overlay (by omega)]
  by_cases hi : i < d.bytes.size
  · rw [if_pos hi, if_pos ⟨Nat.zero_le _, by omega⟩, Nat.zero_add, Nat.sub_zero]
  · rw [if_neg hi, getElem?_neg d.bytes i hi]

-- Whatever the scratch buffer held, its start is the block of the file after the read, and its size
-- is the same.
theorem filled_spec {start n : Nat} {scratch block : Bytes} (h : start + n ≤ file.size)
    (hscratch : n ≤ scratch.size)
    (hblock : block = Bytes.padTo
      (Bytes.slice (Delivery.into ⟨Bytes.slice file start n, none⟩ scratch) 0 n)
      (Delivery.into ⟨Bytes.slice file start n, none⟩ scratch).size) :
    block.size = scratch.size ∧ ∀ i < n, block[i]? = file[start + i]? := by
  have hsize : (Bytes.slice file start n).size = n := Bytes.size_slice_of_le h
  have hinto := slice_into ⟨Bytes.slice file start n, none⟩ scratch (by rw [hsize]; exact hscratch)
  rw [hsize] at hinto
  have hkept : (Delivery.into ⟨Bytes.slice file start n, none⟩ scratch).size = scratch.size :=
    Bytes.size_overlay (by rw [hsize, Nat.zero_add]; exact hscratch)
  rw [hinto, hkept] at hblock
  subst hblock
  refine ⟨?_, fun i hi => ?_⟩
  · rw [Bytes.size_padTo, hsize]
    omega
  · rw [Bytes.getElem?_padTo, hsize, if_pos hi, Bytes.getElem?_slice, if_pos hi]

theorem part_of_le {b : Bytes} {start stop : Nat} (hstart : start ≤ stop) (hstop : stop ≤ b.size) :
    b.part start stop = .ok (Bytes.slice b start (stop - start)) := if_pos ⟨hstart, hstop⟩

-- A span that lies in one block of a file.
structure Fits (span : Grid.Span) (file : Bytes) : Prop where
  offset : span.offset + span.length ≤ Grid.blockSize
  inside : Grid.start span.block + span.offset + span.length ≤ file.size

-- A block of the file can be published at any time.
theorem publish_ends (hnames : label.Names pool file claims) (hs : Steady pool claims states s)
    {index : Nat} {block : Bytes} (hsize : block.size = Grid.blockSize)
    (hblock : ∀ i < Grid.blockSize, ∀ y, file[Grid.start index + i]? = some y →
      block[i]? = some y) :
    Ends (Site.onTier (Tier.update label.cacheName index 0 block)) s
      (fun _ s' => Steady pool claims states s') (fun _ _ => False) := by
  rw [Site.ends_onTier]
  refine (Tier.update_ends hs.honest.sound hs.honest.stocked
    (fun name data hclaim block' _ => hs.honest.shows name data hclaim block') ?_).imp ?_ ?_
  · intro other hclaim
    obtain rfl := hnames.only other hclaim
    exact hblock
  · exact fun _ t ht => hs.tier ht
  · intro _ t hrefused
    obtain ⟨hlong, _⟩ := hrefused
    omega

-- The block is read whole, and what is published of it is the file.
theorem loadBlock_ends (hserves : feed.Serves input name file (Steady pool claims states) sure)
    (hnames : label.Names pool file claims) (hs : Steady pool claims states s)
    (hspan : Fits span file) :
    Ends (label.loadBlock (feed.seek input) (feed.read input) span) s
      (fun bytes s' => Steady pool claims states s' ∧
        bytes = Bytes.slice file (Grid.start span.block + span.offset) span.length)
      (fun _ s' => Steady pool claims states s' ∧ ¬sure) := by
  obtain ⟨hoffset, hinside⟩ := hspan
  have hlength := hnames.length
  have hstart : ¬label.length < Grid.start span.block := by omega
  obtain ⟨n, hn⟩ : ∃ n, min Grid.blockSize (label.length - Grid.start span.block) = n := ⟨_, rfl⟩
  have hfile : Grid.start span.block + n ≤ file.size := by omega
  simp only [loadBlock, if_neg hstart, hn, ends_bind]
  refine (hserves.seek _ _ hs).imp ?_ fun _ _ => id
  intro _ s₁ hs₁
  simp only [Site.ends_onTier]
  refine (Tier.borrow_ends hs₁.honest hnames.pool _).imp ?_ fun _ _ => False.elim
  intro scratch t hborrowed
  obtain ⟨ht, hscratch⟩ := hborrowed
  have hroom : n ≤ scratch.size := by omega
  simp only [part_of_le (Nat.zero_le n) hroom, ends_lift_ok, ends_modifyGet]
  obtain ⟨hs, hdelivered⟩ := hserves.read (Grid.start span.block) n _ (hs₁.tier ht)
  rcases hread : feed.read input (Grid.start span.block) n { s₁ with tier := t } with
    ⟨⟨got, failure⟩, s₂⟩
  rw [hread, Delivery.ofFile_of_le name hfile] at hdelivered
  rw [hread] at hs
  dsimp only
  cases failure with
  | some e =>
    simp only [ends_bind, Site.ends_onTier, Tier.ends_giveBack, ends_throw]
    exact ⟨hs.tier (hs.honest.giveBack _ _), fun hsure =>
      Option.some_ne_none e (congrArg Delivery.failure (hdelivered (.inr hsure)))⟩
  | none =>
  obtain rfl : got = Bytes.slice file (Grid.start span.block) n :=
    congrArg Delivery.bytes (hdelivered (.inl rfl))
  generalize hblock : Bytes.padTo _ _ = block
  obtain ⟨hsize, hbyte⟩ := filled_spec hfile hroom hblock.symm
  rw [hscratch] at hsize
  have hcut : span.offset + span.length ≤ block.size := by omega
  simp only [ends_bind, part_of_le (Nat.le_add_right span.offset span.length) hcut, ends_lift_ok]
  refine (publish_ends hnames hs hsize ?_).imp ?_ fun _ _ => False.elim
  · intro i hi y hy
    have hlt : Grid.start span.block + i < file.size := (getElem?_eq_some_iff.mp hy).1
    rw [hbyte i (by omega), hy]
  · intro _ s' hs'
    simp only [Site.ends_onTier, Tier.ends_giveBack, ends_pure]
    refine ⟨hs'.tier (hs'.honest.giveBack _ _), ?_⟩
    rw [Nat.add_sub_cancel_left]
    refine Bytes.eq_slice_of_getElem? (Bytes.size_slice_of_le hcut) fun i hi => ?_
    rw [Bytes.getElem?_slice, if_pos hi, hbyte _ (by omega), Nat.add_assoc]

-- A hit is the file only if the file is claimed.
theorem readSpan_ends (hserves : feed.Serves input name file (Steady pool claims states) sure)
    (hnames : label.Names pool file claims) (hs : Steady pool claims states s)
    (hspan : Fits span file) :
    Ends (label.readSpan (feed.seek input) (feed.read input) span) s
      (fun bytes s' => Steady pool claims states s' ∧ (claims label.cacheName file →
        bytes = Bytes.slice file (Grid.start span.block + span.offset) span.length))
      (fun _ s' => Steady pool claims states s' ∧ ¬sure) := by
  have ⟨hoffset, hinside⟩ := hspan
  simp only [readSpan, ends_bind, Site.ends_onTier]
  refine (Tier.fetch_ends hs.honest _ _ _ _).imp ?_ ?_
  · rintro (_ | bytes) t ⟨ht, hfound⟩
    · exact (loadBlock_ends hserves hnames (hs.tier ht) hspan).imp
        (fun _ _ h => ⟨h.1, fun _ => h.2⟩) fun _ _ => id
    · refine ⟨hs.tier ht, fun hclaimed => ?_⟩
      obtain ⟨hsize, hbytes⟩ := hfound bytes rfl
      refine Bytes.eq_slice_of_getElem? hsize fun i hi => ?_
      have hx : bytes[i]? = some bytes[i] := getElem?_pos bytes i (hsize ▸ hi)
      have hlt : Grid.start span.block + (span.offset + i) < file.size := by omega
      have hy := getElem?_pos file (Grid.start span.block + (span.offset + i)) hlt
      rw [Nat.add_assoc, hy, hx]
      have hshown := hbytes i hi
      rw [hx] at hshown
      exact congrArg some (hs.honest.shows _ _ hclaimed span.block (span.offset + i) (by omega)
        _ _ hshown.symm hy)
  · intro _ t hfailed
    obtain ⟨_, hlong⟩ := hfailed
    omega

-- A read that is cut at the grid delivers the range of the file, or a part of it up to the first
-- block that fails.
theorem fill_spans {part : Grid.Span → Act (Site β) Bytes} {inv : Site β → Prop} {right : Prop}
    (hpart : ∀ span s, inv s → Fits span file → Ends (part span) s
      (fun bytes s' => inv s' ∧ (right →
        bytes = Bytes.slice file (Grid.start span.block + span.offset) span.length))
      (fun _ s' => inv s' ∧ ¬sure))
    (position len : Nat) (got : Bytes) (h : inv s) (hin : position + len ≤ file.size) :
    inv (fill part (Grid.spans position len) got s).2 ∧
      (right → (fill part (Grid.spans position len) got s).1.failure = none ∨ sure →
        (fill part (Grid.spans position len) got s).1 =
          ⟨got ++ Bytes.slice file position len, none⟩) := by
  induction position, len using Grid.spans.induct generalizing got s with
  | case1 position =>
    rw [Grid.spans, if_pos rfl]
    refine ⟨h, fun _ _ => ?_⟩
    rw [fill, Bytes.slice_zero, ByteArray.append_empty]
  | case2 position len hlen n =>
    rename_i ih
    have hn : min len (Grid.blockSize - Grid.offset position) = n := rfl
    rw [Grid.spans, if_neg hlen]
    simp only [hn]
    clear_value n
    have hoffset := Grid.offset_lt position
    have hstart := Grid.start_add_offset position
    have hfits : Fits ⟨Grid.block position, Grid.offset position, n⟩ file := by
      refine ⟨?_, ?_⟩
      · show Grid.offset position + n ≤ Grid.blockSize
        omega
      · show Grid.start (Grid.block position) + Grid.offset position + n ≤ file.size
        omega
    have hends := hpart ⟨Grid.block position, Grid.offset position, n⟩ s h hfits
    simp only [fill]
    cases hrun : part ⟨Grid.block position, Grid.offset position, n⟩ s with
    | error e s' =>
      obtain ⟨hinv, hunsure⟩ := hends.error hrun
      exact ⟨hinv, fun _ hcase => hcase.elim (fun hnone => absurd hnone (Option.some_ne_none e))
        fun h => absurd h hunsure⟩
    | ok bytes s' =>
      obtain ⟨hinv, hbytes⟩ := hends.ok hrun
      obtain ⟨hrest, hdone⟩ := ih (got ++ bytes) hinv (by omega)
      refine ⟨hrest, fun hright hcase => ?_⟩
      rw [hdone hright hcase, hbytes hright]
      show (⟨got ++ Bytes.slice file (Grid.start (Grid.block position) + Grid.offset position) n ++
        Bytes.slice file (position + n) (len - n), none⟩ : Delivery) = _
      rw [hstart, ByteArray.append_assoc, Bytes.slice_append_slice hin (by omega)]

-- A cached input serves the file that it is labelled with, as far as the file is claimed.
theorem read_spec (hserves : feed.Serves input name file (Steady pool claims states) sure)
    (hnames : label.Names pool file claims) (hs : Steady pool claims states s)
    (position len : Nat) :
    Steady pool claims states (label.read (feed.seek input) (feed.read input) position len s).2 ∧
      (claims label.cacheName file →
        (label.read (feed.seek input) (feed.read input) position len s).1.failure = none ∨ sure →
        (label.read (feed.seek input) (feed.read input) position len s).1 =
          .ofFile label.name file position len) := by
  rw [CacheLabel.read, hnames.length]
  by_cases hin : position + len ≤ file.size
  · obtain ⟨hsteady, hdone⟩ := fill_spans (fun span s hs hfits =>
      readSpan_ends hserves hnames hs hfits) position len ByteArray.empty hs hin
    rw [readPastEof, if_neg (Nat.not_lt.mpr hin), Delivery.ofFile_of_le label.name hin]
    refine ⟨hsteady, fun hclaimed hcase => ?_⟩
    rw [hdone hclaimed hcase, ByteArray.empty_append]
  · have hpast := Nat.lt_of_not_le hin
    rw [readPastEof, if_pos hpast, Delivery.ofFile_of_lt label.name hpast]
    exact ⟨hs, fun _ _ => rfl⟩

end CacheLabel

namespace Source

open CacheLabel

variable {ι β : Type} {feed : Feed ι β} {input : ι} {below : Source ι} {name : String} {file : Bytes}
  {states : β → Prop} {sure : Prop} {pool : Nat} {claims : String → Bytes → Prop} {label : CacheLabel}

-- A plain input leaves the tier alone.
theorem plain_serves (hserves : feed.Serves input name file states sure) :
    (Source.feed feed).Serves (.plain input) name file (Steady pool claims states) sure where
  seek position s hs := by
    show Ends (Site.onStore (feed.seek input position)) s _ _
    rw [Site.ends_onStore]
    exact (hserves.seek position s.store hs.states).imp (fun _ _ hstore => ⟨hs.honest, hstore⟩)
      fun _ _ hfailed => ⟨⟨hs.honest, hfailed.1⟩, hfailed.2⟩
  read position len s hs := by
    obtain ⟨hstore, hread⟩ := hserves.read position len s.store hs.states
    exact ⟨⟨hs.honest, hstore⟩, hread⟩

-- A caching layer serves what is claimed under its name, whatever lies below it.
theorem cached_serves
    (hserves : (Source.feed feed).Serves below name file (Steady pool claims states) sure)
    (hnames : label.Names pool file claims) (hclaimed : claims label.cacheName file) :
    (Source.feed feed).Serves (.cached below label) label.name file (Steady pool claims states)
      sure where
  seek _ _ hs := hs
  read position len _ hs := by
    obtain ⟨hsteady, hread⟩ := read_spec hserves hnames hs position len
    exact ⟨hsteady, hread hclaimed⟩

end Source

end Blockwise
