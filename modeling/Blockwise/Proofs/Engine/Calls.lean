import Blockwise.Proofs.Engine.Sound

namespace Blockwise

namespace Engine

open Act

variable {K : Type} {e e' : Engine K} {m m' : Metered (Engine K)} {held : List Nat} {key key' : K}
  {n offset len : Nat} {data : Bytes}

-- Tables that are all full take every place there is.
theorem blocksTaken_of_full {slots : List Occupancy} {size : Nat}
    (hlen : ∀ t ∈ slots, t.len = size) (hfull : ∀ t ∈ slots, t.isFull = true) :
    slots.length * size ≤ slots.foldr (fun t total => t.occupied + total) 0 := by
  induction slots with
  | nil => simp
  | cons t rest ih =>
    obtain ⟨ht, hrest⟩ := List.forall_mem_cons.mp hlen
    obtain ⟨hf, hfrest⟩ := List.forall_mem_cons.mp hfull
    have ih := ih hrest hfrest
    rw [Occupancy.isFull, decide_eq_true_eq] at hf
    rw [List.length_cons, Nat.add_mul, Nat.one_mul, List.foldr_cons]
    omega

-- The index holds one block less than there are, so a claim always finds one.
theorem claim_ends (hs : m.part.Sound) :
    Ends claim m
      (fun found m' => found = some m.part.index.spots.size ∧
        m'.part.Holds (m.part.index.spots.size :: m.part.index.held) ∧ Frame m.part m'.part ∧
        m'.part.index.entries = m.part.index.entries ∧ m'.part.arena = m.part.arena ∧
        m'.tally = m.tally)
      (fun _ _ => False) := by
  have h := hs.holds
  have hspec := claimIn_spec h.owned.sound
  have hpasses : claimFree m.part.slots claimPasses = claimIn m.part.slots :=
    claimFree_succ h.owned.sound 9
  rcases hclaim : claimIn m.part.slots with ⟨_ | ⟨bank, block⟩, slots⟩
  · rw [hclaim] at hspec
    have hfull := blocksTaken_of_full h.slot_len hspec.2
    have htaken := h.owned.blocksTaken_eq
    have hlen : m.part.index.entries.length ≤ m.part.capacity := hs.len_le
    have hcapacity := hs.capacity_succ
    rw [h.slots_length] at hfull
    simp only [Recency.held, List.length_map] at htaken
    omega
  · rw [hclaim] at hspec
    obtain ⟨t, ht, hfirst, rfl, _⟩ := hspec
    have hfree := t.firstFree_spec 0
    rw [hfirst] at hfree
    obtain ⟨_, hblock, hbit, _⟩ := hfree
    have hold : ∀ i < m.part.index.spots.size,
        (m.part.index.enroll { bank, block }).2.spot i = m.part.index.spot i := by
      intro i hi
      rw [Recency.spot_enroll, if_neg (by omega)]
    have hnew : (m.part.index.enroll { bank, block }).2.spot m.part.index.spots.size =
        { bank, block } := by rw [Recency.spot_enroll, if_pos rfl]
    have hsize : (m.part.index.enroll { bank, block }).2.spots.size =
        m.part.index.spots.size + 1 := Array.size_push _
    simp only [claim, ends_bind, ends_get, hpasses, hclaim, ends_modifyEngine, ends_onIndex,
      ends_pure]
    refine ⟨rfl, ⟨h.arena, ?_, ?_, ?_, ?_⟩, ⟨rfl, rfl, rfl, rfl, ?_, ?_⟩, rfl, trivial, trivial⟩
    · simpa using h.slots_length
    · intro t' ht'
      rcases List.mem_or_eq_of_mem_set ht' with ht' | rfl
      · exact h.slot_len t' ht'
      · rw [Occupancy.claim_len]
        exact h.slot_len t (List.mem_of_getElem? ht)
    · intro n hn
      rcases List.mem_cons.mp hn with rfl | hn
      · rw [hnew, hsize]
        exact ⟨Nat.lt_succ_self _, rfl⟩
      · obtain ⟨hlt, hlive⟩ := h.live n hn
        rw [hold n hlt, hsize]
        exact ⟨Nat.lt_succ_of_lt hlt, hlive⟩
    · have hplaces : m.part.index.held.map (m.part.index.enroll { bank, block }).2.place =
          m.part.index.held.map m.part.index.place := by
        refine List.map_congr_left fun n hn => ?_
        rw [Recency.place, hold n (h.live n hn).1, Recency.place]
      rw [List.map_cons, hplaces, Recency.place, hnew]
      exact h.owned.claim ht hblock hbit
    · rw [hsize]
      exact Nat.le_succ _
    · intro n hn
      rw [Recency.place, hold n hn, Recency.place]

-- A write into a spot in use changes its own bytes in its own range.
theorem Holds.write_ok (h : e.Holds held) (hn : n ∈ held)
    (hrange : offset + data.size ≤ e.arena.blockSize) :
    ∃ arena, e.arena.write (e.index.spot n).bank (e.index.spot n).block offset data = .ok arena ∧
      Holds { e with arena } held ∧ Frame e { e with arena } ∧
      ∀ n' ∈ held, ∀ i < e.arena.blockSize, spotByte { e with arena } n' i =
        if n' = n ∧ offset ≤ i ∧ i < offset + data.size then data[i - offset]?.getD 0
        else e.spotByte n' i := by
  obtain ⟨hbank, hblock⟩ := h.place_lt hn
  obtain ⟨banks, hwrite, hlength, hsound, hbytes⟩ := h.arena.write_ok hbank hblock hrange
  refine ⟨_, hwrite, ⟨hsound, h.slots_length.trans hlength.symm, h.slot_len, h.live, h.owned⟩,
    ⟨rfl, rfl, hlength, rfl, Nat.le_refl _, fun _ _ => rfl⟩, ?_⟩
  intro n' hn' i hi
  rw [spotByte, hbytes _ _ i hi]
  by_cases hsame : n' = n
  · subst hsame
    simp only [true_and]
    rfl
  · have hplace : ¬((e.index.spot n').bank = (e.index.spot n).bank ∧
        (e.index.spot n').block = (e.index.spot n).block) := by
      intro hplace
      obtain ⟨hb, hk⟩ := hplace
      exact hsame (h.place_inj hn' hn (Prod.ext hb hk))
    rw [if_neg fun hin => hplace ⟨hin.1, hin.2.1⟩, if_neg fun hin => hsame hin.1]
    rfl

variable [DecidableEq K]

theorem byteAt_of_peek (h : e.index.peek key = some n) (i : Nat) :
    e.byteAt key i = some (e.spotByte n i) := by
  rw [byteAt, h]
  rfl

theorem mem_keys_of_byteAt {i : Nat} {byte : UInt8} (h : e.byteAt key i = some byte) :
    key ∈ e.keys := by
  obtain ⟨n, hn, _⟩ := Option.map_eq_some_iff.mp h
  exact Recency.mem_keys_iff.mpr ⟨n, hn⟩

theorem Sound.peek_of_mem (hs : e.Sound) (h : key ∈ e.keys) :
    ∃ n ∈ e.index.held, e.index.peek key = some n := by
  obtain ⟨n, hn⟩ := Recency.mem_keys_iff.mp h
  exact ⟨n, hs.mem_held hn, hn⟩

-- No spot belongs to two keys.
theorem Sound.peek_inj (hs : e.Sound) (h : e.index.peek key = some n)
    (h' : e.index.peek key' = some n) : key = key' := by
  have hnodup : e.index.held.Nodup := hs.holds.owned.nodup.of_map _
  rw [Recency.peek_eq_some_iff hs.keys_nodup] at h h'
  exact congrArg Prod.fst (List.inj_on_of_nodup_map hnodup h h' rfl)

-- Bytes stay as they are where the index and the arena do.
theorem Sound.byteAt_congr (hs : e.Sound) (hframe : Frame e e') (harena : e'.arena = e.arena)
    (hpeek : e'.index.peek key = e.index.peek key) : e'.byteAt key = e.byteAt key := by
  funext i
  cases hkey : e.index.peek key with
  | none => rw [byteAt, byteAt, hpeek, hkey, Option.map_none, Option.map_none]
  | some n =>
    have hlt := (hs.holds.live n (hs.mem_held hkey)).1
    rw [byteAt_of_peek hkey, byteAt_of_peek (hpeek.trans hkey),
      spotByte_congr (congrArg Arena.byteAt harena) (hframe.place n hlt)]

-- An engine after a lookup has moved a key to the front.
def front (e : Engine K) (key : K) (n : Nat) : Engine K :=
  { e with index := { e.index.touch n with entries := (key, n) :: e.index.others key } }

theorem get_indexed (h : e.index.peek key = some n) :
    e.index.get key = (some n, (e.front key n).index) := by
  simp only [Recency.get, h, front]

theorem get_absent (h : e.index.peek key = none) : e.index.get key = (none, e.index) := by
  simp only [Recency.get, h]

theorem keys_filter_absent (h : e.index.peek key = none) : e.keys.filter (· ≠ key) = e.keys := by
  refine List.filter_eq_self.mpr fun key' hmem => decide_eq_true ?_
  rintro rfl
  exact Recency.peek_eq_none_iff.mp h hmem

theorem keys_front (e : Engine K) (key : K) (n : Nat) :
    (e.front key n).keys = key :: e.keys.filter (· ≠ key) := by
  rw [keys, front, Recency.keys, List.map_cons, Recency.keys_others]
  rfl

-- Moving an indexed key only changes its position.
structure Moved (key : K) (n : Nat) (e e' : Engine K) : Prop where
  sound : e'.Sound
  frame : Frame e e'
  keys : e'.keys = key :: e.keys.filter (· ≠ key)
  peek : e'.index.peek = e.index.peek
  byteAt : e'.byteAt = e.byteAt
  live : (e'.index.spot n).removed = false
  held : n ∈ e'.index.held

theorem Sound.moved (hs : e.Sound) (h : e.index.peek key = some n) :
    Moved key n e (e.front key n) := by
  have hperm := Recency.entries_perm hs.keys_nodup h
  have hheld : e.index.held.Perm (e.front key n).index.held := hperm.map Prod.snd
  obtain ⟨hholds, hframe⟩ := hs.holds.entered n ((key, n) :: e.index.others key)
  have hkeys : e.keys.Perm (e.front key n).keys := hperm.map Prod.fst
  have hnodup : (e.front key n).keys.Nodup := hkeys.nodup_iff.mp hs.keys_nodup
  have hpeek : (e.front key n).index.peek = e.index.peek := by
    funext key'
    refine Option.ext fun n' => ?_
    rw [Recency.peek_eq_some_iff hnodup, Recency.peek_eq_some_iff hs.keys_nodup, hperm.mem_iff]
    rfl
  have hbytes : (e.front key n).byteAt = e.byteAt := by
    funext key'
    exact hs.byteAt_congr hframe rfl (congrFun hpeek key')
  have hlen : (e.front key n).len = e.len := hperm.length_eq.symm
  refine ⟨⟨hholds.perm hheld, hnodup, ?_, hs.capacity_pos, hs.capacity_succ⟩, hframe,
    keys_front e key n, hpeek, hbytes, ?_, List.mem_cons_self⟩
  · rw [hlen]
    exact hs.len_le
  · exact (e.index.spot_touch n n).2.2.trans (hs.holds.live n (hs.mem_held h)).2

-- What a store leaves that was not refused.
structure Stored (key : K) (offset : Nat) (data : Bytes) (m m' : Metered (Engine K)) : Prop where
  sound : m'.part.Sound
  frame : Frame m.part m'.part
  keys : m'.part.keys = (key :: m.part.keys.filter (· ≠ key)).take m.part.capacity
  written : ∀ i, offset ≤ i → i < offset + data.size → m'.part.byteAt key i = data[i - offset]?
  kept : ∀ key' ∈ m'.part.keys, ∀ i < m.part.arena.blockSize, key' ∈ m.part.keys →
    ¬(key' = key ∧ offset ≤ i ∧ i < offset + data.size) →
    m'.part.byteAt key' i = m.part.byteAt key' i
  tally : m'.tally = if key ∈ m.part.keys then m.tally
    else if m.part.len < m.part.capacity then m.tally.stored else m.tally.stored.released

-- A write to an indexed key changes its bytes in the range of the data.
theorem writeSpot_ends (hs : m.part.Sound) (hpeek : m.part.index.peek key = some n)
    (hfits : offset + data.size ≤ m.part.arena.blockSize) :
    Ends (writeSpot key n false offset data) m
      (fun flag m' => flag = true ∧ m'.part.Sound ∧ Frame m.part m'.part ∧
        m'.part.index = m.part.index ∧ m'.tally = m.tally ∧
        ∀ key' ∈ m.part.keys, ∀ i < m.part.arena.blockSize, m'.part.byteAt key' i =
          if key' = key ∧ offset ≤ i ∧ i < offset + data.size then data[i - offset]?
          else m.part.byteAt key' i)
      (fun _ _ => False) := by
  have hheld := hs.mem_held hpeek
  obtain ⟨arena, hwrite, hholds, hframe, hbytes⟩ := hs.holds.write_ok hheld hfits
  simp only [writeSpot, ends_bind, ends_get, (hs.holds.live n hheld).2, Bool.false_eq_true,
    if_false, hwrite, ends_lift_ok, ends_modifyEngine, ends_pure]
  refine ⟨trivial, ⟨hholds, hs.keys_nodup, hs.len_le, hs.capacity_pos, ?_⟩, hframe, trivial,
    trivial, ?_⟩
  · exact hs.capacity_succ.trans (by rw [hframe.banks, hframe.blocksPerBank])
  · intro key' hmem i hi
    obtain ⟨n', hheld', hpeek'⟩ := hs.peek_of_mem hmem
    have hbyte := byteAt_of_peek (e := { m.part with arena }) hpeek' i
    have hkeys : n' = n ↔ key' = key := by
      constructor
      · rintro rfl
        exact hs.peek_inj hpeek' hpeek
      · rintro rfl
        exact Option.some.inj (hpeek'.symm.trans hpeek)
    rw [hbyte, hbytes n' hheld' i hi, byteAt_of_peek hpeek']
    by_cases hin : key' = key ∧ offset ≤ i ∧ i < offset + data.size
    · obtain ⟨rfl, hle, hlt⟩ := hin
      have hdata : i - offset < data.size := by omega
      rw [if_pos ⟨hkeys.mpr rfl, hle, hlt⟩, if_pos ⟨rfl, hle, hlt⟩, getElem?_pos data _ hdata]
      rfl
    · rw [if_neg hin, if_neg fun h => hin ⟨hkeys.mp h.1, h.2⟩]

-- A key that is indexed moves to the front and keeps its block.
theorem store_indexed (hs : m.part.Sound) (hpeek : m.part.index.peek key = some n)
    (hfits : offset + data.size ≤ m.part.arena.blockSize) :
    Ends (store key offset data) m
      (fun flag m' => flag = true ∧ Stored key offset data m m') (fun _ _ => False) := by
  have hmoved := hs.moved hpeek
  have hfront : (m.part.front key n).index.peek key = some n := hmoved.peek ▸ hpeek
  have hmem : key ∈ m.part.keys := Recency.mem_keys_iff.mpr ⟨n, hpeek⟩
  simp only [store, blockSize, ends_bind, ends_get, hs.within_eq hfits, ends_lift_ok,
    ends_onIndex, get_indexed hpeek]
  refine (writeSpot_ends (m := ⟨m.part.front key n, m.tally⟩) hmoved.sound hfront hfits).imp ?_
    fun _ _ => id
  intro flag m' hdone
  obtain ⟨hflag, hsound, hframe, hindex, htally, hbytes⟩ := hdone
  have hkeys : m'.part.keys = key :: m.part.keys.filter (· ≠ key) := by
    rw [← hmoved.keys, Engine.keys, hindex]
    rfl
  have hlen : m'.part.keys.length ≤ m.part.capacity := by
    have hle := hsound.len_le
    rwa [len, Recency.len, ← List.length_map Prod.fst, capacity, hframe.capacity] at hle
  refine ⟨hflag, hsound, hmoved.frame.trans hframe, ?_, ?_, ?_, ?_⟩
  · rw [← hkeys, List.take_of_length_le hlen]
  · intro i hle hlt
    have hmem' : key ∈ (m.part.front key n).keys := Recency.mem_keys_iff.mpr ⟨n, hfront⟩
    rw [hbytes key hmem' i (Nat.lt_of_lt_of_le hlt hfits), if_pos ⟨rfl, hle, hlt⟩]
  · intro key' hmem' i hi _ hout
    have hmem' : key' ∈ (m.part.front key n).keys := by
      rw [Engine.keys, hindex] at hmem'
      exact hmem'
    rw [hbytes key' hmem' i hi, if_neg hout, hmoved.byteAt]
  · rw [if_pos hmem, htally]

-- A new key gets a free block, which is written before anything is evicted.
theorem store_absent (hs : m.part.Sound) (hpeek : m.part.index.peek key = none)
    (hfits : offset + data.size ≤ m.part.arena.blockSize) :
    Ends (store key offset data) m
      (fun flag m' => flag = true ∧ Stored key offset data m m') (fun _ _ => False) := by
  have habsent : key ∉ m.part.keys := Recency.peek_eq_none_iff.mp hpeek
  simp only [store, blockSize, ends_bind, ends_get, hs.within_eq hfits, ends_lift_ok,
    ends_onIndex, get_absent hpeek]
  refine (claim_ends hs).imp ?_ fun _ _ => id
  intro _ m₁ hclaimed
  obtain ⟨rfl, hholds, hframe, hentries, harena, htally⟩ := hclaimed
  have hkeys : m₁.part.keys = m.part.keys := by rw [Engine.keys, Recency.keys, hentries]; rfl
  have hheld : m₁.part.index.held = m.part.index.held := by rw [Recency.held, hentries]; rfl
  have hlen : m₁.part.len = m.part.len := by rw [len, Recency.len, hentries]; rfl
  have hcapacity : m₁.part.capacity = m.part.capacity := hframe.capacity
  have hsize : offset + data.size ≤ m₁.part.arena.blockSize := hframe.blockSize ▸ hfits
  obtain ⟨arena, hwrite, hwritten, hframe', hbytes⟩ := hholds.write_ok List.mem_cons_self hsize
  simp only [writeSpot, ends_bind, ends_get, (hholds.live _ List.mem_cons_self).2,
    Bool.false_eq_true, if_false, hwrite, ends_lift_ok, ends_modifyEngine, if_true,
    ends_modifyTally, ends_pure]
  have hwhole := hframe.trans hframe'
  have hsucc : m₁.part.capacity + 1 = arena.banks.length * arena.blocksPerBank := by
    rw [hwhole.banks, hwhole.blocksPerBank, hcapacity, hs.capacity_succ]
  have hpeeks : m₁.part.index.peek = m.part.index.peek := by
    funext key'
    rw [Recency.peek, hentries, Recency.peek]
  have habsent' : m₁.part.index.peek key = none := by rw [hpeeks, hpeek]
  refine (insert_ends (m := ⟨{ m₁.part with arena }, m₁.tally.stored⟩) (hheld ▸ hwritten)
    (hkeys ▸ hs.keys_nodup) (hlen.trans_le (hcapacity ▸ hs.len_le))
    (hcapacity ▸ hs.capacity_pos) hsucc habsent').imp ?_ fun _ _ => id
  intro _ m' hin
  have hspot : ∀ n' < m₁.part.index.spots.size, ∀ i,
      m'.part.spotByte n' i = spotByte { m₁.part with arena } n' i := fun n' hn' i =>
    spotByte_congr (congrArg Arena.byteAt hin.arena) (hin.frame.place n' hn') i
  refine ⟨trivial, hin.sound, hwhole.trans hin.frame, ?_, ?_, ?_, ?_⟩
  · rw [keys_filter_absent hpeek, ← hkeys, ← hcapacity]
    exact hin.keys
  · intro i hle hlt
    have hdata : i - offset < data.size := by omega
    have hown := hbytes _ List.mem_cons_self i (by omega)
    rw [byteAt_of_peek hin.peek_self, hspot _ (hholds.live _ List.mem_cons_self).1, hown,
      if_pos ⟨rfl, hle, hlt⟩, getElem?_pos data _ hdata]
    rfl
  · intro key' hmem' i hi hmem _
    obtain ⟨n', hn', hpeek'⟩ := hs.peek_of_mem hmem
    have hne : key' ≠ key := fun h => habsent (h ▸ hmem)
    have hlt := (hs.holds.live n' hn').1
    have hpeek₃ : m'.part.index.peek key' = some n' := by
      rw [hin.peek_other key' hne hmem', ← hpeek', ← hpeeks]
    have hold := hbytes n' (List.mem_cons_of_mem _ hn') i (hframe.blockSize ▸ hi)
    rw [if_neg fun h => Nat.ne_of_lt hlt h.1] at hold
    rw [byteAt_of_peek hpeek₃, byteAt_of_peek hpeek',
      hspot n' (Nat.lt_of_lt_of_le hlt hframe.size_le), hold,
      spotByte_congr (congrArg Arena.byteAt harena) (hframe.place n' hlt)]
  · have htally' := hin.tally
    rw [if_neg habsent, htally']
    have hlen : len { m₁.part with arena } = m.part.len := hlen
    have hcapacity : capacity { m₁.part with arena } = m.part.capacity := hcapacity
    rw [hlen, hcapacity, htally]

theorem store_ends (hs : m.part.Sound) :
    Ends (store key offset data) m
      (fun flag m' => flag = true ∧ offset + data.size ≤ m.part.blockSize ∧
        Stored key offset data m m')
      (fun b m' => m.part.blockSize < offset + data.size ∧
        b = Word.overrun offset data.size (.storeTooLong m.part.blockSize data.size offset) ∧
        m' = m) := by
  by_cases hrefused : m.part.blockSize < offset + data.size
  · simp only [store, ends_bind, ends_get, Word.within_of_lt hrefused, ends_lift_error]
    exact ⟨hrefused, trivial, trivial⟩
  have hfits : offset + data.size ≤ m.part.blockSize := Nat.not_lt.mp hrefused
  cases hpeek : m.part.index.peek key with
  | some n =>
    exact (store_indexed hs hpeek hfits).imp (fun _ _ h => ⟨h.1, hfits, h.2⟩) fun _ _ h => h.elim
  | none =>
    exact (store_absent hs hpeek hfits).imp (fun _ _ h => ⟨h.1, hfits, h.2⟩) fun _ _ h => h.elim

-- A hit returns what the block holds and moves the key to the front; a miss changes nothing.
theorem fetch_ends (hs : m.part.Sound) :
    Ends (fetch key offset len) m
      (fun found m' => offset + len ≤ m.part.blockSize ∧
        if key ∈ m.part.keys then (∃ n, Moved key n m.part m'.part) ∧ m'.tally = m.tally.hit ∧
          ∃ bytes, found = some bytes ∧ bytes.size = len ∧
            ∀ i < len, bytes[i]? = m.part.byteAt key (offset + i)
        else m' = ⟨m.part, m.tally.miss⟩ ∧ found = none)
      (fun b m' => m.part.blockSize < offset + len ∧
        b = Word.overrun offset len (.fetchTooLong m.part.blockSize len offset) ∧ m' = m) := by
  by_cases hrefused : m.part.blockSize < offset + len
  · simp only [fetch, ends_bind, ends_get, Word.within_of_lt hrefused, ends_lift_error]
    exact ⟨hrefused, trivial, trivial⟩
  have hfits : offset + len ≤ m.part.blockSize := Nat.not_lt.mp hrefused
  have hwithin (b : Breach) : Word.within m.part.blockSize offset len b = .ok () :=
    hs.within_eq hfits b
  cases hpeek : m.part.index.peek key with
  | none =>
    have habsent : key ∉ m.part.keys := Recency.peek_eq_none_iff.mp hpeek
    simp only [fetch, ends_bind, ends_get, hwithin, ends_lift_ok, ends_onIndex, get_absent hpeek,
      Option.filter_none, ends_modifyTally, ends_pure, if_neg habsent]
    exact ⟨hfits, trivial, trivial⟩
  | some n =>
    have hmem : key ∈ m.part.keys := Recency.mem_keys_iff.mpr ⟨n, hpeek⟩
    have hmoved := hs.moved hpeek
    obtain ⟨hbank, hblock⟩ := hmoved.sound.holds.place_lt hmoved.held
    obtain ⟨bytes, hread, hsize, hbytes⟩ := hs.holds.arena.read_ok hbank hblock hfits
    simp only [fetch, ends_bind, ends_get, hwithin, ends_lift_ok, ends_onIndex, get_indexed hpeek,
      Option.filter_some, hmoved.live, Bool.not_false, if_true, hread, ends_lift_ok,
      ends_modifyTally, ends_pure, if_pos hmem]
    refine ⟨hfits, ⟨n, hmoved⟩, trivial, bytes, rfl, hsize, ?_⟩
    intro i hi
    rw [hbytes i hi, ← hmoved.byteAt, byteAt_of_peek (hmoved.peek ▸ hpeek)]
    rfl

-- A whole block is a fetch at its start.
theorem fetchWhole_ends (hs : m.part.Sound) :
    Ends (fetchWhole key len) m
      (fun found m' => len = m.part.blockSize ∧
        if key ∈ m.part.keys then (∃ n, Moved key n m.part m'.part) ∧ m'.tally = m.tally.hit ∧
          ∃ bytes, found = some bytes ∧ bytes.size = len ∧
            ∀ i < len, bytes[i]? = m.part.byteAt key i
        else m' = ⟨m.part, m.tally.miss⟩ ∧ found = none)
      (fun b m' => len ≠ m.part.blockSize ∧
        b = .wrongBufferSize m.part.blockSize len ∧ m' = m) := by
  by_cases hrefused : len ≠ m.part.blockSize
  · simp only [fetchWhole, ends_bind, ends_get, if_pos hrefused, ends_throw]
    exact ⟨hrefused, trivial, trivial⟩
  have hwhole : len = m.part.blockSize := Classical.not_not.mp hrefused
  simp only [fetchWhole, ends_bind, ends_get, if_neg hrefused]
  refine (fetch_ends hs).imp ?_ ?_
  · intro found m' hdone
    obtain ⟨_, hfound⟩ := hdone
    simp only [Nat.zero_add] at hfound
    exact ⟨hwhole, hfound⟩
  · intro b m' hfailed
    obtain ⟨hlong, _⟩ := hfailed
    omega

theorem peek_others (e : Engine K) (hne : key' ≠ key) :
    Recency.peek { e.index with entries := e.index.others key } key' = e.index.peek key' := by
  simp only [Recency.peek, Recency.others, List.find?_filter]
  congr 2
  funext x
  grind

structure Deleted (key : K) (m m' : Metered (Engine K)) : Prop where
  sound : m'.part.Sound
  frame : Frame m.part m'.part
  keys : m'.part.keys = m.part.keys.filter (· ≠ key)
  byteAt : ∀ key' ≠ key, m'.part.byteAt key' = m.part.byteAt key'
  tally : m'.tally = if key ∈ m.part.keys then m.tally.released else m.tally

theorem delete_ends (hs : m.part.Sound) :
    Ends (delete key) m
      (fun flag m' => flag = decide (key ∈ m.part.keys) ∧ Deleted key m m')
      (fun _ _ => False) := by
  cases hpeek : m.part.index.peek key with
  | none =>
    have habsent : key ∉ m.part.keys := Recency.peek_eq_none_iff.mp hpeek
    have hremove : m.part.index.remove key = (none, m.part.index) := by
      simp only [Recency.remove, hpeek]
    simp only [delete, ends_bind, ends_onIndex, hremove, ends_pure]
    exact ⟨(decide_eq_false habsent).symm, hs, .refl _, (keys_filter_absent hpeek).symm,
      fun _ _ => rfl, (if_neg habsent).symm⟩
  | some n =>
    have hmem : key ∈ m.part.keys := Recency.mem_keys_iff.mpr ⟨n, hpeek⟩
    have hremove : m.part.index.remove key =
        (some n, { m.part.index with entries := m.part.index.others key }) := by
      simp only [Recency.remove, hpeek]
    have hperm := Recency.entries_perm hs.keys_nodup hpeek
    have h := hs.holds.perm (hperm.map Prod.snd)
    have hholds : Holds { m.part with index := { m.part.index with
        entries := m.part.index.others key } } (n :: (m.part.index.others key).map Prod.snd) :=
      ⟨h.arena, h.slots_length, h.slot_len, h.live, h.owned⟩
    simp only [delete, ends_bind, ends_onIndex, hremove, ends_pure]
    refine (release_ends hholds).imp ?_ fun _ _ => id
    intro _ m' hreleased
    obtain ⟨hholds', hframe, hentries, harena, htally⟩ := hreleased
    have hkeys : m'.part.keys = m.part.keys.filter (· ≠ key) := by
      rw [Engine.keys, Recency.keys, hentries]
      exact Recency.keys_others _ _
    have hheld : m'.part.index.held = (m.part.index.others key).map Prod.snd := by
      rw [Recency.held, hentries]
    have hframe : Frame m.part m'.part := ⟨hframe.blockSize, hframe.blocksPerBank, hframe.banks,
      hframe.capacity, hframe.size_le, hframe.place⟩
    have hcapacity : m'.part.capacity = m.part.capacity := hframe.capacity
    refine ⟨(decide_eq_true hmem).symm, ⟨hheld ▸ hholds', ?_, ?_, ?_, ?_⟩, hframe, hkeys, ?_, ?_⟩
    · rw [hkeys]
      exact hs.keys_nodup.filter _
    · have hless : m'.part.len ≤ m.part.len := by
        rw [len, Recency.len, hentries]
        exact List.length_filter_le _ _
      rw [hcapacity]
      exact Nat.le_trans hless hs.len_le
    · rw [hcapacity]
      exact hs.capacity_pos
    · rw [hcapacity, hframe.banks, hframe.blocksPerBank, hs.capacity_succ]
    · intro key' hne
      refine hs.byteAt_congr hframe harena ?_
      rw [Recency.peek, hentries]
      exact peek_others m.part hne
    · rw [if_pos hmem, htally]

end Engine

end Blockwise
