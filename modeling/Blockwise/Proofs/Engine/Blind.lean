import Blockwise.Proofs.Engine.History

namespace Blockwise

namespace Engine

open Act

variable {K α β : Type} {m m' m₁ : Metered (Engine K)} {arena arena' : Arena} {x : Run K α}
  {f : α → Run K β}

-- The same engine over other bytes.
def withArena (m : Metered (Engine K)) (arena : Arena) : Metered (Engine K) :=
  ⟨{ m.part with arena }, m.tally⟩

-- Arenas of one layout.
structure Shaped (arena arena' : Arena) : Prop where
  sound : arena'.Sound
  blockSize : arena'.blockSize = arena.blockSize
  blocksPerBank : arena'.blocksPerBank = arena.blocksPerBank
  banks : arena'.banks.length = arena.banks.length

-- An action that goes the same way over any bytes, and leaves them as they are.
def Blind (x : Run K α) : Prop :=
  ∀ (m : Metered (Engine K)) (arena : Arena) (done : α → Metered (Engine K) → Prop)
    (failed : Breach → Metered (Engine K) → Prop),
    Ends x (withArena m arena) done failed ↔
      Ends x m (fun a m₁ => done a (withArena m₁ arena)) fun b m₁ => failed b (withArena m₁ arena)

theorem Blind.ok {a : α} (h : Blind x) (hx : x m = .ok a m₁) (arena : Arena) :
    x (withArena m arena) = .ok a (withArena m₁ arena) := by
  have hends : Ends x (withArena m arena)
      (fun a' s => x (withArena m arena) = .ok a' s → a' = a ∧ s = withArena m₁ arena)
      fun _ _ => False := by
    rw [h, Ends, hx]
    exact fun _ => ⟨rfl, rfl⟩
  cases hy : x (withArena m arena) with
  | ok a' s =>
    obtain ⟨rfl, rfl⟩ := hends.ok hy hy
    rfl
  | error b s => exact (hends.error hy).elim

theorem Blind.bind (hx : Blind x) (hf : ∀ a, Blind (f a)) : Blind (x >>= f) := by
  intro m arena done failed
  simp only [ends_bind, hx m arena, hf _ _ arena]

theorem blind_pure (a : α) : Blind (pure a : Run K α) := fun _ _ _ _ => Iff.rfl

theorem blind_onIndex (g : Recency K → α × Recency K) : Blind (onIndex g) := fun _ _ _ _ => Iff.rfl

theorem blind_claim : Blind (claim : Run K (Option Nat)) := by
  intro m arena done failed
  simp only [claim, ends_bind, ends_get, ends_modifyEngine]
  rcases h : claimFree m.part.slots claimPasses with ⟨_ | ⟨bank, block⟩, slots⟩
  · simp only [withArena, h, ends_pure]
  · simp only [withArena, h, ends_bind, ends_onIndex, ends_pure]

theorem blind_release (n : Nat) : Blind (release n : Run K Unit) := by
  refine (blind_onIndex _).bind fun retired m arena done failed => ?_
  cases retired with
  | false => rfl
  | true =>
    simp only [ends_bind, ends_get, if_true, withArena]
    cases m.part.slots[(m.part.index.spot n).bank]? <;> rfl

variable [DecidableEq K] {key k : K} {n offset size len i : Nat} {data data' : Bytes}
  {e : Engine K} {sizing : Sizing}

theorem blind_insert (key : K) (n : Nat) : Blind (insert key n) := by
  refine (blind_onIndex _).bind fun insertion => ?_
  cases insertion with
  | grown => exact blind_pure _
  | displaced old => exact blind_release old
  | evicted _ old => exact blind_release old

theorem blind_delete (key : K) : Blind (delete key) := by
  refine (blind_onIndex _).bind fun found => ?_
  cases found with
  | none => exact blind_pure _
  | some n => exact (blind_release n).bind fun _ => blind_pure _

-- A store goes to the block of a spot and does nothing else to the arena. Neither the bytes written
-- nor those that were there have a say in which block that is, or in what becomes of the index.
structure Placed (key : K) (offset size : Nat) (m m₁ : Metered (Engine K)) (n : Nat) : Prop where
  kept : ∀ key ∈ m₁.part.keys, key ∈ m.part.keys →
    m₁.part.index.peek key = m.part.index.peek key
  peek : m₁.part.index.peek key = some n
  bank_lt : (m₁.part.index.spot n).bank < m.part.arena.banks.length
  block_lt : (m₁.part.index.spot n).block < m.part.arena.blocksPerBank
  store : ∀ arena data arena', arena.blockSize = m.part.arena.blockSize → data.size = size →
    arena.write (m₁.part.index.spot n).bank (m₁.part.index.spot n).block offset data = .ok arena' →
    Ends (Engine.store key offset data) (withArena m arena)
      (fun flag m' => flag = true ∧ m' = withArena m₁ arena') (fun _ _ => False)

theorem placed_indexed (hs : m.part.Sound) (hpeek : m.part.index.peek key = some n)
    (hfits : offset + size ≤ m.part.arena.blockSize) :
    Placed key offset size m ⟨m.part.front key n, m.tally⟩ n := by
  have hmoved := hs.moved hpeek
  obtain ⟨hbank, hblock⟩ := hmoved.sound.holds.place_lt hmoved.held
  refine ⟨fun _ _ _ => congrFun hmoved.peek _, hmoved.peek ▸ hpeek, hbank, hblock, ?_⟩
  intro arena data arena' hsize hdata hwrite
  have hwithin := hs.within_eq (hdata.symm ▸ hfits)
  rw [← hsize] at hwithin
  have hlive : ((m.part.front key n).index.spot n).removed = false := hmoved.live
  simp only [Engine.store, withArena, blockSize, ends_bind, ends_get, hwithin, ends_lift_ok,
    ends_onIndex, get_indexed hpeek, writeSpot, hlive, Bool.false_eq_true, if_false, hwrite,
    ends_modifyEngine, ends_pure]
  exact ⟨trivial, rfl⟩

theorem placed_absent (hs : m.part.Sound) (hpeek : m.part.index.peek key = none)
    (hfits : offset + size ≤ m.part.arena.blockSize) :
    ∃ m₁ n, Placed key offset size m m₁ n := by
  obtain ⟨_, m₀, hclaim, rfl, hholds, hframe, hentries, harena, _⟩ := (claim_ends hs).exists_ok
  obtain ⟨hbank, hblock⟩ := hholds.place_lt List.mem_cons_self
  obtain ⟨hnew, hlive⟩ := hholds.live _ List.mem_cons_self
  have hkeys : m₀.part.keys = m.part.keys := by rw [Engine.keys, Recency.keys, hentries]; rfl
  have hheld : m₀.part.index.held = m.part.index.held := by rw [Recency.held, hentries]; rfl
  have hlen : m₀.part.len = m.part.len := by rw [Engine.len, Recency.len, hentries]; rfl
  have hcapacity : m₀.part.capacity = m.part.capacity := hframe.capacity
  have hpeeks : m₀.part.index.peek = m.part.index.peek := by
    funext key'
    rw [Recency.peek, hentries, Recency.peek]
  have habsent : m₀.part.index.peek key = none := by rw [hpeeks, hpeek]
  obtain ⟨_, m₁, hinsert, hin⟩ := (insert_ends (m := ⟨m₀.part, m₀.tally.stored⟩)
    (hheld ▸ hholds) (hkeys ▸ hs.keys_nodup) (hlen.trans_le (hcapacity ▸ hs.len_le))
    (hcapacity ▸ hs.capacity_pos) (by rw [hcapacity, hframe.banks, hframe.blocksPerBank,
      hs.capacity_succ]) habsent).exists_ok
  have hplace := hin.frame.place _ hnew
  simp only [Recency.place, Prod.mk.injEq] at hplace
  refine ⟨m₁, _, ?_, hin.peek_self, ?_, ?_, ?_⟩
  · intro key' hmem hmem'
    have hne : key' ≠ key := by
      rintro rfl
      exact Recency.peek_eq_none_iff.mp hpeek hmem'
    rw [hin.peek_other key' hne hmem, hpeeks]
  · rw [hplace.1, ← hframe.banks]
    exact hbank
  · rw [hplace.2, ← hframe.blocksPerBank]
    exact hblock
  · intro arena data arena' hsize hdata hwrite
    have hwithin := hs.within_eq (hdata.symm ▸ hfits)
    rw [← hsize] at hwithin
    rw [hplace.1, hplace.2] at hwrite
    simp only [Engine.store, ends_bind, ends_get, blockSize, withArena, hwithin, ends_lift_ok,
      ends_onIndex, get_absent hpeek]
    refine (blind_claim m arena _ _).mpr ?_
    simp only [Ends, hclaim]
    show Ends (writeSpot key _ true offset data) (withArena m₀ arena) _ _
    simp only [writeSpot, ends_bind, ends_get, withArena, hlive, Bool.false_eq_true, if_false,
      hwrite, ends_lift_ok, ends_modifyEngine, if_true, ends_modifyTally, ends_pure]
    refine (blind_insert key _ ⟨m₀.part, m₀.tally.stored⟩ arena' _ _).mpr ?_
    simp only [Ends, hinsert]
    exact ⟨trivial, rfl⟩

theorem store_placed (hs : m.part.Sound) (key : K)
    (hfits : offset + size ≤ m.part.arena.blockSize) : ∃ m₁ n, Placed key offset size m m₁ n := by
  cases hpeek : m.part.index.peek key with
  | none => exact placed_absent hs hpeek hfits
  | some n => exact ⟨_, n, placed_indexed hs hpeek hfits⟩

-- Over any bytes, a store within a block succeeds and writes to the block it is given.
theorem Placed.written (hp : Placed key offset data.size m m₁ n) (ha : Shaped m.part.arena arena)
    (hfits : offset + data.size ≤ m.part.arena.blockSize) :
    ∃ arena', step (.store key offset data) (withArena m arena) =
        .ok (.flag true) (withArena m₁ arena') ∧ Shaped m.part.arena arena' ∧
      ∀ bank block i, i < m.part.arena.blockSize → arena'.byteAt bank block i =
        if m₁.part.index.place n = (bank, block) ∧ offset ≤ i ∧ i < offset + data.size
        then data[i - offset]?.getD 0 else arena.byteAt bank block i := by
  obtain ⟨banks, hwrite, hbanks, hsound, hbytes⟩ := ha.sound.write_ok (ha.banks ▸ hp.bank_lt)
    (ha.blocksPerBank ▸ hp.block_lt) (ha.blockSize ▸ hfits)
  obtain ⟨_, _, hstore, rfl, rfl⟩ := (hp.store arena data _ ha.blockSize rfl hwrite).exists_ok
  refine ⟨{ arena with banks }, ?_, ⟨hsound, ha.blockSize, ha.blocksPerBank, hbanks.trans ha.banks⟩,
    fun bank block i hi => ?_⟩
  · simp only [step, Functor.map, EStateM.map, hstore]
  · rw [hbytes bank block i (ha.blockSize ▸ hi)]
    refine if_congr ?_ rfl rfl
    rw [Recency.place, Prod.mk.injEq, and_assoc, eq_comm, @eq_comm _ block]

-- A hit reads one block, and what it does besides is the same whatever the block holds.
theorem fetch_over (hs : m.part.Sound) (hpeek : m.part.index.peek key = some n)
    (hfits : offset + len ≤ m.part.arena.blockSize) (ha : Shaped m.part.arena arena) :
    Ends (fetch key offset len) (withArena m arena)
      (fun found m' => m' = withArena ⟨m.part.front key n, m.tally.hit⟩ arena ∧
        ∃ bytes, found = some bytes ∧ bytes.size = len ∧ ∀ i < len, bytes[i]? =
          some (arena.byteAt (m.part.index.place n).1 (m.part.index.place n).2 (offset + i)))
      (fun _ _ => False) := by
  have hmoved := hs.moved hpeek
  obtain ⟨hbank, hblock⟩ := hmoved.sound.holds.place_lt hmoved.held
  have hplace := hmoved.frame.place n (hs.holds.live n (hs.mem_held hpeek)).1
  have hlive : ((m.part.front key n).index.spot n).removed = false := hmoved.live
  obtain ⟨bytes, hread, hlength, hbytes⟩ := ha.sound.read_ok (ha.banks ▸ hbank)
    (ha.blocksPerBank ▸ hblock) (ha.blockSize ▸ hfits)
  have hwithin := hs.within_eq hfits
  rw [← ha.blockSize] at hwithin
  simp only [fetch, withArena, blockSize, ends_bind, ends_get, hwithin, ends_lift_ok, ends_onIndex,
    get_indexed hpeek, Option.filter_some, hlive, Bool.not_false, if_true, hread,
    ends_modifyTally, ends_pure]
  refine ⟨rfl, bytes, rfl, hlength, fun i hi => ?_⟩
  rw [hbytes i hi, ← hplace]
  rfl

theorem fetch_absent (hword : m.part.arena.blockSize < Word.limit)
    (hpeek : m.part.index.peek key = none)
    (hfits : offset + len ≤ m.part.arena.blockSize) :
    fetch key offset len m = .ok none ⟨m.part, m.tally.miss⟩ := by
  have hwithin (b : Breach) : Word.within m.part.arena.blockSize offset len b = .ok () :=
    Word.within_of_le hword hfits
  have hends : Ends (fetch key offset len) m
      (fun found m' => found = none ∧ m' = ⟨m.part, m.tally.miss⟩) (fun _ _ => False) := by
    simp only [fetch, blockSize, ends_bind, ends_get, hwithin, ends_lift_ok, ends_onIndex,
      get_absent hpeek, Option.filter_none, ends_modifyTally, ends_pure]
    exact ⟨trivial, trivial⟩
  obtain ⟨_, _, hfetch, rfl, rfl⟩ := hends.exists_ok
  exact hfetch

theorem fetch_refused (h : m.part.arena.blockSize < offset + len) :
    fetch key offset len m = .error
      (Word.overrun offset len (.fetchTooLong m.part.arena.blockSize len offset)) m := by
  have hends : Ends (fetch key offset len) m (fun _ _ => False) (fun b m' =>
      b = Word.overrun offset len (.fetchTooLong m.part.arena.blockSize len offset) ∧ m' = m) := by
    simp only [fetch, blockSize, ends_bind, ends_get, Word.within_of_lt h, ends_lift_error]
    exact ⟨trivial, trivial⟩
  obtain ⟨_, _, hfetch, rfl, rfl⟩ := hends.exists_error
  exact hfetch

theorem store_refused (h : m.part.arena.blockSize < offset + data.size) :
    store key offset data m = .error
      (Word.overrun offset data.size (.storeTooLong m.part.arena.blockSize data.size offset)) m := by
  have hends : Ends (store key offset data) m (fun _ _ => False) (fun b m' =>
      b = Word.overrun offset data.size (.storeTooLong m.part.arena.blockSize data.size offset) ∧
        m' = m) := by
    simp only [store, blockSize, ends_bind, ends_get, Word.within_of_lt h, ends_lift_error]
    exact ⟨trivial, trivial⟩
  obtain ⟨_, _, hstore, rfl, rfl⟩ := hends.exists_error
  exact hstore

theorem delete_entries (hs : m.part.Sound) (key : K) :
    Ends (delete key) m
      (fun _ m' => m'.part.index.entries = m.part.index.others key ∧
        m'.part.arena = m.part.arena) (fun _ _ => False) := by
  cases hpeek : m.part.index.peek key with
  | none =>
    have hremove : m.part.index.remove key = (none, m.part.index) := by
      simp only [Recency.remove, hpeek]
    simp only [delete, ends_bind, ends_onIndex, hremove, ends_pure]
    refine ⟨(List.filter_eq_self.mpr fun entry hmem => decide_eq_true ?_).symm, trivial⟩
    rintro rfl
    exact Recency.peek_eq_none_iff.mp hpeek (List.mem_map_of_mem hmem)
  | some n =>
    have hremove : m.part.index.remove key =
        (some n, { m.part.index with entries := m.part.index.others key }) := by
      simp only [Recency.remove, hpeek]
    have h := hs.holds.perm ((Recency.entries_perm hs.keys_nodup hpeek).map Prod.snd)
    have hholds : Holds { m.part with index := { m.part.index with
        entries := m.part.index.others key } } (n :: (m.part.index.others key).map Prod.snd) :=
      ⟨h.arena, h.slots_length, h.slot_len, h.live, h.owned⟩
    simp only [delete, ends_bind, ends_onIndex, hremove, ends_pure]
    exact (release_ends hholds).imp (fun _ _ hreleased => ⟨hreleased.2.2.1, hreleased.2.2.2.1⟩)
      fun _ _ => id

-- A delete takes one entry out of the index, whatever the arena holds.
theorem delete_over (hs : m.part.Sound) (key : K) :
    ∃ flag m₁, delete key m = .ok flag m₁ ∧ m₁.part.arena = m.part.arena ∧
      (∀ key' ∈ m₁.part.keys, m₁.part.index.peek key' = m.part.index.peek key') ∧
      ∀ arena, delete key (withArena m arena) = .ok flag (withArena m₁ arena) := by
  obtain ⟨flag, m₁, hdelete, hentries, harena⟩ := (delete_entries hs key).exists_ok
  refine ⟨flag, m₁, hdelete, harena, fun key' hmem => ?_, (blind_delete key).ok hdelete⟩
  have hne : key' ≠ key := by
    rintro rfl
    rw [Engine.keys, Recency.keys, hentries, Recency.keys_others] at hmem
    simp at hmem
  rw [Recency.peek, hentries]
  exact peek_others m.part hne

end Engine

end Blockwise
