import Blockwise.Proofs.Engine.History

namespace Blockwise

namespace Engine

variable {K : Type} {e : Engine K} {key key' : K} {n n' bank block : Nat} {t : Occupancy}

theorem Sound.total (hs : e.Sound) :
    e.blocksTaken = (e.slots.map Occupancy.countTaken).sum ∧ e.blocksTaken = e.len := by
  have hcounts : e.slots.map Occupancy.countTaken = e.slots.map Occupancy.occupied :=
    List.map_congr_left fun t ht => (hs.holds.owned.sound t ht).counted.symm
  constructor
  · rw [hcounts, List.sum_eq_foldr, List.foldr_map]
    rfl
  · rw [blocksTaken, hs.holds.owned.blocksTaken_eq, List.length_map, Recency.held, List.length_map]
    rfl

variable [DecidableEq K]

-- The books of an engine of a sizing: keys, places, bits and counters all tell the same.
structure Accounted (sizing : Sizing) (e : Engine K) : Prop where
  layout : ∃ banks blocks, sizing.bankCount = .ok banks ∧ sizing.blocksPerBank = .ok blocks ∧
    e.capacity = banks * blocks - 1 ∧ e.slots.length = banks ∧ e.arena.banks.length = banks ∧
    ∀ t ∈ e.slots, t.len = blocks
  len_le : e.len ≤ e.capacity
  keys_nodup : e.keys.Nodup
  placed : ∀ key n, e.index.peek key = some n → (e.index.spot n).removed = false ∧
    ∃ t, e.slots[(e.index.spot n).bank]? = some t ∧ (e.index.spot n).block < t.len ∧
      t.bit (e.index.spot n).block = true
  exclusive : ∀ key n key' n', e.index.peek key = some n → e.index.peek key' = some n' →
    e.index.place n = e.index.place n' → key = key'
  covered : ∀ bank t block, e.slots[bank]? = some t → t.bit block = true →
    ∃ key n, e.index.peek key = some n ∧ e.index.place n = (bank, block)
  counted : ∀ bank t, e.slots[bank]? = some t → t.occupied = t.countTaken ∧
    t.countTaken = (e.index.held.map e.index.place).countP (·.1 = bank)
  total : e.blocksTaken = (e.slots.map Occupancy.countTaken).sum ∧ e.blocksTaken = e.len

theorem Sound.placed (hs : e.Sound) (h : e.index.peek key = some n) :
    (e.index.spot n).removed = false ∧ ∃ t, e.slots[(e.index.spot n).bank]? = some t ∧
      (e.index.spot n).block < t.len ∧ t.bit (e.index.spot n).block = true := by
  have hheld := hs.mem_held h
  obtain ⟨t, ht, htaken⟩ := hs.holds.place_taken hheld
  rw [Occupancy.isTaken_eq, Bool.and_eq_true, decide_eq_true_eq] at htaken
  exact ⟨(hs.holds.live n hheld).2, t, ht, htaken⟩

theorem Sound.exclusive (hs : e.Sound) (h : e.index.peek key = some n)
    (h' : e.index.peek key' = some n') (hplace : e.index.place n = e.index.place n') :
    key = key' := by
  obtain rfl := hs.holds.place_inj (hs.mem_held h) (hs.mem_held h') hplace
  exact hs.peek_inj h h'

theorem Sound.covered (hs : e.Sound) (ht : e.slots[bank]? = some t) (hbit : t.bit block = true) :
    ∃ key n, e.index.peek key = some n ∧ e.index.place n = (bank, block) := by
  have hmem := (hs.holds.owned.mem_iff ht block).mpr hbit
  obtain ⟨n, hn, hplace⟩ := List.mem_map.mp hmem
  obtain ⟨⟨key, _⟩, hentry, rfl⟩ := List.mem_map.mp hn
  exact ⟨key, _, (Recency.peek_eq_some_iff hs.keys_nodup).mpr hentry, hplace⟩

-- From a fresh engine, whatever calls are made and whichever of them fail: every key owns one
-- block, no two keys own the same, and a block that no key owns is free again.
theorem accounted_after {sizing : Sizing} {memory : Memory} (h : new sizing memory = .ok e)
    (steps : List (Step K)) :
    Accounted sizing (after ⟨e, {}⟩ steps).part := by
  obtain ⟨hfresh, _, _, _, hblocks, hbanks, _⟩ := new_sound h
  obtain ⟨hs, hframe⟩ := after_sound (m := ⟨e, {}⟩) hfresh steps
  refine ⟨?_, hs.len_le, hs.keys_nodup, fun _ _ => hs.placed, fun _ _ _ _ => hs.exclusive,
    fun _ _ _ => hs.covered, ?_, hs.total⟩
  · refine ⟨_, _, hbanks, hblocks, ?_, ?_, hframe.banks, ?_⟩
    · have hcapacity := hfresh.capacity_succ
      have hsame : (after ⟨e, {}⟩ steps).part.capacity = e.capacity := hframe.capacity
      omega
    · rw [hs.holds.slots_length, hframe.banks]
    · intro t ht
      rw [hs.holds.slot_len t ht, hframe.blocksPerBank]
  · intro bank t ht
    exact ⟨(hs.holds.owned.sound t (List.mem_of_getElem? ht)).counted,
      hs.holds.owned.countTaken_eq ht⟩

-- Four blocks hold three keys; the fourth key pushes out the first, and a refused store changes
-- nothing.
theorem accounted_after_eviction : ∃ e : Engine Nat, new (.ofLayout 2 2 4) = .ok e ∧
    let steps : List (Step Nat) := [.store 0 0 ⟨#[1, 2]⟩, .store 1 0 ⟨#[3]⟩, .store 2 2 ⟨#[4, 5]⟩,
      .store 3 2 ⟨#[6, 7, 8]⟩, .store 3 0 ⟨#[6]⟩, .delete 1]
    (after ⟨e, {}⟩ steps).part.keys = [3, 2] ∧ Accounted (.ofLayout 2 2 4) (after ⟨e, {}⟩ steps).part :=
  ⟨_, rfl, by decide +kernel, accounted_after (show new (.ofLayout 2 2 4) = _ from rfl) _⟩

end Engine

end Blockwise
