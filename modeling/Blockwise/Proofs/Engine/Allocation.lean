import Blockwise.Proofs.Engine.Ownership

namespace Blockwise

namespace Occupancy

variable {t : Occupancy}

def free (t : Occupancy) : List Nat := (List.range t.len).filter fun i => !t.isTaken i

theorem Sound.free_eq (hs : t.Sound) : t.free = (List.range t.len).filter fun i => !t.bit i := by
  simp only [free, hs.isTaken_eq_bit]

theorem Sound.length_free_add (hs : t.Sound) : t.free.length + t.occupied = t.len := by
  have hsplit := List.length_eq_countP_add_countP t.bit (l := List.range t.len)
  rw [List.length_range, ← countTaken_eq hs.padding, ← hs.counted] at hsplit
  rw [hs.free_eq, ← List.countP_eq_length_filter]
  simp only [Bool.not_eq_true, Bool.decide_eq_false] at hsplit
  omega

-- A search from the start finds the first block that is free.
theorem Sound.firstFree_eq (hs : t.Sound) : t.firstFree 0 = t.free.head? := by
  have hfirst := firstFree_spec t 0
  rw [hs.free_eq, List.head?_filter]
  cases hfound : t.firstFree 0 with
  | none =>
    rw [hfound] at hfirst
    refine (List.find?_eq_none.mpr fun i hi => ?_).symm
    simp [hfirst i (Nat.zero_le i) (List.mem_range.mp hi)]
  | some b =>
    rw [hfound] at hfirst
    obtain ⟨_, hlen, hfree, hbefore⟩ := hfirst
    refine (List.find?_range_eq_some.mpr ⟨by simp [hfree], List.mem_range.mpr hlen, ?_⟩).symm
    intro i hi
    simp [hbefore i (Nat.zero_le i) hi]

end Occupancy

namespace Engine

open Act

variable {K : Type} {e : Engine K} {m m' : Metered (Engine K)} {slots : List Occupancy}
  {sizing : Sizing} {memory : Memory} {key : K} {offset : Nat} {data : Bytes}

-- The free blocks of all banks, in the order in which a claim comes to them.
def freePlaces : List Occupancy → List (Nat × Nat)
  | [] => []
  | t :: rest => t.free.map (0, ·) ++ (freePlaces rest).map fun (bank, block) => (bank + 1, block)

theorem claimIn_eq_head? (hs : ∀ t ∈ slots, t.Sound) :
    (claimIn slots).1 = (freePlaces slots).head? := by
  induction slots with
  | nil => rfl
  | cons t rest ih =>
    obtain ⟨ht, hrest⟩ := List.forall_mem_cons.mp hs
    have ih := ih hrest
    unfold claimIn freePlaces
    rw [List.head?_append, List.head?_map, List.head?_map, ← ht.firstFree_eq, ← ih]
    cases hfull : t.isFull with
    | true =>
      have hnone : t.firstFree 0 = none := by
        have hlength := ht.length_free_add
        rw [Occupancy.isFull, decide_eq_true_eq] at hfull
        rw [ht.firstFree_eq, List.head?_eq_none_iff, ← List.length_eq_zero_iff]
        omega
      rw [if_pos rfl, hnone]
      rfl
    | false =>
      obtain ⟨block, hblock⟩ := Option.isSome_iff_exists.mp (ht.firstFree_isSome hfull)
      have hspec := t.firstFree_spec 0
      rw [hblock] at hspec
      obtain ⟨attempts, hattempts⟩ : ∃ k, t.len = k + 1 := ⟨t.len - 1, by omega⟩
      rw [if_neg Bool.false_ne_true, hattempts, Occupancy.claimFirst_succ, hblock]
      rfl

theorem length_freePlaces_add {size : Nat} (hs : ∀ t ∈ slots, t.Sound)
    (hlen : ∀ t ∈ slots, t.len = size) :
    (freePlaces slots).length + slots.foldr (fun t total => t.occupied + total) 0 =
      slots.length * size := by
  induction slots with
  | nil => simp [freePlaces]
  | cons t rest ih =>
    obtain ⟨ht, hrest⟩ := List.forall_mem_cons.mp hs
    obtain ⟨hsize, hsizes⟩ := List.forall_mem_cons.mp hlen
    have ih := ih hrest hsizes
    have hbank := ht.length_free_add
    rw [freePlaces, List.length_append, List.length_map, List.length_map, List.foldr_cons,
      List.length_cons, Nat.add_mul, Nat.one_mul]
    omega

-- Keys and free blocks share all blocks, of which there is one more than keys are let in.
theorem Sound.length_freePlaces (hs : e.Sound) :
    (freePlaces e.slots).length + e.len = e.capacity + 1 := by
  rw [← hs.total.2, blocksTaken, length_freePlaces_add hs.holds.owned.sound hs.holds.slot_len,
    hs.holds.slots_length, hs.capacity_succ]

theorem Sound.claimFree_eq (hs : e.Sound) :
    (claimFree e.slots claimPasses).1 = (freePlaces e.slots).head? := by
  rw [claimPasses, claimFree_succ hs.holds.owned.sound, claimIn_eq_head? hs.holds.owned.sound]

-- An engine that has never been short of a block, and is not short of one now.
structure Spare (m : Metered (Engine K)) : Prop where
  total : (freePlaces m.part.slots).length + m.part.len = m.part.capacity + 1
  reserved : m.part.len = m.part.capacity → ∃ place, freePlaces m.part.slots = [place]
  found : ∃ place ∈ freePlaces m.part.slots, (claimFree m.part.slots claimPasses).1 = some place
  failures : m.tally.storeFailures = 0

theorem Sound.spare (hs : m.part.Sound) (hfailures : m.tally.storeFailures = 0) : Spare m := by
  have htotal := hs.length_freePlaces
  have hlen := hs.len_le
  refine ⟨htotal, fun hfull => ?_, ?_, hfailures⟩
  · exact List.length_eq_one_iff.mp (by omega)
  · obtain ⟨place, rest, hplaces⟩ : ∃ place rest, freePlaces m.part.slots = place :: rest :=
      List.exists_cons_of_length_pos (by omega)
    rw [hs.claimFree_eq, hplaces]
    exact ⟨place, List.mem_cons_self, rfl⟩

variable [DecidableEq K]

theorem Stored.storeFailures (h : Stored key offset data m m') :
    m'.tally.storeFailures = m.tally.storeFailures := by
  rw [h.tally]
  split
  · rfl
  · split <;> rfl

theorem Deleted.storeFailures (h : Deleted key m m') :
    m'.tally.storeFailures = m.tally.storeFailures := by
  rw [h.tally]
  split <;> rfl

-- No call of any kind counts a failed store.
theorem afterStep_storeFailures (hs : m.part.Sound) (s : Step K) :
    (afterStep m s).tally.storeFailures = m.tally.storeFailures := by
  let same (m' : Metered (Engine K)) : Prop := m'.tally.storeFailures = m.tally.storeFailures
  suffices hends : Ends (step s) m (fun _ => same) (fun _ => same) from hends.outcome
  have hrefused : ∀ m' : Metered (Engine K), m' = m → same m' := by
    rintro _ rfl
    rfl
  cases s with
  | store key offset data =>
    rw [step, ends_map]
    exact (store_ends hs).imp (fun _ _ h => h.2.2.storeFailures) fun _ _ h => hrefused _ h.2.2
  | fetch key offset len =>
    rw [step, ends_map]
    refine (fetch_ends hs).imp ?_ fun _ _ h => hrefused _ h.2.2
    intro _ m' hdone
    obtain ⟨_, hfound⟩ := hdone
    split at hfound
    · exact congrArg (·.storeFailures) hfound.2.1
    · exact congrArg (·.tally.storeFailures) hfound.1
  | fetchWhole key len =>
    rw [step, ends_map]
    refine (fetchWhole_ends hs).imp ?_ fun _ _ h => hrefused _ h.2.2
    intro _ m' hdone
    obtain ⟨_, hfound⟩ := hdone
    split at hfound
    · exact congrArg (·.storeFailures) hfound.2.1
    · exact congrArg (·.tally.storeFailures) hfound.1
  | delete key =>
    rw [step, ends_map]
    exact (delete_ends hs).imp (fun _ _ h => h.2.storeFailures) fun _ _ h => h.elim
  | contains key => exact hrefused _ rfl

theorem after_storeFailures (hs : m.part.Sound) (steps : List (Step K)) :
    (after m steps).tally.storeFailures = m.tally.storeFailures := by
  induction steps generalizing m with
  | nil => rfl
  | cons s steps ih =>
    exact (ih (afterStep_sound hs s).1).trans (afterStep_storeFailures hs s)

-- The key that was stored last is in the cache: there is room for at least one.
theorem Stored.mem_keys (h : Stored key offset data m m') (hpos : 0 < m.part.capacity) :
    key ∈ m'.part.keys := by
  obtain ⟨capacity, hcapacity⟩ : ∃ k, m.part.capacity = k + 1 := ⟨m.part.capacity - 1, by omega⟩
  rw [h.keys, hcapacity, List.take_succ_cons]
  exact List.mem_cons_self

-- What was just stored comes back whole.
theorem Stored.fetch_ends (h : Stored key offset data m m') (hpos : 0 < m.part.capacity)
    (hfits : offset + data.size ≤ m.part.blockSize) :
    Ends (fetch key offset data.size) m'
      (fun found m'' => found = some data ∧ m''.tally.storeFailures = m'.tally.storeFailures)
      (fun _ _ => False) := by
  have hsize : m'.part.blockSize = m.part.blockSize := h.frame.blockSize
  refine (Engine.fetch_ends h.sound).imp ?_ fun _ _ hfailed => by omega
  intro found m'' hdone
  obtain ⟨_, hfound⟩ := hdone
  rw [if_pos (h.mem_keys hpos)] at hfound
  obtain ⟨_, htally, bytes, rfl, hlength, hbytes⟩ := hfound
  refine ⟨congrArg some (Bytes.ext_getElem? fun i => ?_), congrArg (·.storeFailures) htally⟩
  by_cases hi : i < data.size
  · rw [hbytes i hi, h.written (offset + i) (by omega) (by omega), Nat.add_sub_cancel_left]
  · rw [getElem?_neg bytes i (by omega), getElem?_neg data i hi]

-- In every run from a fresh engine, whatever was stored, evicted and deleted before, a store within
-- a block succeeds, and a fetch right after it returns what it stored.
theorem store_succeeds_after (h : new sizing memory = .ok e) (steps : List (Step K)) (key : K)
    (offset : Nat) (data : Bytes) (hfits : offset + data.size ≤ sizing.blockSize) :
    Spare (after ⟨e, {}⟩ steps) ∧
    Ends (store key offset data) (after ⟨e, {}⟩ steps)
      (fun flag m => flag = true ∧ m.part.contains key = true ∧ Spare m ∧
        Ends (fetch key offset data.size) m
          (fun found m' => found = some data ∧ m'.tally.storeFailures = 0) (fun _ _ => False))
      (fun _ _ => False) := by
  obtain ⟨hfresh, _, _, hsize, _⟩ := new_sound h
  obtain ⟨hs, hframe⟩ := after_sound (m := ⟨e, {}⟩) hfresh steps
  have hfailures : (after ⟨e, {}⟩ steps).tally.storeFailures = 0 := after_storeFailures hfresh steps
  have hblock : (after ⟨e, {}⟩ steps).part.blockSize = sizing.blockSize :=
    hframe.blockSize.trans hsize
  refine ⟨hs.spare hfailures, (store_ends hs).imp ?_ fun _ _ hfailed => by omega⟩
  intro flag m hdone
  obtain ⟨hflag, hfits', hstored⟩ := hdone
  have hnone := hstored.storeFailures.trans hfailures
  refine ⟨hflag, ?_, hstored.sound.spare hnone, ?_⟩
  · rw [contains, Recency.contains_eq]
    exact decide_eq_true (hstored.mem_keys hs.capacity_pos)
  · exact (hstored.fetch_ends hs.capacity_pos hfits').imp
      (fun _ _ hread => ⟨hread.1, hread.2.trans hnone⟩) fun _ _ => id

-- Three banks of three blocks, filled up, with evictions and a delete before: the ninth key goes to
-- the one free block and pushes out the oldest.
theorem store_succeeds_after_full : ∃ e : Engine Nat, new (.ofLayout 3 3 4) = .ok e ∧
    let steps : List (Step Nat) := (List.range 10).map (.store · 1 ⟨#[7]⟩) ++
      [.delete 5, .store 10 0 ⟨#[]⟩, .fetch 3 0 4]
    let m := after ⟨e, {}⟩ steps
    let data : Bytes := ⟨#[1, 2, 3]⟩
    m.part.keys = [3, 10, 9, 8, 7, 6, 4, 2] ∧ m.part.len = m.part.capacity ∧
    1 + data.size ≤ (Sizing.ofLayout 3 3 4).blockSize ∧ Spare m ∧
    Ends (store 11 1 data) m
      (fun flag m => flag = true ∧ m.part.contains 11 = true ∧ Spare m ∧
        Ends (fetch 11 1 data.size) m
          (fun found m' => found = some data ∧ m'.tally.storeFailures = 0) (fun _ _ => False))
      (fun _ _ => False) :=
  ⟨_, rfl, by decide +kernel, by decide +kernel, by decide +kernel,
    store_succeeds_after (show new (.ofLayout 3 3 4) = _ from rfl) _ 11 1 _ (by decide +kernel)⟩

end Engine

end Blockwise
