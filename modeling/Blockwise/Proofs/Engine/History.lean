import Blockwise.Proofs.Engine.Calls

namespace Blockwise

namespace Engine

open Act

variable {K : Type} {e : Engine K} {m m' : Metered (Engine K)} {sizing : Sizing}
  {memory : Memory}

theorem Owned.fresh (banks blocks : Nat) :
    Owned (List.replicate banks (Occupancy.empty blocks)) [] := by
  refine ⟨?_, List.nodup_nil, ?_⟩
  · intro t ht
    rw [List.eq_of_mem_replicate ht]
    exact Occupancy.sound_empty blocks
  · intro bank block
    simp only [Taken, List.not_mem_nil, iff_false, not_exists, not_and]
    intro t ht
    rw [List.eq_of_mem_replicate (List.mem_of_getElem? ht), Occupancy.isTaken_eq,
      Occupancy.bit_empty, Bool.and_false]
    decide

-- A fresh engine is laid out as its sizing says, and all of it is free.
theorem new_sound (h : new sizing memory = .ok e) :
    e.Sound ∧ e.keys = [] ∧ sizing.check = .ok () ∧ e.arena.blockSize = sizing.blockSize ∧
      sizing.blocksPerBank = .ok e.arena.blocksPerBank ∧
      sizing.bankCount = .ok e.arena.banks.length ∧ sizing.capacity = .ok e.capacity := by
  obtain ⟨arena, harena, h⟩ := ok_of_bind h
  obtain ⟨table, htable, h⟩ := ok_of_bind h
  obtain ⟨capacity, hcapacity, h⟩ := ok_of_bind h
  obtain rfl := Occupancy.eq_empty_of_new (ok_of_mapError htable)
  have hcapacity := ok_of_mapError hcapacity
  obtain ⟨hcheck, hblocks, hbanks, hsize, hsound⟩ := Arena.new_ok harena
  have hcount : capacity = arena.blocksPerBank * arena.banks.length - 1 := by
    simpa [Sizing.capacity, hblocks, hbanks, bind, Except.bind, pure, Except.pure] using
      hcapacity.symm
  split at h
  · cases h
  next hpos =>
  obtain ⟨index, hindex, h⟩ := ok_of_bind h
  obtain rfl := Recency.eq_empty_of_withCapacity (ok_of_mapError hindex)
  obtain rfl := Except.ok.inj h
  refine ⟨⟨⟨hsound, ?_, ?_, ?_, ?_⟩, List.nodup_nil, Nat.zero_le _, ?_, ?_⟩, rfl, hcheck,
    hsize, hblocks, hbanks, hcapacity⟩
  · simp
  · intro t ht
    obtain ⟨b, _, rfl⟩ := List.mem_map.mp ht
    rfl
  · exact fun n hn => absurd hn List.not_mem_nil
  · show Owned (arena.banks.map fun _ => Occupancy.empty arena.blocksPerBank) []
    rw [List.map_const']
    exact .fresh _ _
  · exact Nat.pos_of_ne_zero hpos
  · show capacity + 1 = arena.banks.length * arena.blocksPerBank
    rw [Nat.mul_comm arena.banks.length]
    omega

variable [DecidableEq K]

-- The state that a call leaves, whether or not it fails.
def afterStep (m : Metered (Engine K)) (s : Step K) : Metered (Engine K) := (outcome (step s) m).2

def after (m : Metered (Engine K)) (steps : List (Step K)) : Metered (Engine K) :=
  steps.foldl afterStep m

theorem step_ends (hs : m.part.Sound) (s : Step K) :
    Ends (step s) m (fun _ m' => m'.part.Sound ∧ Frame m.part m'.part) (fun _ m' => m' = m) := by
  cases s with
  | store key offset data =>
    rw [step, ends_map]
    exact (store_ends hs).imp (fun _ _ h => ⟨h.2.2.sound, h.2.2.frame⟩) fun _ _ h => h.2.2
  | fetch key offset len =>
    rw [step, ends_map]
    refine (fetch_ends hs).imp ?_ fun _ _ h => h.2.2
    intro found m' hdone
    obtain ⟨_, hfound⟩ := hdone
    split at hfound
    · obtain ⟨⟨n, hmoved⟩, _⟩ := hfound
      exact ⟨hmoved.sound, hmoved.frame⟩
    · exact hfound.1 ▸ ⟨hs, .refl _⟩
  | fetchWhole key len =>
    rw [step, ends_map]
    refine (fetchWhole_ends hs).imp ?_ fun _ _ h => h.2.2
    intro found m' hdone
    obtain ⟨_, hfound⟩ := hdone
    split at hfound
    · obtain ⟨⟨n, hmoved⟩, _⟩ := hfound
      exact ⟨hmoved.sound, hmoved.frame⟩
    · exact hfound.1 ▸ ⟨hs, .refl _⟩
  | delete key =>
    rw [step, ends_map]
    exact (delete_ends hs).imp (fun _ _ h => ⟨h.2.sound, h.2.frame⟩) fun _ _ h => h.elim
  | contains key => exact ⟨hs, .refl _⟩

theorem afterStep_sound (hs : m.part.Sound) (s : Step K) :
    (afterStep m s).part.Sound ∧ Frame m.part (afterStep m s).part := by
  refine ((step_ends hs s).imp (fun _ _ h => h) ?_).outcome
  rintro _ m' rfl
  exact ⟨hs, .refl _⟩

theorem after_sound (hs : m.part.Sound) (steps : List (Step K)) :
    (after m steps).part.Sound ∧ Frame m.part (after m steps).part := by
  induction steps generalizing m with
  | nil => exact ⟨hs, .refl _⟩
  | cons s steps ih =>
    obtain ⟨hstep, hframe⟩ := afterStep_sound hs s
    obtain ⟨hsound, hframe'⟩ := ih hstep
    exact ⟨hsound, hframe.trans hframe'⟩

end Engine

end Blockwise
