import Blockwise.Proofs.Engine.History

namespace Blockwise

-- The keys that a cache of so many blocks of this size holds.
structure Lru (K : Type) where
  capacity : Nat
  blockSize : Nat
  keys : List K := []

namespace Lru

variable {K : Type} [DecidableEq K]

def drop (r : Lru K) (key : K) : Lru K := { r with keys := r.keys.filter (· ≠ key) }

def moveToFront (r : Lru K) (key : K) : Lru K := { r with keys := key :: (r.drop key).keys }

-- A new key comes in front, and the last key leaves if there are too many then.
def enter (r : Lru K) (key : K) : Lru K :=
  let keys := key :: r.keys
  { r with keys := if r.capacity < keys.length then keys.dropLast else keys }

def lookUp (r : Lru K) (key : K) : Option Bool × Lru K :=
  if key ∈ r.keys then (some true, r.moveToFront key) else (some false, r)

-- What a call answers, none if it breaks its contract.
def step (r : Lru K) : Engine.Step K → Option Bool × Lru K
  | .store key offset data =>
    if r.blockSize < offset + data.size then (none, r)
    else (some true, if key ∈ r.keys then r.moveToFront key else r.enter key)
  | .fetch key offset len => if r.blockSize < offset + len then (none, r) else r.lookUp key
  | .fetchWhole key len => if len ≠ r.blockSize then (none, r) else r.lookUp key
  | .delete key => (some (decide (key ∈ r.keys)), r.drop key)
  | .contains key => (some (decide (key ∈ r.keys)), r)

-- Everything that can be seen of a run: each answer, and how many keys there are after it.
def views (r : Lru K) : List (Engine.Step K) → List (Option Bool × Nat × Bool)
  | [] => []
  | s :: steps =>
    let (answer, r') := r.step s
    (answer, r'.keys.length, r'.keys.isEmpty) :: views r' steps

def after (r : Lru K) (steps : List (Engine.Step K)) : Lru K :=
  steps.foldl (fun r s => (r.step s).2) r

theorem keys_drop_absent {r : Lru K} {key : K} (habsent : key ∉ r.keys) :
    (r.drop key).keys = r.keys := by
  refine List.filter_eq_self.mpr fun key' hmem => decide_eq_true ?_
  rintro rfl
  exact habsent hmem

-- Cut at the capacity, the list of keys is the same whether or not the key was there.
theorem take_eq_keys (r : Lru K) (hlen : r.keys.length ≤ r.capacity) (key : K) :
    (key :: r.keys.filter (· ≠ key)).take r.capacity =
      (if key ∈ r.keys then r.moveToFront key else r.enter key).keys := by
  by_cases hmem : key ∈ r.keys
  · have hless : (r.keys.filter (· ≠ key)).length < r.keys.length :=
      List.length_filter_lt_length_iff_exists.mpr ⟨key, hmem, by simp⟩
    rw [if_pos hmem, List.take_of_length_le (by rw [List.length_cons]; omega)]
    rfl
  · have hself : r.keys.filter (· ≠ key) = r.keys := keys_drop_absent hmem
    rw [if_neg hmem, hself]
    simp only [enter]
    split
    · next hfull =>
      rw [List.length_cons] at hfull
      have hcapacity : r.capacity = r.keys.length := by omega
      rw [List.dropLast_eq_take, List.length_cons, Nat.add_sub_cancel, hcapacity]
    · next hroom => rw [List.take_of_length_le (Nat.not_lt.mp hroom)]

end Lru

namespace Engine

open Act

variable {K : Type} [DecidableEq K] {e e' : Engine K} {m m' : Metered (Engine K)} {r : Lru K}
  {sizing sizing' : Sizing} {memory memory' : Memory}

def observe : Except Breach Reply → Option Bool
  | .ok (.flag b) => some b
  | .ok (.fetched _ found) => some found.isSome
  | .error _ => none

def views (m : Metered (Engine K)) : List (Step K) → List (Option Bool × Nat × Bool)
  | [] => []
  | s :: steps =>
    let (answer, m') := outcome (step s) m
    (observe answer, m'.part.len, m'.part.isEmpty) :: views m' steps

structure Refines (m : Metered (Engine K)) (r : Lru K) : Prop where
  sound : m.part.Sound
  capacity : m.part.capacity = r.capacity
  blockSize : m.part.blockSize = r.blockSize
  keys : m.part.keys = r.keys

omit [DecidableEq K] in
theorem Refines.of_frame {r' : Lru K} (h : Refines m r) (hs : m'.part.Sound)
    (hframe : Frame m.part m'.part) (hcapacity : r'.capacity = r.capacity)
    (hblock : r'.blockSize = r.blockSize) (hkeys : m'.part.keys = r'.keys) : Refines m' r' :=
  ⟨hs, hframe.capacity.trans (h.capacity.trans hcapacity.symm),
    hframe.blockSize.trans (h.blockSize.trans hblock.symm), hkeys⟩

-- The engine answers as the list of keys does, and goes where it goes.
def Follows (answer : Except Breach Reply) (m' : Metered (Engine K)) (r : Option Bool × Lru K) :
    Prop :=
  observe answer = r.1 ∧ Refines m' r.2

theorem store_refines (h : Refines m r) (key : K) (offset : Nat) (data : Bytes) :
    Ends (step (.store key offset data)) m
      (fun reply m' => Follows (.ok reply) m' (r.step (.store key offset data)))
      (fun b m' => Follows (.error b) m' (r.step (.store key offset data))) := by
  rw [step, ends_map]
  refine (store_ends h.sound).imp ?_ ?_
  · intro _ m' hdone
    obtain ⟨rfl, hfits, hstored⟩ := hdone
    rw [h.blockSize] at hfits
    rw [Lru.step, if_neg (Nat.not_lt.mpr hfits)]
    refine ⟨rfl, h.of_frame hstored.sound hstored.frame ?_ ?_ ?_⟩
    · split <;> rfl
    · split <;> rfl
    · have hlen : r.keys.length ≤ r.capacity := by
        rw [← h.keys, ← h.capacity, Engine.keys, Recency.keys, List.length_map]
        exact h.sound.len_le
      rw [hstored.keys, h.keys, h.capacity]
      exact r.take_eq_keys hlen key
  · intro b m' hfailed
    obtain ⟨hlong, _, rfl⟩ := hfailed
    rw [h.blockSize] at hlong
    rw [Lru.step, if_pos hlong]
    exact ⟨rfl, h⟩

theorem lookUp_follows (h : Refines m r) {key : K} {len : Nat} {found : Option Bytes}
    {known : Bytes → Prop}
    (hfound : if key ∈ m.part.keys then (∃ n, Moved key n m.part m'.part) ∧ m'.tally = m.tally.hit ∧
        ∃ bytes, found = some bytes ∧ known bytes
      else m' = ⟨m.part, m.tally.miss⟩ ∧ found = none) :
    Follows (.ok (.fetched len found)) m' (r.lookUp key) := by
  rw [h.keys] at hfound
  rw [Lru.lookUp]
  split at hfound
  · next hmem =>
    obtain ⟨⟨n, hmoved⟩, _, bytes, rfl, _⟩ := hfound
    rw [if_pos hmem]
    refine ⟨rfl, h.of_frame hmoved.sound hmoved.frame rfl rfl ?_⟩
    rw [hmoved.keys, h.keys]
    rfl
  · next habsent =>
    obtain ⟨rfl, rfl⟩ := hfound
    rw [if_neg habsent]
    exact ⟨rfl, h.sound, h.capacity, h.blockSize, h.keys⟩

theorem step_refines (h : Refines m r) (s : Step K) :
    Ends (step s) m (fun reply m' => Follows (.ok reply) m' (r.step s))
      (fun b m' => Follows (.error b) m' (r.step s)) := by
  cases s with
  | store key offset data => exact store_refines h key offset data
  | fetch key offset len =>
    rw [step, ends_map]
    refine (fetch_ends h.sound).imp ?_ ?_
    · intro found m' hdone
      obtain ⟨hfits, hfound⟩ := hdone
      rw [h.blockSize] at hfits
      rw [Lru.step, if_neg (Nat.not_lt.mpr hfits)]
      exact lookUp_follows h hfound
    · intro b m' hfailed
      obtain ⟨hlong, _, rfl⟩ := hfailed
      rw [h.blockSize] at hlong
      rw [Lru.step, if_pos hlong]
      exact ⟨rfl, h⟩
  | fetchWhole key len =>
    rw [step, ends_map]
    refine (fetchWhole_ends h.sound).imp ?_ ?_
    · intro found m' hdone
      obtain ⟨hwhole, hfound⟩ := hdone
      rw [h.blockSize] at hwhole
      rw [Lru.step, if_neg (not_not_intro hwhole)]
      exact lookUp_follows h hfound
    · intro b m' hfailed
      obtain ⟨hpart, _, rfl⟩ := hfailed
      rw [h.blockSize] at hpart
      rw [Lru.step, if_pos hpart]
      exact ⟨rfl, h⟩
  | delete key =>
    rw [step, ends_map]
    refine (delete_ends h.sound).imp ?_ fun _ _ => False.elim
    intro _ m' hdone
    obtain ⟨rfl, hdeleted⟩ := hdone
    rw [h.keys]
    refine ⟨rfl, h.of_frame hdeleted.sound hdeleted.frame rfl rfl ?_⟩
    rw [hdeleted.keys, h.keys]
    rfl
  | contains key =>
    refine ⟨?_, h⟩
    rw [observe, contains, Recency.contains_eq]
    exact congrArg (fun keys => some (decide (key ∈ keys))) h.keys

theorem afterStep_refines (h : Refines m r) (s : Step K) :
    observe (outcome (step s) m).1 = (r.step s).1 ∧ Refines (afterStep m s) (r.step s).2 :=
  Ends.settled (P := fun answer m' => Follows answer m' (r.step s)) (step_refines h s)

theorem Refines.views_eq (h : Refines m r) (steps : List (Step K)) : views m steps = r.views steps := by
  induction steps generalizing m r with
  | nil => rfl
  | cons s steps ih =>
    obtain ⟨hanswer, hnext⟩ := afterStep_refines h s
    have hlen : (afterStep m s).part.len = (r.step s).2.keys.length := by
      rw [← hnext.keys, Engine.keys, Recency.keys, List.length_map]
      rfl
    have hempty : (afterStep m s).part.isEmpty = (r.step s).2.keys.isEmpty := by
      rw [← hnext.keys, Engine.keys, Recency.keys, List.isEmpty_map]
      rfl
    have hview : (observe (outcome (step s) m).1, (afterStep m s).part.len,
        (afterStep m s).part.isEmpty) =
        ((r.step s).1, (r.step s).2.keys.length, (r.step s).2.keys.isEmpty) := by
      rw [hanswer, hlen, hempty]
    exact congrArg₂ List.cons hview (ih hnext)

theorem Refines.after (h : Refines m r) (steps : List (Step K)) :
    Refines (after m steps) (r.after steps) := by
  induction steps generalizing m r with
  | nil => exact h
  | cons s steps ih => exact ih (afterStep_refines h s).2

omit [DecidableEq K] in
theorem new_refines (h : new sizing memory = .ok e) :
    Refines ⟨e, {}⟩ ⟨e.capacity, sizing.blockSize, []⟩ := by
  obtain ⟨hs, hkeys, _, hsize, _⟩ := new_sound h
  exact ⟨hs, rfl, hsize, hkeys⟩

-- Every run from a fresh engine looks like the run of a list of keys, and holds its keys at the end.
theorem views_eq_lru (h : new sizing memory = .ok e) (steps : List (Step K)) :
    ∃ banks blocks, sizing.bankCount = .ok banks ∧ sizing.blocksPerBank = .ok blocks ∧
      let lru : Lru K := ⟨banks * blocks - 1, sizing.blockSize, []⟩
      views ⟨e, {}⟩ steps = lru.views steps ∧
      (after ⟨e, {}⟩ steps).part.keys = (lru.after steps).keys ∧
      ∀ key, (after ⟨e, {}⟩ steps).part.contains key = decide (key ∈ (lru.after steps).keys) := by
  obtain ⟨hs, _, _, _, hblocks, hbanks, _⟩ := new_sound h
  have hcapacity : e.arena.banks.length * e.arena.blocksPerBank - 1 = e.capacity := by
    rw [← hs.capacity_succ]
    rfl
  have hrefines := hcapacity ▸ new_refines h
  have hkeys := (hrefines.after steps).keys
  refine ⟨_, _, hbanks, hblocks, hrefines.views_eq steps, hkeys, fun key => ?_⟩
  rw [contains, Recency.contains_eq, ← hkeys]
  rfl

-- Two recently used keys survive a third one that comes in twice.
theorem views_eq_lru_small : ∃ e : Engine Nat, new (.ofLayout 1 3 4) = .ok e ∧
    let steps : List (Step Nat) := [.store 0 0 ⟨#[1]⟩, .store 1 0 ⟨#[2]⟩, .fetch 0 0 4,
      .store 2 0 ⟨#[3]⟩, .contains 1, .fetch 2 3 2, .delete 0, .fetchWhole 0 4]
    views ⟨e, {}⟩ steps = [(some true, 1, false), (some true, 2, false), (some true, 2, false),
      (some true, 2, false), (some false, 2, false), (none, 2, false), (some true, 1, false),
      (some false, 1, false)] ∧
    ∃ banks blocks, Sizing.bankCount (.ofLayout 1 3 4) = .ok banks ∧
      Sizing.blocksPerBank (.ofLayout 1 3 4) = .ok blocks ∧
      let lru : Lru Nat := ⟨banks * blocks - 1, 4, []⟩
      views ⟨e, {}⟩ steps = lru.views steps ∧
      (after ⟨e, {}⟩ steps).part.keys = (lru.after steps).keys ∧
      ∀ key, (after ⟨e, {}⟩ steps).part.contains key = decide (key ∈ (lru.after steps).keys) :=
  ⟨_, rfl, by decide +kernel,
    views_eq_lru (show new (.ofLayout 1 3 4) = _ from rfl) _⟩

-- How the blocks are spread over banks cannot be seen.
theorem views_of_layouts (h : new sizing memory = .ok e) (h' : new sizing' memory' = .ok e')
    (hblock : sizing.blockSize = sizing'.blockSize) (hcapacity : sizing.capacity = sizing'.capacity)
    (steps : List (Step K)) : views ⟨e, {}⟩ steps = views ⟨e', {}⟩ steps := by
  obtain ⟨_, _, _, _, _, _, hc⟩ := new_sound h
  obtain ⟨_, _, _, _, _, _, hc'⟩ := new_sound h'
  have hsame : e.capacity = e'.capacity := Except.ok.inj (hc.symm.trans (hcapacity.trans hc'))
  rw [(new_refines h).views_eq, (new_refines h').views_eq, hblock, hsame]

end Engine

end Blockwise
