import Blockwise.Engine.Fleet
import Blockwise.Proofs.Engine.Allocation
import Mathlib.Algebra.BigOperators.Group.List.Basic

namespace Blockwise

namespace Act

variable {ε σ κ ρ : Type} {step : κ → EStateM ε σ ρ} {entered looked : σ → κ → Nat}

-- The state that a run of calls leaves, whichever of them fail.
def afterCalls (step : κ → EStateM ε σ ρ) (s : σ) (calls : List κ) : σ :=
  calls.foldl (fun s call => (outcome (step call) s).2) s

-- What a call counts for in the state it is made in: nothing if it fails.
def passing (step : κ → EStateM ε σ ρ) (count : σ → κ → Nat) (s : σ) (call : κ) : Nat :=
  match (outcome (step call) s).1 with
  | .ok _ => count s call
  | .error _ => 0

-- What the calls of a run that go through count for together.
def passed (step : κ → EStateM ε σ ρ) (count : σ → κ → Nat) : σ → List κ → Nat
  | _, [] => 0
  | s, call :: calls =>
    passing step count s call + passed step count (outcome (step call) s).2 calls

theorem balanced_after (balanced : σ → Nat → Nat → Prop)
    (hstep : ∀ s call a b, balanced s a b → Ends (step call) s
      (fun _ s' => balanced s' (a + entered s call) (b + looked s call))
      (fun _ s' => balanced s' a b))
    {s : σ} {a b : Nat} (h : balanced s a b) (calls : List κ) :
    balanced (afterCalls step s calls) (a + passed step entered s calls)
      (b + passed step looked s calls) := by
  induction calls generalizing s a b with
  | nil => exact h
  | cons call calls ih =>
    have hcall : balanced (outcome (step call) s).2 (a + passing step entered s call)
        (b + passing step looked s call) := by
      have hends := hstep s call a b h
      unfold passing outcome
      cases hrun : step call s with
      | ok r s' => exact hends.ok hrun
      | error e s' => exact hends.error hrun
    have hrest := ih hcall
    simp only [passed, ← Nat.add_assoc]
    exact hrest

end Act

namespace Engine

open Act

variable {K : Type} {key : K} {n offset : Nat} {data : Bytes} {m m' m'' : Metered (Engine K)}
  {entered entered' looked looked' : Nat}

-- The counters moved with the keys: blocks in use with the number of keys, blocks that ever came
-- into use with the keys that entered, hits and misses with the fetches.
structure Billed (entered looked : Nat) (m m' : Metered (Engine K)) : Prop where
  sound : m'.part.Sound
  resident : m'.tally.resident + m.part.len = m.tally.resident + m'.part.len
  entered : m'.tally.evictions + m'.tally.resident =
    m.tally.evictions + m.tally.resident + entered
  looked : m'.tally.hits + m'.tally.misses = m.tally.hits + m.tally.misses + looked
  storeFailures : m'.tally.storeFailures = m.tally.storeFailures

theorem Billed.refl (hs : m.part.Sound) : Billed 0 0 m m :=
  ⟨hs, rfl, by simp, rfl, rfl⟩

theorem Billed.trans (h : Billed entered looked m m') (h' : Billed entered' looked' m' m'') :
    Billed (entered + entered') (looked + looked') m m'' := by
  obtain ⟨_, hresident, hentered, hlooked, hfailures⟩ := h
  obtain ⟨hsound, hresident', hentered', hlooked', hfailures'⟩ := h'
  refine ⟨hsound, ?_, ?_, ?_, hfailures'.trans hfailures⟩ <;> omega

theorem Billed.missed (hs : m.part.Sound) : Billed 0 1 m ⟨m.part, m.tally.miss⟩ :=
  ⟨hs, rfl, by simp [Tally.miss], rfl, rfl⟩

theorem len_eq (e : Engine K) : e.len = e.keys.length := by
  simp [len, Recency.len, keys, Recency.keys]

variable [DecidableEq K]

-- Taking a key out of a list without doubles shortens it by one, if the key is in it.
theorem length_keys_filter {keys : List K} (hnodup : keys.Nodup) (key : K) :
    (keys.filter (· ≠ key)).length + (if key ∈ keys then 1 else 0) = keys.length := by
  have herase : keys.filter (· ≠ key) = keys.erase key := by
    rw [hnodup.erase_eq_filter]
    congr 1
    funext key'
    by_cases hsame : key' = key <;> simp [hsame]
  rw [herase]
  by_cases hmem : key ∈ keys
  · have hpos := List.length_pos_of_mem hmem
    rw [List.length_erase_of_mem hmem, if_pos hmem]
    omega
  · rw [List.erase_of_not_mem hmem, if_neg hmem, Nat.add_zero]

theorem Moved.len (hs : m.part.Sound) (hmem : key ∈ m.part.keys)
    (h : Moved key n m.part m'.part) : m'.part.len = m.part.len := by
  have hlength := length_keys_filter hs.keys_nodup key
  rw [if_pos hmem] at hlength
  rw [len_eq, len_eq, h.keys, List.length_cons, hlength]

theorem Moved.billed (hs : m.part.Sound) (hmem : key ∈ m.part.keys)
    (h : Moved key n m.part m'.part) (htally : m'.tally = m.tally.hit) : Billed 0 1 m m' := by
  have hlen := h.len hs hmem
  refine ⟨h.sound, ?_, ?_, ?_, ?_⟩
  · simp [htally, hlen, Tally.hit]
  · simp [htally, Tally.hit]
  · simp only [htally, Tally.hit]
    omega
  · simp [htally, Tally.hit]

-- A store that finds its key counts nothing. One that does not adds a block, and takes one away
-- again where the index was full.
theorem Stored.billed (hs : m.part.Sound) (h : Stored key offset data m m') :
    Billed (if key ∈ m.part.keys then 0 else 1) 0 m m' := by
  have hle := hs.len_le
  have hlength := length_keys_filter hs.keys_nodup key
  have hkeys : m'.part.len =
      min m.part.capacity ((m.part.keys.filter (· ≠ key)).length + 1) := by
    rw [len_eq, h.keys, List.length_take, List.length_cons]
  rw [len_eq] at hle
  refine ⟨h.sound, ?_, ?_, ?_, h.storeFailures⟩ <;> rw [h.tally]
  · rw [hkeys, len_eq]
    split
    · next hmem =>
      rw [if_pos hmem] at hlength
      omega
    · next habsent =>
      rw [if_neg habsent] at hlength
      split <;> simp only [Tally.stored, Tally.released] <;> omega
  · split
    · simp
    · split <;> simp only [Tally.stored, Tally.released] <;> omega
  · split
    · rfl
    · split <;> rfl

theorem Deleted.billed (hs : m.part.Sound) (h : Deleted key m m') : Billed 0 0 m m' := by
  have hlength := length_keys_filter hs.keys_nodup key
  refine ⟨h.sound, ?_, ?_, ?_, h.storeFailures⟩ <;> rw [h.tally]
  · rw [len_eq, len_eq, h.keys]
    split
    · next hmem =>
      rw [if_pos hmem] at hlength
      simp only [Tally.released]
      omega
    · next habsent =>
      rw [if_neg habsent] at hlength
      omega
  · split
    · simp only [Tally.released]
      omega
    · simp
  · split <;> rfl

theorem store_billed (hs : m.part.Sound) (key : K) (offset : Nat) (data : Bytes) :
    Ends (store key offset data) m
      (fun flag m' => flag = true ∧ Billed (if key ∈ m.part.keys then 0 else 1) 0 m m')
      (fun _ m' => m' = m) :=
  (store_ends hs).imp (fun _ _ h => ⟨h.1, h.2.2.billed hs⟩) fun _ _ h => h.2.2

theorem fetch_billed (hs : m.part.Sound) (key : K) (offset len : Nat) :
    Ends (fetch key offset len) m (fun _ m' => Billed 0 1 m m') (fun _ m' => m' = m) := by
  refine (fetch_ends hs).imp ?_ fun _ _ h => h.2.2
  intro found m' hdone
  obtain ⟨_, hfound⟩ := hdone
  split at hfound
  · next hmem =>
    obtain ⟨⟨n, hmoved⟩, htally, _⟩ := hfound
    exact hmoved.billed hs hmem htally
  · exact hfound.1 ▸ .missed hs

theorem fetchWhole_billed (hs : m.part.Sound) (key : K) (len : Nat) :
    Ends (fetchWhole key len) m (fun _ m' => Billed 0 1 m m') (fun _ m' => m' = m) := by
  by_cases hwhole : len = m.part.blockSize
  · simp only [fetchWhole, ends_bind, ends_get, hwhole, ne_eq, not_true_eq_false, if_false]
    exact fetch_billed hs key 0 _
  · simp only [fetchWhole, ends_bind, ends_get, ne_eq, hwhole, not_false_eq_true, if_true,
      ends_throw]

theorem delete_billed (hs : m.part.Sound) (key : K) :
    Ends (delete key) m (fun _ m' => Billed 0 0 m m') (fun _ _ => False) :=
  (delete_ends hs).imp (fun _ _ h => h.2.billed hs) fun _ _ => id

-- A store under a key that has no block.
def Step.enters (e : Engine K) : Step K → Nat
  | .store key _ _ => if e.contains key then 0 else 1
  | _ => 0

def Step.looks : Step K → Nat
  | .fetch .. | .fetchWhole .. => 1
  | _ => 0

theorem contains_iff {e : Engine K} : e.contains key = true ↔ key ∈ e.keys := by
  rw [contains, Recency.contains_eq, decide_eq_true_eq]
  rfl

theorem step_billed (hs : m.part.Sound) (s : Step K) :
    Ends (step s) m (fun _ m' => Billed (s.enters m.part) s.looks m m') (fun _ m' => m' = m) := by
  cases s with
  | store key offset data =>
    rw [step, ends_map]
    refine (store_billed hs key offset data).imp ?_ fun _ _ => id
    intro _ m' hdone
    simp only [Step.enters, contains_iff]
    exact hdone.2
  | fetch key offset len =>
    rw [step, ends_map]
    exact fetch_billed hs key offset len
  | fetchWhole key len =>
    rw [step, ends_map]
    exact fetchWhole_billed hs key len
  | delete key =>
    rw [step, ends_map]
    exact (delete_billed hs key).imp (fun _ _ => id) fun _ _ => False.elim
  | contains key => exact .refl hs

end Engine

namespace Fleet

open Act

variable {K : Type} {f : Fleet K} {e : Engine K} {i entered looked a b : Nat}
  {m : Metered (Engine K)}

-- The keys of all engines together.
def blocks (f : Fleet K) : Nat := (f.engines.map Engine.len).sum

-- Each engine as it is made, of whatever sizing, and no counter moved.
structure Fresh (f : Fleet K) : Prop where
  engines : ∀ e ∈ f.engines, ∃ sizing memory, Engine.new sizing memory = .ok e
  tally : f.tally = {}

-- What the shared counters say, where so many keys got a block and so many fetches were answered.
structure Balanced (f : Fleet K) (entered looked : Nat) : Prop where
  resident : f.tally.resident = f.blocks
  nonneg : 0 ≤ f.tally.resident
  entered : f.tally.evictions + f.tally.resident = entered
  looked : f.tally.hits + f.tally.misses = looked
  storeFailures : f.tally.storeFailures = 0

-- A fleet of sound engines whose counters add up.
structure Sound (f : Fleet K) (entered looked : Nat) : Prop where
  engines : ∀ e ∈ f.engines, e.Sound
  balanced : f.Balanced entered looked

theorem Fresh.sound (h : f.Fresh) : f.Sound 0 0 := by
  have hblocks : f.blocks = 0 := by
    refine List.sum_eq_zero fun len hlen => ?_
    obtain ⟨e, he, rfl⟩ := List.mem_map.mp hlen
    obtain ⟨sizing, memory, hnew⟩ := h.engines e he
    rw [Engine.len_eq, (Engine.new_sound hnew).2.1, List.length_nil]
  refine ⟨?_, ?_⟩
  · intro e he
    obtain ⟨sizing, memory, hnew⟩ := h.engines e he
    exact (Engine.new_sound hnew).1
  · exact ⟨by simp [h.tally, hblocks], by simp [h.tally], by simp [h.tally], by simp [h.tally],
      by simp [h.tally]⟩

-- A fleet with one engine and the counters as a call left them.
def keep (f : Fleet K) (i : Nat) (m : Metered (Engine K)) : Fleet K :=
  ⟨f.engines.set i m.part, m.tally⟩

theorem blocks_keep (he : f.engines[i]? = some e) (m : Metered (Engine K)) :
    (f.keep i m).blocks + e.len = f.blocks + m.part.len := by
  obtain ⟨engines, tally⟩ := f
  simp only [blocks, keep] at he ⊢
  induction engines generalizing i with
  | nil => simp at he
  | cons e' engines ih =>
    cases i with
    | zero =>
      obtain rfl : e' = e := by simpa using he
      simp only [List.set_cons_zero, List.map_cons, List.sum_cons]
      omega
    | succ i =>
      have hrest := ih (by simpa using he)
      simp only [List.set_cons_succ, List.map_cons, List.sum_cons]
      omega

-- What one engine is billed for goes to the books of all.
theorem Sound.keep (h : f.Sound a b) (he : f.engines[i]? = some e)
    (hbilled : Engine.Billed entered looked ⟨e, f.tally⟩ m) :
    (f.keep i m).Sound (a + entered) (b + looked) := by
  obtain ⟨hengines, hresident, hnonneg, hentered, hlooked, hfailures⟩ := h
  have hblocks := blocks_keep he m
  obtain ⟨hsound, hmoved, hsum, hfetched, hfailed⟩ := hbilled
  simp only at hmoved hsum hfetched hfailed
  have hkept : (f.keep i m).tally = m.tally := rfl
  refine ⟨?_, ?_, ?_, ?_, ?_, ?_⟩
  · intro e' he'
    rcases List.mem_or_eq_of_mem_set he' with hold | rfl
    · exact hengines e' hold
    · exact hsound
  · rw [hkept]
    omega
  · rw [hkept]
    omega
  · rw [hkept]
    omega
  · rw [hkept]
    omega
  · rw [hkept, hfailed, hfailures]

theorem engine_ok (he : f.engine i = .ok e) : f.engines[i]? = some e := by
  unfold engine Breach.elementAt at he
  split at he
  · cases he
    assumption
  · cases he

variable [DecidableEq K]

-- One call on the engine of the given number.
def call (c : Nat × Engine.Step K) : EStateM Breach (Fleet K) Engine.Reply := step c.1 c.2

-- A store under a key that the engine it is made on has no block for.
def enters (f : Fleet K) (c : Nat × Engine.Step K) : Nat :=
  match f.engines[c.1]? with
  | some e => c.2.enters e
  | none => 0

def looks (_ : Fleet K) (c : Nat × Engine.Step K) : Nat := c.2.looks

theorem step_sound (h : f.Sound a b) (c : Nat × Engine.Step K) :
    Ends (call c) f (fun _ f' => f'.Sound (a + f.enters c) (b + f.looks c))
      (fun _ f' => f'.Sound a b) := by
  obtain ⟨i, s⟩ := c
  unfold Ends call step
  cases he : f.engine i with
  | error breach => exact h
  | ok e =>
    have hengine := engine_ok he
    have hs := h.engines e (List.mem_of_getElem? hengine)
    have hbilled := Engine.step_billed (m := ⟨e, f.tally⟩) hs s
    cases hrun : Engine.step s ⟨e, f.tally⟩ with
    | ok reply m =>
      simp only [hrun, enters, looks, hengine]
      exact h.keep hengine (hbilled.ok hrun)
    | error breach m =>
      obtain rfl := hbilled.error hrun
      simp only [hrun]
      exact h.keep hengine (.refl hs)

end Fleet

end Blockwise
