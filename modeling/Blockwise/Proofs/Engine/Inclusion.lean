import Blockwise.Proofs.Engine.Accounting
import Blockwise.Proofs.Engine.Residency
import Blockwise.Proofs.Matching
import Mathlib.Data.List.Forall2

namespace Blockwise

-- Cutting both lists keeps one within the other, unless it cuts more from the longer one.
theorem take_sublist_take {K : Type} {keys keys' : List K} (h : keys.Sublist keys') {n n' : Nat}
    (hroom : keys'.length + n ≤ n' + keys.length) : (keys.take n).Sublist (keys'.take n') := by
  induction h generalizing n n' with
  | slnil =>
    rw [List.take_nil]
    exact List.nil_sublist _
  | @cons keys keys' key hsub ih =>
    have hle := hsub.length_le
    rw [List.length_cons] at hroom
    obtain ⟨n', rfl⟩ : ∃ k, n' = k + 1 := ⟨n' - 1, by omega⟩
    exact (ih (by omega)).cons key
  | @cons_cons keys keys' key hsub ih =>
    have hle := hsub.length_le
    rw [List.length_cons, List.length_cons] at hroom
    cases n with
    | zero => exact List.nil_sublist _
    | succ n =>
      obtain ⟨n', rfl⟩ : ∃ k, n' = k + 1 := ⟨n' - 1, by omega⟩
      exact (ih (by omega)).cons_cons key

namespace Lru

variable {K : Type} {r r' : Lru K} {key : K}

-- All keys of the one are keys of the other, which has at least as many places free.
structure Within (r r' : Lru K) : Prop where
  blockSize : r.blockSize = r'.blockSize
  keys : r.keys.Sublist r'.keys
  nodup : r'.keys.Nodup
  fits : r.keys.length ≤ r.capacity
  room : r'.keys.length + r.capacity ≤ r'.capacity + r.keys.length

theorem Within.fits_outer (h : r.Within r') : r'.keys.length ≤ r'.capacity := by
  have hfits := h.fits
  have hroom := h.room
  omega

-- The same answer, or a hit where there was a miss.
def Below (answer answer' : Option Bool) : Prop :=
  (answer = none ↔ answer' = none) ∧ (answer = some true → answer' = some true)

theorem Below.miss {answer answer' : Option Bool} (h : Below answer answer')
    (hmiss : answer' = some false) : answer = some false := by
  subst hmiss
  match answer, h with
  | none, h => exact absurd (h.1.mp rfl) (Option.some_ne_none false)
  | some true, h => exact absurd (h.2 rfl) (by decide)
  | some false, _ => rfl

variable [DecidableEq K]

theorem not_mem_drop (r : Lru K) (key : K) : key ∉ (r.drop key).keys := by simp [drop]

theorem Within.drop (h : r.Within r') (key : K) : (r.drop key).Within (r'.drop key) := by
  have hlength := Engine.length_keys_filter (h.nodup.sublist h.keys) key
  have hlength' := Engine.length_keys_filter h.nodup key
  have hroom := h.room
  refine ⟨h.blockSize, h.keys.filter _, h.nodup.filter _, ?_, ?_⟩
  · exact Nat.le_trans (List.length_filter_le _ _) h.fits
  · simp only [Lru.drop]
    by_cases hmem : key ∈ r.keys
    · rw [if_pos hmem] at hlength
      rw [if_pos (h.keys.subset hmem)] at hlength'
      omega
    · rw [if_neg hmem] at hlength
      omega

-- The cache after a store, and after a hit.
def front (r : Lru K) (key : K) : Lru K :=
  { r with keys := (key :: (r.drop key).keys).take r.capacity }

theorem Within.front (h : r.Within r') (key : K) : (r.front key).Within (r'.front key) := by
  obtain ⟨hblock, hkeys, hnodup, hfits, hroom⟩ := h.drop key
  refine ⟨hblock, take_sublist_take (hkeys.cons_cons key) ?_, ?_, List.length_take_le _ _, ?_⟩
  · rw [List.length_cons, List.length_cons]
    simp only [Lru.drop] at hroom ⊢
    omega
  · exact (List.take_sublist _ _).nodup (List.nodup_cons.mpr ⟨not_mem_drop r' key, hnodup⟩)
  · simp only [Lru.front, Lru.drop, List.length_take, List.length_cons] at hroom ⊢
    omega

-- A key that only the bigger one has moves there and nowhere else.
theorem Within.hit (h : r.Within r') (habsent : key ∉ r.keys) (hmem : key ∈ r'.keys) :
    r.Within (r'.moveToFront key) := by
  have hlength : (r'.moveToFront key).keys.length = r'.keys.length := by
    have hlength' := Engine.length_keys_filter h.nodup key
    rw [if_pos hmem] at hlength'
    exact hlength'
  refine ⟨h.blockSize, ?_, List.nodup_cons.mpr ⟨not_mem_drop r' key, (h.drop key).nodup⟩, h.fits, ?_⟩
  · exact keys_drop_absent habsent ▸ (h.drop key).keys.cons key
  · rw [hlength]
    exact h.room

theorem front_eq (hlen : r.keys.length ≤ r.capacity) (key : K) :
    r.front key = if key ∈ r.keys then r.moveToFront key else r.enter key := by
  have hkeys : (key :: (r.drop key).keys).take r.capacity = _ := r.take_eq_keys hlen key
  rw [Lru.front, hkeys]
  split <;> rfl

theorem Within.lookUp (h : r.Within r') (key : K) :
    Below (r.lookUp key).1 (r'.lookUp key).1 ∧ (r.lookUp key).2.Within (r'.lookUp key).2 := by
  simp only [Lru.lookUp]
  by_cases hmem : key ∈ r.keys
  · have hmem' : key ∈ r'.keys := h.keys.subset hmem
    have hfront := h.front key
    rw [front_eq h.fits, front_eq h.fits_outer, if_pos hmem, if_pos hmem'] at hfront
    rw [if_pos hmem, if_pos hmem']
    exact ⟨⟨Iff.rfl, id⟩, hfront⟩
  · rw [if_neg hmem]
    by_cases hmem' : key ∈ r'.keys
    · rw [if_pos hmem']
      exact ⟨by simp [Below], h.hit hmem hmem'⟩
    · rw [if_neg hmem']
      exact ⟨⟨Iff.rfl, id⟩, h⟩

theorem Within.answer (h : r.Within r') (key : K) :
    Below (some (decide (key ∈ r.keys))) (some (decide (key ∈ r'.keys))) := by
  refine ⟨by simp, fun hmem => ?_⟩
  have hmem : key ∈ r.keys := of_decide_eq_true (Option.some.inj hmem)
  rw [decide_eq_true (h.keys.subset hmem)]

theorem Within.step (h : r.Within r') (s : Engine.Step K) :
    Below (r.step s).1 (r'.step s).1 ∧ (r.step s).2.Within (r'.step s).2 := by
  have hrefused : Below none none := ⟨Iff.rfl, id⟩
  cases s with
  | store key offset data =>
    simp only [Lru.step, ← h.blockSize]
    split
    · exact ⟨hrefused, h⟩
    · rw [← front_eq h.fits, ← front_eq h.fits_outer]
      exact ⟨⟨Iff.rfl, id⟩, h.front key⟩
  | fetch key offset len =>
    simp only [Lru.step, ← h.blockSize]
    split
    · exact ⟨hrefused, h⟩
    · exact h.lookUp key
  | fetchWhole key len =>
    simp only [Lru.step, ← h.blockSize]
    split
    · exact ⟨hrefused, h⟩
    · exact h.lookUp key
  | delete key => exact ⟨h.answer key, h.drop key⟩
  | contains key => exact ⟨h.answer key, h⟩

end Lru

namespace Engine

open Act

variable {K : Type} {e e' : Engine K} {m m' : Metered (Engine K)} {s s' : Step K}
  {sizing sizing' : Sizing} {memory memory' : Memory}

-- The same call, where a store may bring other bytes of the same number.
inductive Step.Parallel : Step K → Step K → Prop where
  | same (s : Step K) : Parallel s s
  | store (key : K) (offset : Nat) (data data' : Bytes) (hsize : data.size = data'.size) :
    Parallel (.store key offset data) (.store key offset data')

theorem Step.Parallel.looks_eq (h : s.Parallel s') : s.looks = s'.looks := by
  cases h <;> rfl

-- A fetch is counted as what it answers, and nothing else is.
structure Counted (answer : Option Bool) (looks : Nat) (m m' : Metered (Engine K)) : Prop where
  hits : m'.tally.hits = m.tally.hits + if answer = some true then looks else 0
  misses : m'.tally.misses = m.tally.misses + if answer = some false then looks else 0

-- A call that is not a fetch counts for nothing, whatever it answers.
theorem Counted.idle {answer : Option Bool} (hhits : m'.tally.hits = m.tally.hits)
    (hmisses : m'.tally.misses = m.tally.misses) : Counted answer 0 m m' :=
  ⟨by rw [hhits, ite_self, Nat.add_zero], by rw [hmisses, ite_self, Nat.add_zero]⟩

theorem Counted.refused {looks : Nat} : Counted none looks m m := ⟨rfl, rfl⟩

-- Of two engines, the second has the keys of the first and did no worse so far.
structure Dominated (m m' : Metered (Engine K)) : Prop where
  within : ∃ r r', Refines m r ∧ Refines m' r' ∧ r.Within r'
  hits : m.tally.hits ≤ m'.tally.hits
  misses : m'.tally.misses ≤ m.tally.misses

theorem Dominated.keys (h : Dominated m m') : m.part.keys.Sublist m'.part.keys := by
  obtain ⟨⟨r, r', hr, hr', hwithin⟩, _, _⟩ := h
  rw [hr.keys, hr'.keys]
  exact hwithin.keys

variable [DecidableEq K]

theorem Step.Parallel.step_eq (h : s.Parallel s') (r : Lru K) : r.step s = r.step s' := by
  cases h with
  | same => rfl
  | store key offset data data' hsize => simp only [Lru.step, hsize]

theorem lookUp_counted {key : K} {len : Nat} {found : Option Bytes} {known : Bytes → Prop}
    (hfound : if key ∈ m.part.keys then (∃ n, Moved key n m.part m'.part) ∧ m'.tally = m.tally.hit ∧
        ∃ bytes, found = some bytes ∧ known bytes
      else m' = ⟨m.part, m.tally.miss⟩ ∧ found = none) :
    Counted (observe (.ok (.fetched len found))) 1 m m' := by
  split at hfound
  · obtain ⟨_, htally, bytes, rfl, _⟩ := hfound
    exact ⟨by rw [htally]; rfl, by rw [htally]; rfl⟩
  · obtain ⟨rfl, rfl⟩ := hfound
    exact ⟨rfl, rfl⟩

theorem step_counted (hs : m.part.Sound) (s : Step K) :
    Ends (step s) m (fun reply m' => Counted (observe (.ok reply)) s.looks m m')
      (fun _ m' => Counted none s.looks m m') := by
  cases s with
  | store key offset data =>
    rw [step, ends_map]
    refine (store_ends hs).imp ?_ ?_
    · intro _ m' hdone
      have htally := hdone.2.2.tally
      refine .idle ?_ ?_ <;> rw [htally]
      all_goals
        split
        · rfl
        · split <;> rfl
    · intro _ m' hfailed
      obtain ⟨_, _, rfl⟩ := hfailed
      exact .refused
  | fetch key offset len =>
    rw [step, ends_map]
    refine (fetch_ends hs).imp (fun _ _ hdone => lookUp_counted hdone.2) ?_
    intro _ m' hfailed
    obtain ⟨_, _, rfl⟩ := hfailed
    exact .refused
  | fetchWhole key len =>
    rw [step, ends_map]
    refine (fetchWhole_ends hs).imp (fun _ _ hdone => lookUp_counted hdone.2) ?_
    intro _ m' hfailed
    obtain ⟨_, _, rfl⟩ := hfailed
    exact .refused
  | delete key =>
    rw [step, ends_map]
    refine (delete_ends hs).imp ?_ fun _ _ => False.elim
    intro _ m' hdone
    have htally := hdone.2.tally
    refine .idle ?_ ?_ <;> rw [htally] <;> split <;> rfl
  | contains key => exact Counted.idle rfl rfl

theorem afterStep_counted (hs : m.part.Sound) (s : Step K) :
    Counted (observe (outcome (step s) m).1) s.looks m (afterStep m s) :=
  Ends.settled (P := fun answer m' => Counted (observe answer) s.looks m m') (step_counted hs s)

theorem Dominated.step (h : Dominated m m') (hp : s.Parallel s') :
    Lru.Below (observe (outcome (Engine.step s) m).1) (observe (outcome (Engine.step s') m').1) ∧
      Dominated (afterStep m s) (afterStep m' s') := by
  obtain ⟨⟨r, r', hr, hr', hwithin⟩, hhits, hmisses⟩ := h
  obtain ⟨hanswer, hnext⟩ := afterStep_refines hr s
  obtain ⟨hanswer', hnext'⟩ := afterStep_refines hr' s'
  have hcounted := afterStep_counted hr.sound s
  have hcounted' := afterStep_counted hr'.sound s'
  rw [hanswer] at hcounted ⊢
  rw [hanswer', ← hp.step_eq] at hcounted' ⊢
  rw [← hp.looks_eq] at hcounted'
  rw [← hp.step_eq] at hnext'
  obtain ⟨hbelow, hwithin'⟩ := hwithin.step s
  refine ⟨hbelow, ⟨_, _, hnext, hnext', hwithin'⟩, ?_, ?_⟩
  · rw [hcounted.hits, hcounted'.hits]
    refine Nat.add_le_add hhits ?_
    split
    · next hhit => exact Nat.le_of_eq (if_pos (hbelow.2 hhit)).symm
    · exact Nat.zero_le _
  · rw [hcounted.misses, hcounted'.misses]
    refine Nat.add_le_add hmisses ?_
    split
    · next hmiss => exact Nat.le_of_eq (if_pos (hbelow.miss hmiss)).symm
    · exact Nat.zero_le _

theorem Dominated.run {steps steps' : List (Step K)} (h : Dominated m m')
    (hsteps : List.Forall₂ Step.Parallel steps steps') :
    List.Forall₂ (fun answer answer' => Lru.Below (observe answer) (observe answer'))
        (answers Engine.step m steps) (answers Engine.step m' steps') ∧
      Dominated (after m steps) (after m' steps') := by
  induction hsteps generalizing m m' with
  | nil => exact ⟨.nil, h⟩
  | cons hp _ ih =>
    obtain ⟨hbelow, hnext⟩ := h.step hp
    obtain ⟨hanswers, hrest⟩ := ih hnext
    exact ⟨.cons hbelow hanswers, hrest⟩

-- Two engines of one block size, the second with as many places as the first or more. At every
-- moment the keys of the first are keys of the second, last used in the same order.
theorem included_after {steps steps' : List (Step K)} (h : new sizing memory = .ok e)
    (h' : new sizing' memory' = .ok e') (hblock : sizing.blockSize = sizing'.blockSize)
    (hle : e.capacity ≤ e'.capacity) (hsteps : List.Forall₂ Step.Parallel steps steps') :
    let small : Metered (Engine K) := ⟨e, {}⟩
    let large : Metered (Engine K) := ⟨e', {}⟩
    List.Forall₂ (fun answer answer' => Lru.Below (observe answer) (observe answer'))
        (answers step small steps) (answers step large steps') ∧
      ∀ n, let m := after small (steps.take n)
        let m' := after large (steps'.take n)
        m.part.keys.Sublist m'.part.keys ∧
          (∀ key, m.part.contains key = true → m'.part.contains key = true) ∧
          m.tally.hits ≤ m'.tally.hits ∧ m'.tally.misses ≤ m.tally.misses := by
  intro small large
  have hstart : Dominated small large :=
    ⟨⟨_, _, new_refines h, new_refines h', hblock, List.Sublist.refl _, List.nodup_nil,
      Nat.zero_le _, by simpa using hle⟩, Nat.le_refl _, Nat.le_refl _⟩
  refine ⟨(hstart.run hsteps).1, fun n => ?_⟩
  have hrun := (hstart.run (List.forall₂_take n hsteps)).2
  refine ⟨hrun.keys, fun key hmem => ?_, hrun.hits, hrun.misses⟩
  rw [contains_iff] at hmem ⊢
  exact hrun.keys.subset hmem

-- Key 0 is pushed out of two places but not out of five, so the fetch that follows reorders only the
-- bigger engine, and the delete leaves both partly empty.
theorem included_after_small : ∃ e e' : Engine Nat,
    new (.ofLayout 1 3 4) = .ok e ∧ new (.ofLayout 2 3 4) = .ok e' ∧
    let steps : List (Step Nat) := [.store 0 0 ⟨#[1]⟩, .store 1 0 ⟨#[2]⟩, .store 2 0 ⟨#[3]⟩,
      .fetch 0 0 4, .delete 1, .fetchWhole 2 4]
    let steps' : List (Step Nat) := [.store 0 0 ⟨#[4]⟩, .store 1 0 ⟨#[2]⟩, .store 2 0 ⟨#[3]⟩,
      .fetch 0 0 4, .delete 1, .fetchWhole 2 4]
    let m := after ⟨e, {}⟩ steps
    let m' := after ⟨e', {}⟩ steps'
    e.capacity = 2 ∧ e'.capacity = 5 ∧ m.part.keys = [2] ∧ m'.part.keys = [2, 0] ∧
      m.tally.hits = 1 ∧ m'.tally.hits = 2 ∧ m.part.keys.Sublist m'.part.keys ∧
      (∀ key, m.part.contains key = true → m'.part.contains key = true) ∧
      m.tally.hits ≤ m'.tally.hits ∧ m'.tally.misses ≤ m.tally.misses := by
  have hnew : new (K := Nat) (.ofLayout 1 3 4) = .ok _ := rfl
  have hnew' : new (K := Nat) (.ofLayout 2 3 4) = .ok _ := rfl
  refine ⟨_, _, hnew, hnew', ?_⟩
  intro steps steps' m m'
  have hsteps : List.Forall₂ Step.Parallel steps steps' :=
    .cons (.store 0 0 ⟨#[1]⟩ ⟨#[4]⟩ rfl) (List.forall₂_same.mpr fun s _ => .same s)
  refine ⟨rfl, rfl, by decide +kernel, by decide +kernel, by decide +kernel, by decide +kernel, ?_⟩
  exact (included_after hnew hnew' rfl (by decide) hsteps).2 6

end Engine

end Blockwise
