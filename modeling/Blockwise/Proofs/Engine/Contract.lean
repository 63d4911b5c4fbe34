import Blockwise.Proofs.Engine.History
import Blockwise.Proofs.Matching

namespace Blockwise

namespace Engine

open Act

variable {K : Type} [DecidableEq K] {e : Engine K} {m m' : Metered (Engine K)} {s : Step K}
  {b : Breach} {sizing : Sizing} {memory : Memory}

-- What a call breaks on blocks of this size, if anything.
def Step.breach (size : Nat) : Step K → Option Breach
  | .store _ offset data =>
    if size < offset + data.size
    then some (Word.overrun offset data.size (.storeTooLong size data.size offset)) else none
  | .fetch _ offset len =>
    if size < offset + len
    then some (Word.overrun offset len (.fetchTooLong size len offset)) else none
  | .fetchWhole _ len => if len ≠ size then some (.wrongBufferSize size len) else none
  | .delete _ | .contains _ => none

theorem step_contract (hs : m.part.Sound) (s : Step K) :
    Ends (step s) m (fun _ _ => s.breach m.part.blockSize = none)
      (fun b m' => s.breach m.part.blockSize = some b ∧ m' = m) := by
  cases s with
  | store key offset data =>
    rw [step, ends_map]
    refine (store_ends hs).imp ?_ ?_
    · intro _ _ hdone
      exact if_neg (Nat.not_lt.mpr hdone.2.1)
    · intro _ _ hfailed
      obtain ⟨hlong, rfl, rfl⟩ := hfailed
      exact ⟨if_pos hlong, rfl⟩
  | fetch key offset len =>
    rw [step, ends_map]
    refine (fetch_ends hs).imp ?_ ?_
    · intro _ _ hdone
      exact if_neg (Nat.not_lt.mpr hdone.1)
    · intro _ _ hfailed
      obtain ⟨hlong, rfl, rfl⟩ := hfailed
      exact ⟨if_pos hlong, rfl⟩
  | fetchWhole key len =>
    rw [step, ends_map]
    refine (fetchWhole_ends hs).imp ?_ ?_
    · intro _ _ hdone
      exact if_neg (not_not_intro hdone.1)
    · intro _ _ hfailed
      obtain ⟨hpart, rfl, rfl⟩ := hfailed
      exact ⟨if_pos hpart, rfl⟩
  | delete key =>
    rw [step, ends_map]
    exact (delete_ends hs).imp (fun _ _ _ => rfl) fun _ _ => False.elim
  | contains key =>
    have hnone : (Step.contains key).breach m.part.blockSize = none := rfl
    exact hnone

theorem step_eq_error_iff (hs : m.part.Sound) :
    step s m = .error b m' ↔ s.breach m.part.blockSize = some b ∧ m' = m := by
  have hends := step_contract hs s
  constructor
  · exact hends.error
  · rintro ⟨hbreach, rfl⟩
    cases hx : step s m' with
    | ok reply m'' => exact absurd (hbreach.symm.trans (hends.ok hx)) (Option.some_ne_none b)
    | error b' m'' =>
      obtain ⟨hbreach', rfl⟩ := hends.error hx
      rw [Option.some.inj (hbreach'.symm.trans hbreach)]

-- A run in two parts.
theorem answers_append (m : Metered (Engine K)) (steps later : List (Step K)) :
    answers step m (steps ++ later) =
      answers step m steps ++ answers step (after m steps) later := by
  induction steps generalizing m with
  | nil => rfl
  | cons s steps ih => exact congrArg _ (ih (afterStep m s))

theorem after_append (m : Metered (Engine K)) (steps later : List (Step K)) :
    after m (steps ++ later) = after (after m steps) later := List.foldl_append

-- A refused call answers with its breach, and the run goes on as if it had not been made.
theorem answers_refused (hrefused : step s m = .error b m) (later : List (Step K)) :
    answers step m (s :: later) = .error b :: answers step m later := by
  rw [answers, outcome, hrefused]

theorem after_refused (hrefused : step s m = .error b m) (later : List (Step K)) :
    after m (s :: later) = after m later := by
  have hstep : afterStep m s = m := by rw [afterStep, outcome, hrefused]
  rw [after, List.foldl_cons, hstep]
  rfl

-- In every state that calls lead to from a fresh engine, whatever its counters said before: a call
-- fails exactly where its sizes do not fit, and a run with a refused call goes on as if it had been
-- left out.
theorem contract_after (h : new sizing memory = .ok e) (t : Tally) (steps : List (Step K))
    (s : Step K) :
    let start : Metered (Engine K) := ⟨e, t⟩
    let m := after start steps
    (∀ b m', step s m = .error b m' ↔ s.breach sizing.blockSize = some b ∧ m' = m) ∧
    ∀ b, s.breach sizing.blockSize = some b → ∀ later,
      answers step start (steps ++ s :: later) =
        answers step start steps ++ .error b :: answers step m later ∧
      answers step start (steps ++ later) = answers step start steps ++ answers step m later ∧
      after start (steps ++ s :: later) = after start (steps ++ later) := by
  intro start m
  obtain ⟨hfresh, _, _, hsize, _⟩ := new_sound h
  obtain ⟨hs, hframe⟩ := after_sound (m := start) hfresh steps
  have hblock : m.part.blockSize = sizing.blockSize := hframe.blockSize.trans hsize
  rw [← hblock]
  refine ⟨fun _ _ => step_eq_error_iff hs, fun b hbreach later => ?_⟩
  have hrefused : step s m = .error b m := (step_eq_error_iff hs).mpr ⟨hbreach, rfl⟩
  refine ⟨?_, answers_append start steps later, ?_⟩
  · rw [answers_append, answers_refused hrefused]
  · rw [after_append, after_append, after_refused hrefused]

-- A store that reaches beyond the block of a key that is there.
theorem contract_after_small : ∃ e : Engine Nat, new (.ofLayout 1 3 4) = .ok e ∧
    let start : Metered (Engine Nat) := ⟨e, {}⟩
    let steps : List (Step Nat) := [.store 0 0 ⟨#[1]⟩, .store 1 3 ⟨#[2]⟩]
    let s : Step Nat := .store 0 2 ⟨#[3, 4, 5]⟩
    step s (after start steps) = .error (.storeTooLong 4 3 2) (after start steps) ∧
      ∀ later, after start (steps ++ s :: later) = after start (steps ++ later) := by
  obtain ⟨e, hnew⟩ : ∃ e : Engine Nat, new (.ofLayout 1 3 4) = .ok e := ⟨_, rfl⟩
  refine ⟨e, hnew, ?_⟩
  intro start steps s
  obtain ⟨hexact, htrace⟩ := contract_after hnew {} steps s
  exact ⟨(hexact _ _).mpr ⟨rfl, rfl⟩, fun later => (htrace _ rfl later).2.2⟩

end Engine

end Blockwise
