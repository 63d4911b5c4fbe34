import Blockwise.Proofs.Engine.History

namespace Blockwise

namespace Engine

open Act

variable {K : Type} [DecidableEq K] {e : Engine K} {m : Metered (Engine K)} {sizing : Sizing}
  {memory : Memory} {key : K} {i offset : Nat} {byte : UInt8}

-- The last byte that was stored at each offset of each key, as long as the key is in the cache.
abbrev Ledger (K : Type) := K → Nat → Option UInt8

-- A store that succeeds is recorded where it writes. Nothing is known of a key that is not there.
def record (m : Metered (Engine K)) (s : Step K) (ledger : Ledger K) : Ledger K := fun key i =>
  let (answer, m') := outcome (step s) m
  if m'.part.contains key then
    match s, answer with
    | .store key' offset data, .ok (.flag true) =>
      if key = key' ∧ offset ≤ i ∧ i < offset + data.size then data[i - offset]? else ledger key i
    | _, _ => ledger key i
  else none

def ledgerAfter (m : Metered (Engine K)) (ledger : Ledger K) : List (Step K) → Ledger K
  | [] => ledger
  | s :: steps => ledgerAfter (afterStep m s) (record m s ledger) steps

-- The last stores to the keys that are there, in a run from an empty engine.
def lastStored (m : Metered (Engine K)) (steps : List (Step K)) : Ledger K :=
  ledgerAfter m (fun _ _ => none) steps

-- What is recorded lies in a block that is there, and is what the block holds.
def Recorded (m : Metered (Engine K)) (ledger : Ledger K) : Prop :=
  ∀ key i byte, ledger key i = some byte →
    key ∈ m.part.keys ∧ i < m.part.blockSize ∧ m.part.byteAt key i = some byte

theorem record_absent {s : Step K} {ledger : Ledger K} (h : key ∉ (afterStep m s).part.keys)
    (i : Nat) : record m s ledger key i = none := by
  have hcontains : (outcome (step s) m).2.part.contains key = false := by
    rw [contains, Recency.contains_eq]
    exact decide_eq_false h
  simp only [record, hcontains, Bool.false_eq_true, if_false]

-- Nothing but a store changes a byte of a key that stays.
theorem step_kept (hs : m.part.Sound) {s : Step K}
    (hno : ∀ key offset data, s ≠ .store key offset data) :
    ∀ key ∈ (afterStep m s).part.keys, (afterStep m s).part.byteAt key = m.part.byteAt key := by
  let kept (m' : Metered (Engine K)) : Prop :=
    ∀ key ∈ m'.part.keys, m'.part.byteAt key = m.part.byteAt key
  suffices hends : Ends (step s) m (fun _ => kept) (fun _ => kept) from hends.outcome
  cases s with
  | store key offset data => exact absurd rfl (hno key offset data)
  | fetch key offset len =>
    rw [step, ends_map]
    refine (fetch_ends hs).imp ?_ ?_
    · intro found m' hdone key' _
      obtain ⟨_, hfound⟩ := hdone
      split at hfound
      · obtain ⟨⟨n, hmoved⟩, _⟩ := hfound
        rw [hmoved.byteAt]
      · rw [hfound.1]
    · intro _ m' hfailed key' _
      obtain ⟨_, _, rfl⟩ := hfailed
      rfl
  | fetchWhole key len =>
    rw [step, ends_map]
    refine (fetchWhole_ends hs).imp ?_ ?_
    · intro found m' hdone key' _
      obtain ⟨_, hfound⟩ := hdone
      split at hfound
      · obtain ⟨⟨n, hmoved⟩, _⟩ := hfound
        rw [hmoved.byteAt]
      · rw [hfound.1]
    · intro _ m' hfailed key' _
      obtain ⟨_, _, rfl⟩ := hfailed
      rfl
  | delete key =>
    rw [step, ends_map]
    refine (delete_ends hs).imp ?_ fun _ _ => False.elim
    intro flag m' hdone key' hmem
    obtain ⟨_, hdeleted⟩ := hdone
    refine hdeleted.byteAt key' ?_
    rintro rfl
    rw [hdeleted.keys, List.mem_filter] at hmem
    simp at hmem
  | contains key => exact fun _ _ => rfl

theorem step_recorded (hs : m.part.Sound) {ledger : Ledger K} (hrec : Recorded m ledger)
    (s : Step K) : Recorded (afterStep m s) (record m s ledger) := by
  intro key i byte hbyte
  by_cases hmem : key ∈ (afterStep m s).part.keys
  case neg =>
    rw [record_absent hmem] at hbyte
    cases hbyte
  refine ⟨hmem, ?_⟩
  have hframe := (afterStep_sound hs s).2
  have hcontains : (outcome (step s) m).2.part.contains key = true := by
    rw [contains, Recency.contains_eq]
    exact decide_eq_true hmem
  rw [blockSize, hframe.blockSize]
  have hold : ledger key i = some byte → (afterStep m s).part.byteAt key i = m.part.byteAt key i →
      i < m.part.arena.blockSize ∧ (afterStep m s).part.byteAt key i = some byte := by
    intro hledger hkept
    obtain ⟨_, hi, hheld⟩ := hrec key i byte hledger
    exact ⟨hi, hkept.trans hheld⟩
  cases s with
  | store key' offset data =>
    have hends : Ends (step (.store key' offset data)) m
        (fun reply m' => reply = .flag true ∧ offset + data.size ≤ m.part.blockSize ∧
          Stored key' offset data m m') (fun _ m' => m' = m) := by
      rw [step, ends_map]
      exact (store_ends hs).imp (fun _ _ h => ⟨congrArg _ h.1, h.2⟩) fun _ _ h => h.2.2
    cases hx : step (.store key' offset data) m with
    | ok reply m' =>
      obtain ⟨rfl, hfits, hstored⟩ := hends.ok hx
      have hafter : outcome (step (.store key' offset data)) m = (.ok (.flag true), m') := by
        rw [outcome, hx]
      have hafter' : afterStep m (.store key' offset data) = m' := by rw [afterStep, hafter]
      rw [hafter] at hcontains
      simp only [record, hafter, hcontains, if_true] at hbyte
      rw [hafter'] at hmem hold ⊢
      split at hbyte
      · next hin =>
        obtain ⟨rfl, hle, hlt⟩ := hin
        exact ⟨Nat.lt_of_lt_of_le hlt hfits, (hstored.written i hle hlt).trans hbyte⟩
      · next hout =>
        obtain ⟨hmem', hi, _⟩ := hrec key i byte hbyte
        exact hold hbyte (hstored.kept key hmem i hi hmem' hout)
    | error b m' =>
      obtain rfl := hends.error hx
      have hafter : outcome (step (.store key' offset data)) m' = (.error b, m') := by
        rw [outcome, hx]
      have hafter' : afterStep m' (.store key' offset data) = m' := by rw [afterStep, hafter]
      rw [hafter] at hcontains
      simp only [record, hafter, hcontains, if_true] at hbyte
      exact hold hbyte (by rw [hafter'])
  | fetch | fetchWhole | delete | contains =>
    simp only [record, hcontains, if_true] at hbyte
    refine hold hbyte (congrFun (step_kept hs ?_ key hmem) i)
    intro _ _ _ h
    cases h

theorem ledgerAfter_recorded (hs : m.part.Sound) {ledger : Ledger K} (hrec : Recorded m ledger)
    (steps : List (Step K)) : Recorded (after m steps) (ledgerAfter m ledger steps) := by
  induction steps generalizing m ledger with
  | nil => exact hrec
  | cons s steps ih => exact ih (afterStep_sound hs s).1 (step_recorded hs hrec s)

-- A byte stays on record, until it is written again, for as long as its key stays.
theorem record_isSome {s : Step K} {ledger : Ledger K} (h : (ledger key i).isSome = true)
    (hmem : key ∈ (afterStep m s).part.keys) : (record m s ledger key i).isSome = true := by
  have hcontains : (outcome (step s) m).2.part.contains key = true := by
    rw [contains, Recency.contains_eq]
    exact decide_eq_true hmem
  simp only [record, hcontains, if_true]
  split
  · next offset data _ =>
    split
    · next hin =>
      rw [getElem?_pos data _ (by omega)]
      rfl
    · exact h
  · exact h

-- What a fetch of a range of a key may answer, given the last stores to it.
structure Answered (m : Metered (Engine K)) (ledger : Ledger K) (key : K) (offset : Nat)
    (buffer : Bytes) (found : Option Bytes) : Prop where
  hit : found.isSome = m.part.contains key
  size_eq : (filled buffer found).size = buffer.size
  untouched : found = none → filled buffer found = buffer
  stored : ∀ i byte, offset ≤ i → i < offset + buffer.size → ledger key i = some byte →
    (filled buffer found)[i - offset]? = some byte

theorem Answered.of_found {ledger : Ledger K} {buffer : Bytes} {found : Option Bytes}
    (hrec : Recorded m ledger)
    (hfound : if key ∈ m.part.keys then ∃ bytes, found = some bytes ∧ bytes.size = buffer.size ∧
        ∀ i < buffer.size, bytes[i]? = m.part.byteAt key (offset + i)
      else found = none) :
    Answered m ledger key offset buffer found := by
  have hcontains : m.part.contains key = decide (key ∈ m.part.keys) := Recency.contains_eq
  split at hfound
  · next hmem =>
    obtain ⟨bytes, rfl, hsize, hbytes⟩ := hfound
    refine ⟨?_, hsize, fun h => (Option.some_ne_none _ h).elim, ?_⟩
    · rw [hcontains, decide_eq_true hmem]
      rfl
    · intro i byte hle hlt hbyte
      have hoffset : offset + (i - offset) = i := by omega
      have hread := hbytes (i - offset) (by omega)
      rw [hoffset, (hrec key i byte hbyte).2.2] at hread
      exact hread
  · next habsent =>
    subst hfound
    refine ⟨?_, rfl, fun _ => rfl, ?_⟩
    · rw [hcontains, decide_eq_false habsent]
      rfl
    · intro i byte _ _ hbyte
      exact absurd (hrec key i byte hbyte).1 habsent

-- In every run from a fresh engine, fetches answer with the last stores and fail only on a range
-- that no block has.
theorem answered_after (h : new sizing memory = .ok e) (steps : List (Step K)) (key : K)
    (offset : Nat) (buffer : Bytes) :
    let m := after ⟨e, {}⟩ steps
    let ledger := lastStored ⟨e, {}⟩ steps
    Ends (fetch key offset buffer.size) m
      (fun found _ => Answered m ledger key offset buffer found)
      (fun _ _ => sizing.blockSize < offset + buffer.size) ∧
    Ends (fetchWhole key buffer.size) m
      (fun found _ => Answered m ledger key 0 buffer found)
      (fun _ _ => buffer.size ≠ sizing.blockSize) := by
  intro m ledger
  obtain ⟨hfresh, _, _, hsize, _⟩ := new_sound h
  obtain ⟨hs, hframe⟩ := after_sound (m := ⟨e, {}⟩) hfresh steps
  have hempty : Recorded ⟨e, {}⟩ (fun _ _ => none : Ledger K) := fun _ _ _ h => nomatch h
  have hrec : Recorded m ledger := ledgerAfter_recorded hfresh hempty steps
  have hblock : m.part.blockSize = sizing.blockSize := hframe.blockSize.trans hsize
  constructor
  · refine (fetch_ends hs).imp ?_ fun _ _ h => hblock ▸ h.1
    intro found _ hdone
    obtain ⟨_, hfound⟩ := hdone
    refine .of_found hrec ?_
    split at hfound
    · next hmem => rw [if_pos hmem]; exact hfound.2.2
    · next habsent => rw [if_neg habsent]; exact hfound.2
  · refine (fetchWhole_ends hs).imp ?_ fun _ _ h => hblock ▸ h.1
    intro found _ hdone
    obtain ⟨_, hfound⟩ := hdone
    refine .of_found hrec ?_
    simp only [Nat.zero_add]
    split at hfound
    · next hmem => rw [if_pos hmem]; exact hfound.2.2
    · next habsent => rw [if_neg habsent]; exact hfound.2

-- Three blocks for four keys: the first key comes back into a block that was used before, and two
-- stores to it overlap.
theorem answered_after_reuse : ∃ e : Engine Nat, new (.ofLayout 2 2 4) = .ok e ∧
    let steps : List (Step Nat) := [.store 0 0 ⟨#[1, 2, 3, 4]⟩, .store 1 0 ⟨#[5]⟩, .store 2 2 ⟨#[6]⟩,
      .store 3 0 ⟨#[7, 8]⟩, .store 0 1 ⟨#[9, 10]⟩, .store 0 2 ⟨#[11]⟩]
    let m := after ⟨e, {}⟩ steps
    let ledger := lastStored ⟨e, {}⟩ steps
    let buffer : Bytes := ⟨#[0, 0]⟩
    (List.range 4).map (ledger 0) = [none, some 9, some 11, none] ∧
    Ends (fetch 0 1 buffer.size) m (fun found _ => Answered m ledger 0 1 buffer found)
      (fun _ _ => (Sizing.ofLayout 2 2 4).blockSize < 1 + buffer.size) :=
  ⟨_, rfl, by decide +kernel,
    (answered_after (show new (.ofLayout 2 2 4) = _ from rfl) _ 0 1 ⟨#[0, 0]⟩).1⟩

end Engine

end Blockwise
