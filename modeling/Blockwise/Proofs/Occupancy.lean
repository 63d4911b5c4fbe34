import Blockwise.Occupancy
import Mathlib.Tactic.Common

namespace Blockwise

namespace Occupancy

-- The bit that stands for a number, bits past the last block included.
def bit (t : Occupancy) (i : Nat) : Bool := (t.words[i / 64]?.getD 0).getLsbD (i % 64)

-- No bit past the last block is set, and the counter tells how many bits are.
structure Sound (t : Occupancy) : Prop where
  padding : ∀ i, t.len ≤ i → t.bit i = false
  counted : t.occupied = t.countTaken

variable {t : Occupancy} {b i n : Nat}

theorem getLsbD_mask (b j : Nat) : (mask b).getLsbD j = decide (j = b % 64) := by
  have hb : b % 64 < 64 := Nat.mod_lt _ (by decide)
  simp only [mask, BitVec.getLsbD_shiftLeft, BitVec.getLsbD_one]
  grind

theorem getLsbD_mask_sub_one (b j : Nat) :
    (mask b - 1).getLsbD j = decide (j < b % 64) := by
  have hb : b % 64 < 64 := Nat.mod_lt _ (by decide)
  have hpow : 2 ^ (b % 64) < 2 ^ 64 := Nat.pow_lt_pow_right (by decide) hb
  have hpos : 0 < 2 ^ (b % 64) := Nat.two_pow_pos _
  have hmask : (mask b).toNat = 2 ^ (b % 64) := by
    simp only [mask, BitVec.toNat_shiftLeft, BitVec.toNat_ofNat, Nat.shiftLeft_eq]
    rw [Nat.mod_eq_of_lt (show 1 < 2 ^ 64 by decide), Nat.one_mul, Nat.mod_eq_of_lt hpow]
  have hsub : (mask b - 1).toNat = 2 ^ (b % 64) - 1 := by
    rw [BitVec.toNat_sub_of_le]
    · rw [hmask]; rfl
    · rw [BitVec.le_def, hmask]; exact hpos
  rw [← BitVec.testBit_toNat, hsub, Nat.testBit_two_pow_sub_one]

-- The mask meets a word exactly in the bit it stands for.
theorem and_mask_ne_zero (word : BitVec 64) (b : Nat) :
    (word &&& mask b ≠ 0) ↔ word.getLsbD (b % 64) = true := by
  have hb : b % 64 < 64 := Nat.mod_lt _ (by decide)
  constructor
  · intro h
    by_contra hclear
    apply h
    apply BitVec.eq_of_getLsbD_eq
    intro j hj
    rw [BitVec.getLsbD_and, getLsbD_mask]
    by_cases hjb : j = b % 64
    · simpa [hjb] using hclear
    · simp [hjb]
  · intro h hzero
    have hbit := congrArg (·.getLsbD (b % 64)) hzero
    simp [getLsbD_mask, h] at hbit

theorem word_index_lt (h : b < t.len) : b / 64 < (t.len + 63) / 64 := by omega

theorem bit_eq (h : b < t.len) :
    t.bit b = (getElem t.words (b / 64) (word_index_lt h)).getLsbD (b % 64) := by
  simp [bit, word_index_lt h]

theorem isTaken_eq (t : Occupancy) (b : Nat) : t.isTaken b = (decide (b < t.len) && t.bit b) := by
  unfold isTaken
  by_cases h : b < t.len
  · rw [dif_pos h]
    have hmask := and_mask_ne_zero (t.words[b / 64]) b
    rw [← bit_eq h] at hmask
    by_cases hb : t.bit b <;> simp_all
  · simp [h]

theorem Sound.isTaken_eq_bit (hs : t.Sound) (b : Nat) : t.isTaken b = t.bit b := by
  rw [isTaken_eq]
  by_cases hb : b < t.len
  · simp [hb]
  · simp [hs.padding b (by omega)]

@[simp] theorem claim_len : (t.claim b).2.len = t.len := by
  unfold claim; grind

@[simp] theorem release_len : (t.release b).2.len = t.len := by
  unfold release; grind

theorem bit_claim (h : b < t.len) (i : Nat) :
    (t.claim b).2.bit i = (t.bit i || decide (i = b)) := by
  unfold claim
  rw [dif_pos h]
  dsimp only
  split
  · rename_i hword
    have htaken : t.bit b = true := by
      rw [bit_eq h]; exact (and_mask_ne_zero _ b).mp (by simpa using hword)
    by_cases hib : i = b
    · simp [hib, htaken]
    · simp [hib]
  · simp only [bit, Vector.getElem?_set]
    by_cases hword : b / 64 = i / 64
    · have hi : i / 64 < (t.len + 63) / 64 := by have := word_index_lt h; omega
      simp only [hword, if_true, Option.getD_some, BitVec.getLsbD_or, getLsbD_mask,
        Vector.getElem?_eq_getElem hi]
      congr 1
      apply decide_eq_decide.mpr
      omega
    · have hne : i ≠ b := by rintro rfl; exact hword rfl
      simp [hword, hne]

theorem bit_release (h : b < t.len) (i : Nat) :
    (t.release b).2.bit i = (t.bit i && !decide (i = b)) := by
  unfold release
  rw [dif_pos h]
  dsimp only
  split
  · rename_i hword
    have hfree : t.bit b = false := by
      rw [bit_eq h]
      by_contra hset
      exact (and_mask_ne_zero _ b).mpr (by simpa using hset) (by simpa using hword)
    by_cases hib : i = b
    · simp [hib, hfree]
    · simp [hib]
  · simp only [bit, Vector.getElem?_set]
    by_cases hword : b / 64 = i / 64
    · have hi : i / 64 < (t.len + 63) / 64 := by have := word_index_lt h; omega
      have hmod : i % 64 < 64 := Nat.mod_lt _ (by decide)
      simp only [hword, if_true, Option.getD_some, BitVec.getLsbD_and, BitVec.getLsbD_not,
        getLsbD_mask, Vector.getElem?_eq_getElem hi, hmod, decide_true, Bool.true_and]
      congr 2
      apply decide_eq_decide.mpr
      omega
    · have hne : i ≠ b := by rintro rfl; exact hword rfl
      simp [hword, hne]

theorem claim_fst (h : b < t.len) : (t.claim b).1 = !t.bit b := by
  have hmask := and_mask_ne_zero (t.words[b / 64]) b
  rw [← bit_eq h] at hmask
  unfold claim
  by_cases hb : t.bit b <;> simp_all

-- The words of a table, counted one by one, hold as many set bits as the numbers they stand for.
theorem foldr_popCount (words : List (BitVec 64)) :
    words.foldr (fun word total => popCount word + total) 0 =
      (List.range (64 * words.length)).countP
        fun i => (words[i / 64]?.getD 0).getLsbD (i % 64) := by
  induction words with
  | nil => simp
  | cons word words ih =>
    have hfirst : popCount word = (List.range 64).countP
        fun i => ((word :: words)[i / 64]?.getD 0).getLsbD (i % 64) := by
      apply List.countP_congr
      intro i hi
      have hi' : i < 64 := List.mem_range.mp hi
      simp [Nat.div_eq_of_lt hi', Nat.mod_eq_of_lt hi']
    have hrest : (List.range (64 * words.length)).countP
          (fun i => (words[i / 64]?.getD 0).getLsbD (i % 64)) =
        ((List.range (64 * words.length)).map (64 + ·)).countP
          fun i => ((word :: words)[i / 64]?.getD 0).getLsbD (i % 64) := by
      rw [List.countP_map]
      apply List.countP_congr
      intro i _
      have hdiv : (64 + i) / 64 = i / 64 + 1 := by omega
      have hmod : (64 + i) % 64 = i % 64 := by omega
      simp [hdiv, hmod]
    rw [List.foldr_cons, ih, List.length_cons, Nat.mul_add, Nat.mul_one, Nat.add_comm (64 * _),
      List.range_add, List.countP_append, hfirst, hrest]

theorem countTaken_eq (hpad : ∀ i, t.len ≤ i → t.bit i = false) :
    t.countTaken = (List.range t.len).countP t.bit := by
  have hlen : 64 * ((t.len + 63) / 64) = t.len + (64 * ((t.len + 63) / 64) - t.len) := by omega
  unfold countTaken
  rw [foldr_popCount, Vector.length_toList, hlen, List.range_add, List.countP_append]
  have hrest : ((List.range (64 * ((t.len + 63) / 64) - t.len)).map (t.len + ·)).countP
      (fun i => (t.words.toList[i / 64]?.getD 0).getLsbD (i % 64)) = 0 := by
    apply List.countP_eq_zero.mpr
    intro i hi
    obtain ⟨j, _, rfl⟩ := List.mem_map.mp hi
    simpa [bit] using hpad (t.len + j) (by omega)
  rw [hrest, Nat.add_zero]
  apply List.countP_congr
  intro i _
  simp [bit]

-- Setting one bit of a row adds one to its count.
theorem countP_range_or {p : Nat → Bool} (hb : b < n) (hp : p b = false) :
    (List.range n).countP (fun i => p i || decide (i = b)) = (List.range n).countP p + 1 := by
  induction n with
  | zero => omega
  | succ n ih =>
    rw [List.range_succ, List.countP_append, List.countP_append]
    by_cases hbn : b = n
    · subst hbn
      have hsame : (List.range b).countP (fun i => p i || decide (i = b)) =
          (List.range b).countP p := by
        apply List.countP_congr
        intro i hi
        have : i ≠ b := by have := List.mem_range.mp hi; omega
        simp [this]
      simp [hsame, hp]
    · have hne : n ≠ b := fun h => hbn h.symm
      rw [ih (by omega)]
      simp only [List.countP_singleton, hne, decide_false, Bool.or_false]
      omega

theorem Sound.claim (hs : t.Sound) (h : b < t.len) (hfree : t.bit b = false) :
    (t.claim b).2.Sound := by
  have hpad : ∀ i, (t.claim b).2.len ≤ i → (t.claim b).2.bit i = false := by
    intro i hi
    rw [claim_len] at hi
    rw [bit_claim h, hs.padding i hi, decide_eq_false (by omega)]
    rfl
  have hcount : (t.claim b).2.countTaken = t.countTaken + 1 := by
    rw [countTaken_eq hpad, countTaken_eq hs.padding, claim_len, funext (bit_claim h)]
    exact countP_range_or h hfree
  have hword : ¬(t.words[b / 64] &&& mask b ≠ 0) := by
    rw [and_mask_ne_zero, ← bit_eq h, hfree]; decide
  refine ⟨hpad, ?_⟩
  rw [hcount, ← hs.counted]
  simp_all [Occupancy.claim]

theorem Sound.release (hs : t.Sound) (h : b < t.len) (htaken : t.bit b = true) :
    (t.release b).2.Sound := by
  have hpad : ∀ i, (t.release b).2.len ≤ i → (t.release b).2.bit i = false := by
    intro i hi
    rw [release_len] at hi
    rw [bit_release h, hs.padding i hi]
    rfl
  have hcount : t.countTaken = (t.release b).2.countTaken + 1 := by
    rw [countTaken_eq hpad, countTaken_eq hs.padding, release_len, funext (bit_release h)]
    rw [← countP_range_or (p := fun i => t.bit i && !decide (i = b)) h (by simp)]
    apply List.countP_congr
    intro i _
    by_cases hib : i = b
    · simp [hib, htaken]
    · simp [hib]
  have hword : t.words[b / 64] &&& mask b ≠ 0 := by
    rw [and_mask_ne_zero, ← bit_eq h, htaken]
  refine ⟨hpad, ?_⟩
  have hoccupied : (t.release b).2.occupied = t.occupied - 1 := by
    simp_all [Occupancy.release]
  rw [hoccupied, hs.counted, hcount]
  rfl

-- A number the search passes by: it is taken, or its bit in the first word is to be ignored.
def Passed (t : Occupancy) (ignore : BitVec 64) (index i : Nat) : Prop :=
  t.bit i = true ∨ i / 64 = index ∧ ignore.getLsbD (i % 64) = true

theorem lowestSet_eq_some {word : BitVec 64} :
    lowestSet word = some b ↔
      b < 64 ∧ word.getLsbD b = true ∧ ∀ i < b, word.getLsbD i = false := by
  simp only [lowestSet, List.find?_range_eq_some, List.mem_range, Bool.not_eq_true']
  tauto

theorem lowestSet_eq_none {word : BitVec 64} :
    lowestSet word = none ↔ ∀ i < 64, word.getLsbD i = false := by
  simp only [lowestSet, List.find?_eq_none, List.mem_range, Bool.not_eq_true]

theorem passed_iff {ignore : BitVec 64} {index j : Nat} (hindex : index < (t.len + 63) / 64)
    (hj : j < 64) :
    Passed t ignore index (index * 64 + j) ↔
      (~~~(t.words[index] ||| ignore)).getLsbD j = false := by
  have hdiv : (index * 64 + j) / 64 = index := by omega
  have hmod : (index * 64 + j) % 64 = j := by omega
  simp only [Passed, bit, hdiv, hmod, true_and, BitVec.getLsbD_not, BitVec.getLsbD_or, hj,
    decide_true, Bool.true_and, Bool.not_eq_false', Bool.or_eq_true,
    Vector.getElem?_eq_getElem hindex, Option.getD_some]

-- The search runs word by word. Only the first word has bits to ignore, so what it passes after
-- that word is taken.
theorem scan_spec (t : Occupancy) (ignore : BitVec 64) (index : Nat) :
    match t.scan ignore index with
    | some b => index * 64 ≤ b ∧ b < t.len ∧ ¬Passed t ignore index b ∧
        ∀ i, index * 64 ≤ i → i < b → Passed t ignore index i
    | none => ∀ i, index * 64 ≤ i → i < t.len → Passed t ignore index i := by
  fun_induction scan t ignore index with
  | case1 ignore index hindex bit hlow hlen =>
    obtain ⟨hbit, hfree, hbelow⟩ := lowestSet_eq_some.mp hlow
    refine ⟨by omega, hlen, ?_, ?_⟩
    · rw [passed_iff hindex hbit, hfree]; decide
    · intro i hi hib
      have hsplit : i = index * 64 + (i - index * 64) := by omega
      rw [hsplit, passed_iff hindex (by omega)]
      exact hbelow _ (by omega)
  | case2 ignore index hindex bit hlow hlen =>
    obtain ⟨hbit, _, hbelow⟩ := lowestSet_eq_some.mp hlow
    intro i hi hib
    have hsplit : i = index * 64 + (i - index * 64) := by omega
    rw [hsplit, passed_iff hindex (by omega)]
    exact hbelow _ (by omega)
  | case3 ignore index hindex hlow ih =>
    have hword : ∀ i, index * 64 ≤ i → i < (index + 1) * 64 → Passed t ignore index i := by
      intro i hi hib
      have hsplit : i = index * 64 + (i - index * 64) := by omega
      rw [hsplit, passed_iff hindex (by omega)]
      exact lowestSet_eq_none.mp hlow _ (by omega)
    have hlater : ∀ i, (index + 1) * 64 ≤ i →
        (Passed t 0 (index + 1) i ↔ Passed t ignore index i) := by
      intro i hi
      have hdiv : i / 64 ≠ index := by omega
      simp [Passed, hdiv]
    cases hscan : t.scan 0 (index + 1) with
    | some b =>
      rw [hscan] at ih
      obtain ⟨hb, hlen, hfree, hbelow⟩ := ih
      refine ⟨by omega, hlen, (hlater b hb).not.mp hfree, ?_⟩
      intro i hi hib
      by_cases hin : i < (index + 1) * 64
      · exact hword i hi hin
      · exact (hlater i (by omega)).mp (hbelow i (by omega) hib)
    | none =>
      rw [hscan] at ih
      intro i hi hib
      by_cases hin : i < (index + 1) * 64
      · exact hword i hi hin
      · exact (hlater i (by omega)).mp (ih i (by omega) hib)
  | case4 ignore index hindex =>
    intro i hi hib
    omega

-- The least free block at or after a given one, if there is any.
theorem firstFree_spec (t : Occupancy) (start : Nat) :
    match t.firstFree start with
    | some b => start ≤ b ∧ b < t.len ∧ t.bit b = false ∧
        ∀ i, start ≤ i → i < b → t.bit i = true
    | none => ∀ i, start ≤ i → i < t.len → t.bit i = true := by
  have hpassed : ∀ i, start / 64 * 64 ≤ i →
      (Passed t (mask start - 1) (start / 64) i ↔ t.bit i = true ∨ i < start) := by
    intro i hi
    have hmod : i % 64 < 64 := Nat.mod_lt _ (by decide)
    simp only [Passed, getLsbD_mask_sub_one, decide_eq_true_eq]
    refine or_congr_right ⟨?_, ?_⟩ <;> omega
  have hscan := scan_spec t (mask start - 1) (start / 64)
  unfold firstFree
  by_cases hstart : start < t.len
  · rw [if_pos hstart]
    cases hb : t.scan (mask start - 1) (start / 64) with
    | some b =>
      rw [hb] at hscan
      obtain ⟨hle, hlen, hfree, hbelow⟩ := hscan
      rw [hpassed b hle, not_or, Bool.not_eq_true] at hfree
      refine ⟨by omega, hlen, hfree.1, ?_⟩
      intro i hi hib
      have := (hpassed i (by omega)).mp (hbelow i (by omega) hib)
      exact this.resolve_right (by omega)
    | none =>
      rw [hb] at hscan
      intro i hi hib
      have := (hpassed i (by omega)).mp (hscan i (by omega) hib)
      exact this.resolve_right (by omega)
  · rw [if_neg hstart]
    intro i hi hib
    omega

-- Nobody else changes the table, so the first claim is never lost.
theorem claimFirst_succ (t : Occupancy) (attempts : Nat) :
    t.claimFirst (attempts + 1) = match t.firstFree 0 with
      | none => (none, t)
      | some b => (some b, (t.claim b).2) := by
  have hfirst := firstFree_spec t 0
  rw [claimFirst]
  cases hb : t.firstFree 0 with
  | none => rfl
  | some b =>
    rw [hb] at hfirst
    obtain ⟨_, hlen, hfree, _⟩ := hfirst
    have hwon : (t.claim b).1 = true := by rw [claim_fst hlen, hfree]; rfl
    simp only
    split
    · rename_i t' hclaim
      rw [hclaim]
    · rename_i t' hclaim
      rw [hclaim] at hwon
      cases hwon

-- A table has a free block until the counter reaches its length.
theorem Sound.firstFree_isSome (hs : t.Sound) (h : t.isFull = false) :
    (t.firstFree 0).isSome = true := by
  have hfirst := firstFree_spec t 0
  cases hb : t.firstFree 0 with
  | some b => rfl
  | none =>
    rw [hb] at hfirst
    have hall : (List.range t.len).countP t.bit = (List.range t.len).length := by
      rw [List.countP_eq_length]
      intro i hi
      exact hfirst i (Nat.zero_le i) (List.mem_range.mp hi)
    rw [List.length_range, ← countTaken_eq hs.padding, ← hs.counted] at hall
    simp [isFull, hall] at h

-- The words of a table are counted without overflow, or it is not made.
theorem new_eq (len : Nat) : new len =
    if len + 63 < Word.limit then .ok (empty len) else .error .additionOverflow := by
  unfold new Word.sum
  split <;> rfl

theorem eq_empty_of_new {len : Nat} {t : Occupancy} (h : new len = .ok t) : t = empty len := by
  rw [new_eq] at h
  split at h
  · exact (Except.ok.inj h).symm
  · cases h

theorem bit_empty (len i : Nat) : (empty len).bit i = false := by
  show ((Vector.replicate ((len + 63) / 64) (0 : BitVec 64))[i / 64]?.getD 0).getLsbD _ = false
  rw [Vector.getElem?_replicate]
  split <;> simp

theorem sound_empty (len : Nat) : (empty len).Sound := by
  refine ⟨fun i _ => bit_empty len i, ?_⟩
  rw [countTaken_eq fun i _ => bit_empty len i, List.countP_eq_zero.mpr fun i _ => by
    simp [bit_empty]]
  rfl

end Occupancy

end Blockwise
