import Blockwise.Proofs.Occupancy
import Mathlib.Data.Finset.Max
import Mathlib.Order.Interval.Finset.Nat

namespace Blockwise

-- The numbers of the blocks that are taken, out of so many.
structure Roster where
  len : Nat
  taken : Finset Nat := ∅

namespace Roster

open Occupancy (Step Reply)

def vacant (r : Roster) : Finset Nat := Finset.range r.len \ r.taken

def leastVacant (r : Roster) (start : Nat) : Option Nat :=
  let later := r.vacant.filter (start ≤ ·)
  if h : later.Nonempty then some (later.min' h) else none

def claim (r : Roster) (b : Nat) : Roster :=
  if b < r.len then { r with taken := insert b r.taken } else r

def release (r : Roster) (b : Nat) : Roster := { r with taken := r.taken.erase b }

def step (r : Roster) : Step → Reply × Roster
  | .claim b => (.flag (decide (b < r.len ∧ b ∉ r.taken)), r.claim b)
  | .release b => (.flag (decide (b ∈ r.taken)), r.release b)
  | .isTaken b => (.flag (decide (b ∈ r.taken)), r)
  | .firstFree start => (.found (r.leastVacant start), r)
  | .claimRange first last =>
    (.count (Finset.Ico first last ∩ r.vacant).card,
      { r with taken := r.taken ∪ Finset.Ico first last ∩ r.vacant })
  | .releaseRange first last =>
    (.count (Finset.Ico first last ∩ r.taken).card,
      { r with taken := r.taken \ Finset.Ico first last })

-- Everything that can be seen of a run: each answer, and after it the counter, the number of set
-- bits and whether all blocks are taken.
def views (r : Roster) : List Step → List (Reply × Nat × Nat × Bool)
  | [] => []
  | s :: steps =>
    let (reply, r') := r.step s
    (reply, r'.taken.card, r'.taken.card, decide (r'.taken.card = r'.len)) :: views r' steps

def after (r : Roster) (steps : List Step) : Roster := steps.foldl (fun r s => (r.step s).2) r

variable {r : Roster} {start b : Nat}

theorem step_len (r : Roster) (s : Step) : (r.step s).2.len = r.len := by
  cases s with
  | claim b =>
    rw [step, claim]
    split <;> rfl
  | _ => rfl

theorem after_len (r : Roster) (steps : List Step) : (r.after steps).len = r.len := by
  induction steps generalizing r with
  | nil => rfl
  | cons s steps ih => exact (ih _).trans (r.step_len s)

theorem mem_vacant : b ∈ r.vacant ↔ b < r.len ∧ b ∉ r.taken := by
  rw [vacant, Finset.mem_sdiff, Finset.mem_range]

theorem leastVacant_eq_some (hb : b ∈ r.vacant) (hstart : start ≤ b)
    (hleast : ∀ i ∈ r.vacant, start ≤ i → b ≤ i) : r.leastVacant start = some b := by
  have hmem : b ∈ r.vacant.filter (start ≤ ·) := Finset.mem_filter.mpr ⟨hb, hstart⟩
  rw [leastVacant, dif_pos ⟨b, hmem⟩]
  refine congrArg some ((Finset.min'_eq_iff _ _ _).mpr ⟨hmem, fun i hi => ?_⟩)
  obtain ⟨hi, hle⟩ := Finset.mem_filter.mp hi
  exact hleast i hi hle

theorem leastVacant_eq_none (h : ∀ i ∈ r.vacant, i < start) : r.leastVacant start = none := by
  refine dif_neg ?_
  rintro ⟨i, hi⟩
  obtain ⟨hi, hle⟩ := Finset.mem_filter.mp hi
  exact absurd (h i hi) (Nat.not_lt.mpr hle)

theorem vacant_claim (r : Roster) (b : Nat) : (r.claim b).vacant = r.vacant.erase b := by
  ext i
  unfold claim
  split <;> simp only [mem_vacant, Finset.mem_erase, Finset.mem_insert] <;> grind

theorem foldl_claim (r : Roster) (bits : List Nat) :
    bits.foldl claim r = { r with taken := r.taken ∪ bits.toFinset ∩ r.vacant } := by
  induction bits generalizing r with
  | nil => simp
  | cons b bits ih =>
    have hlen : (r.claim b).len = r.len := by unfold claim; split <;> rfl
    rw [List.foldl_cons, ih, vacant_claim, hlen]
    congr 1
    ext i
    unfold claim
    split <;> simp only [Finset.mem_union, Finset.mem_inter, Finset.mem_erase, mem_vacant,
      List.mem_toFinset, List.mem_cons, Finset.mem_insert] <;> grind

theorem foldl_release (r : Roster) (bits : List Nat) :
    bits.foldl release r = { r with taken := r.taken \ bits.toFinset } := by
  induction bits generalizing r with
  | nil => simp
  | cons b bits ih =>
    rw [List.foldl_cons, ih, release]
    congr 1
    ext i
    simp only [Finset.mem_sdiff, Finset.mem_erase, List.mem_toFinset, List.mem_cons]
    tauto

end Roster

namespace Occupancy

variable {t : Occupancy} {r : Roster} {b start : Nat}

def views (t : Occupancy) : List Step → List (Reply × Nat × Nat × Bool)
  | [] => []
  | s :: steps =>
    let (reply, t') := t.step s
    (reply, t'.occupied, t'.countTaken, t'.isFull) :: views t' steps

def after (t : Occupancy) (steps : List Step) : Occupancy :=
  steps.foldl (fun t s => (t.step s).2) t

-- The table has a bit set for every number of the roster, and no other.
structure Lists (t : Occupancy) (r : Roster) : Prop where
  sound : t.Sound
  len : t.len = r.len
  bit : ∀ i, t.bit i = decide (i ∈ r.taken)

theorem Lists.lt_len (h : Lists t r) (hb : b ∈ r.taken) : b < r.len := by
  by_contra hge
  have hpad := h.sound.padding b (by rw [h.len]; omega)
  rw [h.bit, decide_eq_false_iff_not] at hpad
  exact hpad hb

theorem Lists.countTaken (h : Lists t r) : t.countTaken = r.taken.card := by
  have hset : r.taken = ((List.range t.len).filter t.bit).toFinset := by
    ext i
    simp only [List.mem_toFinset, List.mem_filter, List.mem_range, h.bit, decide_eq_true_eq]
    exact ⟨fun hi => ⟨h.len ▸ h.lt_len hi, hi⟩, And.right⟩
  have hnodup : ((List.range t.len).filter t.bit).Nodup := List.nodup_range.filter _
  rw [countTaken_eq h.sound.padding, List.countP_eq_length_filter, hset,
    List.toFinset_card_of_nodup hnodup]

theorem Lists.card_le (h : Lists t r) : r.taken.card ≤ r.len := by
  have hsub : r.taken ⊆ Finset.range r.len := fun _ hi => Finset.mem_range.mpr (h.lt_len hi)
  simpa using Finset.card_le_card hsub

theorem Lists.view (h : Lists t r) : (t.occupied, t.countTaken, t.isFull) =
    (r.taken.card, r.taken.card, decide (r.taken.card = r.len)) := by
  have hle := h.card_le
  have hfull : r.len ≤ r.taken.card ↔ r.taken.card = r.len := by omega
  simp only [isFull, h.sound.counted, h.countTaken, h.len, hfull]

theorem Lists.firstFree (h : Lists t r) (start : Nat) :
    t.firstFree start = r.leastVacant start := by
  have hspec := firstFree_spec t start
  simp only [h.bit, h.len, decide_eq_true_eq, decide_eq_false_iff_not] at hspec
  cases hfound : t.firstFree start with
  | none =>
    rw [hfound] at hspec
    refine (Roster.leastVacant_eq_none fun i hi => ?_).symm
    obtain ⟨hlt, hfree⟩ := Roster.mem_vacant.mp hi
    by_contra hle
    exact hfree (hspec i (Nat.not_lt.mp hle) hlt)
  | some b =>
    rw [hfound] at hspec
    obtain ⟨hstart, hlt, hfree, hbefore⟩ := hspec
    refine (Roster.leastVacant_eq_some (Roster.mem_vacant.mpr ⟨hlt, hfree⟩) hstart
      fun i hi hle => ?_).symm
    by_contra hlow
    exact (Roster.mem_vacant.mp hi).2 (hbefore i hle (Nat.not_le.mp hlow))

theorem claim_of_not_free (h : ¬(b < t.len ∧ t.bit b = false)) : t.claim b = (false, t) := by
  unfold claim
  by_cases hb : b < t.len
  · have htaken : t.bit b = true := by simpa [hb] using h
    have hword := (and_mask_ne_zero (t.words[b / 64]) b).mpr (bit_eq hb ▸ htaken)
    rw [dif_pos hb]
    exact if_pos (by simpa using hword)
  · rw [dif_neg hb]

theorem release_of_free (h : t.bit b = false) : t.release b = (false, t) := by
  unfold release
  by_cases hb : b < t.len
  · have hword : t.words[b / 64] &&& mask b = 0 := by
      by_contra hset
      rw [← ne_eq, and_mask_ne_zero, ← bit_eq hb, h] at hset
      cases hset
    simp [hb, hword]
  · rw [dif_neg hb]

theorem release_fst (h : b < t.len) : (t.release b).1 = t.bit b := by
  have hmask := and_mask_ne_zero (t.words[b / 64]) b
  rw [← bit_eq h] at hmask
  unfold release
  by_cases hb : t.bit b <;> simp_all

theorem Lists.claim (h : Lists t r) (b : Nat) :
    (t.claim b).1 = decide (b < r.len ∧ b ∉ r.taken) ∧
      Lists (t.claim b).2 (r.claim b) := by
  unfold Roster.claim
  by_cases hfree : b < r.len ∧ b ∉ r.taken
  · obtain ⟨hb, hnot⟩ := hfree
    have hb' : b < t.len := h.len ▸ hb
    have hbit : t.bit b = false := by rw [h.bit, decide_eq_false hnot]
    rw [claim_fst hb', hbit, if_pos hb]
    refine ⟨by simp [hb, hnot], h.sound.claim hb' hbit, by rw [claim_len, h.len], fun i => ?_⟩
    rw [bit_claim hb', h.bit, Bool.eq_iff_iff]
    simp [or_comm]
  · rw [claim_of_not_free (by simpa [h.len, h.bit] using hfree), decide_eq_false hfree]
    refine ⟨rfl, ?_⟩
    split
    · next hb =>
      have hmem : b ∈ r.taken := by simpa [hb] using hfree
      rw [Finset.insert_eq_of_mem hmem]
      exact h
    · exact h

theorem Lists.release (h : Lists t r) (b : Nat) :
    (t.release b).1 = decide (b ∈ r.taken) ∧
      Lists (t.release b).2 (r.release b) := by
  unfold Roster.release
  by_cases hmem : b ∈ r.taken
  · have hb : b < t.len := h.len ▸ h.lt_len hmem
    have hbit : t.bit b = true := by rw [h.bit, decide_eq_true hmem]
    rw [release_fst hb, h.bit]
    refine ⟨rfl, h.sound.release hb hbit, by rw [release_len, h.len], fun i => ?_⟩
    rw [bit_release hb, h.bit, Bool.eq_iff_iff]
    simp [and_comm]
  · rw [release_of_free (by rw [h.bit, decide_eq_false hmem]), decide_eq_false hmem,
      Finset.erase_eq_of_notMem hmem]
    exact ⟨rfl, h⟩

-- The changes of a range one after the other, with the number of those that succeed.
def tryEach (change : Occupancy → Nat → Bool × Occupancy) : List Nat → Occupancy → Nat × Occupancy
  | [], t => (0, t)
  | b :: bits, t =>
    let (flag, t') := change t b
    let (n, t'') := tryEach change bits t'
    (flag.toNat + n, t'')

theorem foldl_eq_tryEach (change : Occupancy → Nat → Bool × Occupancy)
    {f : Nat × Occupancy → Nat → Nat × Occupancy}
    (hf : ∀ n t b, f (n, t) b = (n + (change t b).1.toNat, (change t b).2)) (bits : List Nat)
    (n : Nat) (t : Occupancy) :
    bits.foldl f (n, t) = (n + (tryEach change bits t).1, (tryEach change bits t).2) := by
  induction bits generalizing n t with
  | nil => rfl
  | cons b bits ih => rw [List.foldl_cons, hf, ih, tryEach, Nat.add_assoc]

theorem countOver_eq (change : Occupancy → Nat → Bool × Occupancy) (t : Occupancy)
    (first last : Nat) :
    countOver change t first last = tryEach change (List.range' first (last - first)) t := by
  unfold countOver
  rw [foldl_eq_tryEach change, Nat.zero_add]
  intro n t b
  dsimp only
  rcases change t b with ⟨_ | _, t'⟩ <;> rfl

-- A change that succeeds on an open number closes this number and no other one.
theorem Lists.tryEach {change : Occupancy → Nat → Bool × Occupancy} {isOpen : Roster → Finset Nat}
    {next : Roster → Nat → Roster} (hchange : ∀ {t r}, Lists t r → ∀ b,
      (change t b).1 = decide (b ∈ isOpen r) ∧ Lists (change t b).2 (next r b))
    (hnext : ∀ r b, isOpen (next r b) = (isOpen r).erase b) {bits : List Nat}
    (hnodup : bits.Nodup) (h : Lists t r) :
    (Occupancy.tryEach change bits t).1 = (bits.toFinset ∩ isOpen r).card ∧
      Lists (Occupancy.tryEach change bits t).2 (bits.foldl next r) := by
  induction bits generalizing t r with
  | nil => exact ⟨rfl, h⟩
  | cons b bits ih =>
    obtain ⟨hb, hnodup⟩ := List.nodup_cons.mp hnodup
    obtain ⟨hflag, hstep⟩ := hchange h b
    obtain ⟨hcount, hlists⟩ := ih hnodup hstep
    have hrest : bits.toFinset ∩ (isOpen r).erase b = bits.toFinset ∩ isOpen r := by
      rw [Finset.inter_erase, Finset.erase_eq_of_notMem]
      simp [hb]
    refine ⟨?_, hlists⟩
    show (change t b).1.toNat + _ = _
    rw [hcount, hnext, hrest, hflag, List.toFinset_cons]
    by_cases hopen : b ∈ isOpen r
    · rw [Finset.insert_inter_of_mem hopen, Finset.card_insert_of_notMem (by simp [hb])]
      simp [hopen, Nat.add_comm]
    · rw [Finset.insert_inter_of_notMem hopen]
      simp [hopen]

theorem toFinset_range' (first last : Nat) :
    (List.range' first (last - first)).toFinset = Finset.Ico first last := by
  ext i
  simp only [List.mem_toFinset, List.mem_range'_1, Finset.mem_Ico]
  omega

-- Whatever is asked, table and roster answer alike and stay in step.
theorem Lists.step (h : Lists t r) (s : Step) :
    (t.step s).1 = (r.step s).1 ∧ Lists (t.step s).2 (r.step s).2 := by
  cases s with
  | claim b => exact ⟨congrArg Reply.flag (h.claim b).1, (h.claim b).2⟩
  | release b => exact ⟨congrArg Reply.flag (h.release b).1, (h.release b).2⟩
  | isTaken b =>
    refine ⟨congrArg Reply.flag ?_, h⟩
    rw [h.sound.isTaken_eq_bit, h.bit]
  | firstFree start => exact ⟨congrArg Reply.found (h.firstFree start), h⟩
  | claimRange first last =>
    have hclaim {t r} (h : Lists t r) (b : Nat) : (Occupancy.claim t b).1 = decide (b ∈ r.vacant) ∧
        Lists (Occupancy.claim t b).2 (r.claim b) := by
      simpa only [Roster.mem_vacant] using h.claim b
    have heach := h.tryEach hclaim Roster.vacant_claim (List.nodup_range' (s := first)
      (n := last - first))
    rw [Roster.foldl_claim, toFinset_range', ← countOver_eq] at heach
    exact ⟨congrArg Reply.count heach.1, heach.2⟩
  | releaseRange first last =>
    have heach := h.tryEach @Lists.release (fun _ _ => rfl)
      (List.nodup_range' (s := first) (n := last - first))
    rw [Roster.foldl_release, toFinset_range', ← countOver_eq] at heach
    exact ⟨congrArg Reply.count heach.1, heach.2⟩

theorem Lists.views_eq (h : Lists t r) (steps : List Step) : t.views steps = r.views steps := by
  induction steps generalizing t r with
  | nil => rfl
  | cons s steps ih =>
    obtain ⟨hreply, hnext⟩ := h.step s
    exact congrArg₂ List.cons (congrArg₂ Prod.mk hreply hnext.view) (ih hnext)

theorem Lists.after (h : Lists t r) (steps : List Step) : Lists (t.after steps) (r.after steps) := by
  induction steps generalizing t r with
  | nil => exact h
  | cons s steps ih => exact ih (h.step s).2

theorem lists_empty (len : Nat) : Lists (empty len) ⟨len, ∅⟩ :=
  ⟨sound_empty len, rfl, fun i => by simp [bit_empty]⟩

-- A table is refused only for a length whose words cannot be counted. From a new table on, whatever
-- numbers are claimed, released and asked for, in range or not: all that is seen is that of a set of
-- numbers below the length, and no bit is set but for these.
theorem views_eq_roster (len : Nat) (steps : List Step) :
    match new len with
    | .error b => Word.limit ≤ len + 63 ∧ b = .additionOverflow
    | .ok fresh =>
      let t := fresh.after steps
      let r := Roster.after ⟨len, ∅⟩ steps
      len + 63 < Word.limit ∧ fresh.views steps = Roster.views ⟨len, ∅⟩ steps ∧
        (t.occupied, t.countTaken, t.isFull) =
          (r.taken.card, r.taken.card, decide (r.taken.card = len)) ∧
        (∀ b ∈ r.taken, b < len) ∧ (∀ i, t.bit i = decide (i ∈ r.taken)) ∧
        ∀ i, len ≤ i → t.bit i = false := by
  have h := (lists_empty len).after steps
  have hlen : (Roster.after ⟨len, ∅⟩ steps).len = len := Roster.after_len _ steps
  rw [new_eq]
  by_cases hword : len + 63 < Word.limit
  · rw [if_pos hword]
    have hview := h.view
    rw [hlen] at hview
    refine ⟨hword, (lists_empty len).views_eq steps, hview, fun b hb => hlen ▸ h.lt_len hb, h.bit,
      fun i hi => h.sound.padding i ?_⟩
    rw [h.len, hlen]
    exact hi
  · rw [if_neg hword]
    exact ⟨Nat.not_lt.mp hword, rfl⟩

-- The last block of 65 is the first bit of a word of its own, and the other bits of this word stand
-- for no block.
example : (empty 65).views [.claimRange 0 64, .firstFree 0, .claim 64, .firstFree 0, .claim 65,
      .release 127, .release 63, .firstFree 1] =
    [(.count 64, 64, 64, false), (.found (some 64), 64, 64, false), (.flag true, 65, 65, true),
      (.found none, 65, 65, true), (.flag false, 65, 65, true), (.flag false, 65, 65, true),
      (.flag true, 64, 64, false), (.found (some 63), 64, 64, false)] := by
  decide +kernel

end Occupancy

end Blockwise
