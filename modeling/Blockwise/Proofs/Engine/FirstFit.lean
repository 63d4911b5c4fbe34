import Blockwise.Proofs.Engine.Allocation
import Blockwise.Proofs.Occupancy.Roster
import Mathlib.Data.Prod.Lex
import Mathlib.Order.Bounds.Basic

namespace Blockwise

namespace Occupancy

-- The innermost loop, with the blocks that it tries to claim. A claim that is lost starts it anew from
-- the first block on, as often as it takes.
inductive Scan : Occupancy → List Nat → Option Nat → Occupancy → Prop where
  | none {t : Occupancy} (hnone : t.firstFree 0 = none) : Scan t [] none t
  | won {t t' : Occupancy} {b : Nat} (hfirst : t.firstFree 0 = some b)
    (hclaim : t.claim b = (true, t')) : Scan t [b] (some b) t'
  | lost {t t' t'' : Occupancy} {b : Nat} {asked : List Nat} {found : Option Nat}
    (hfirst : t.firstFree 0 = some b) (hclaim : t.claim b = (false, t'))
    (hagain : Scan t' asked found t'') : Scan t (b :: asked) found t''

-- A table that counts as full is not looked into.
inductive Visit : Occupancy → List Nat → Option Nat → Occupancy → Prop where
  | full {t : Occupancy} (hfull : t.isFull = true) : Visit t [] none t
  | scan {t t' : Occupancy} {asked : List Nat} {found : Option Nat}
    (hroom : t.isFull = false) (hscan : Scan t asked found t') : Visit t asked found t'

variable {t t' t'' : Occupancy} {asked : List Nat} {found : Option Nat} {b : Nat}

-- The table with a block taken, if there is one to take.
def withTaken (t : Occupancy) : Option Nat → Occupancy
  | none => t
  | some b => (t.claim b).2

theorem claim_occupied (h : b < t.len) (hfree : t.bit b = false) :
    (t.claim b).2.occupied = t.occupied + 1 := by
  have hword : ¬(t.words[b / 64] &&& mask b ≠ 0) := by
    rw [and_mask_ne_zero, ← bit_eq h, hfree]
    decide
  simp_all [Occupancy.claim]

theorem claim_firstFree (h : t.firstFree 0 = some b) : t.claim b = (true, t.withTaken (some b)) := by
  have hspec := firstFree_spec t 0
  rw [h] at hspec
  obtain ⟨_, hlen, hfree, _⟩ := hspec
  have hwon : (t.claim b).1 = true := by simp [claim_fst hlen, hfree]
  exact Prod.ext hwon rfl

-- A block that the search comes to is free, so the loop is over after one claim.
theorem Scan.once (h : Scan t asked found t') :
    found = t.firstFree 0 ∧ asked = found.toList ∧ t' = t.withTaken found := by
  cases h with
  | none hnone => exact ⟨hnone.symm, rfl, rfl⟩
  | won hfirst hclaim =>
    have hwon := claim_firstFree hfirst
    rw [hclaim] at hwon
    exact ⟨hfirst.symm, rfl, congrArg Prod.snd hwon⟩
  | lost hfirst hclaim hagain =>
    have hwon := claim_firstFree hfirst
    rw [hclaim] at hwon
    simp at hwon

theorem exists_scan (t : Occupancy) :
    Scan t (t.firstFree 0).toList (t.firstFree 0) (t.withTaken (t.firstFree 0)) := by
  cases hfirst : t.firstFree 0 with
  | none => exact .none hfirst
  | some b => exact .won hfirst (claim_firstFree hfirst)

theorem Sound.bit_of_full (hs : t.Sound) (hfull : t.isFull = true) (hb : b < t.len) :
    t.bit b = true := by
  have hcount := hs.length_free_add
  have hempty : t.free = [] := by
    simp only [isFull, decide_eq_true_eq] at hfull
    apply List.length_eq_zero_iff.mp
    omega
  by_contra hclear
  have hmem : b ∈ t.free := by
    rw [hs.free_eq]
    simpa [hb] using hclear
  simp [hempty] at hmem

-- The counter tells of a full table exactly when the search would find nothing.
theorem Sound.firstFree_of_full (hs : t.Sound) (hfull : t.isFull = true) : t.firstFree 0 = none := by
  have hspec := firstFree_spec t 0
  cases hfirst : t.firstFree 0 with
  | none => rfl
  | some b =>
    rw [hfirst] at hspec
    obtain ⟨_, hlen, hfree, _⟩ := hspec
    rw [hs.bit_of_full hfull hlen] at hfree
    cases hfree

theorem Sound.visit (hs : t.Sound) (h : Visit t asked found t') :
    found = t.firstFree 0 ∧ asked = found.toList ∧ t' = t.withTaken found := by
  cases h with
  | full hfull => exact ⟨(hs.firstFree_of_full hfull).symm, rfl, rfl⟩
  | scan _ hscan => exact hscan.once

theorem Sound.exists_visit (hs : t.Sound) :
    Visit t (t.firstFree 0).toList (t.firstFree 0) (t.withTaken (t.firstFree 0)) := by
  by_cases hfull : t.isFull = true
  · rw [hs.firstFree_of_full hfull]
    exact .full hfull
  · exact .scan (by simpa using hfull) (exists_scan t)

theorem sound_reached (len : Nat) (steps : List Step) : ((empty len).after steps).Sound :=
  ((lists_empty len).after steps).sound

-- Any blocks of a table may be the ones that are taken.
theorem exists_taken (len : Nat) (taken : Finset Nat) (h : ∀ b ∈ taken, b < len) :
    ∃ steps, ∀ b, ((empty len).after steps).isTaken b = decide (b ∈ taken) := by
  refine ⟨taken.toList.map .claim, fun b => ?_⟩
  have hlists := (lists_empty len).after (taken.toList.map .claim)
  have hroster : Roster.after ⟨len, ∅⟩ (taken.toList.map .claim) =
      taken.toList.foldl Roster.claim ⟨len, ∅⟩ := by
    rw [Roster.after, List.foldl_map]
    rfl
  have hall : taken ∩ Roster.vacant ⟨len, ∅⟩ = taken := by
    apply Finset.inter_eq_left.mpr
    intro b hb
    exact Roster.mem_vacant.mpr ⟨h b hb, by simp⟩
  rw [hlists.sound.isTaken_eq_bit, hlists.bit, hroster, Roster.foldl_claim]
  simp [hall]

end Occupancy

namespace Engine

-- A pass over the banks, with the claims that are tried in each bank that it comes to.
inductive Pass : List Occupancy → List (List Nat) → Option (Nat × Nat) → List Occupancy → Prop where
  | nil : Pass [] [] none []
  | found {t t' : Occupancy} {rest : List Occupancy} {asked : List Nat} {block : Nat}
    (hvisit : t.Visit asked (some block) t') :
    Pass (t :: rest) [asked] (some (0, block)) (t' :: rest)
  | next {t t' : Occupancy} {rest rest' : List Occupancy} {asked : List Nat}
    {visits : List (List Nat)} {found : Option (Nat × Nat)} (hvisit : t.Visit asked none t')
    (hrest : Pass rest visits found rest') :
    Pass (t :: rest) (asked :: visits) (found.map fun (bank, block) => (bank + 1, block)) (t' :: rest')

-- So many passes, up to the first that finds a block.
inductive Search :
    Nat → List Occupancy → List (List Nat) → Option (Nat × Nat) → List Occupancy → Prop where
  | spent {slots : List Occupancy} : Search 0 slots [] none slots
  | found {passes : Nat} {slots slots' : List Occupancy} {visits : List (List Nat)}
    {place : Nat × Nat} (hpass : Pass slots visits (some place) slots') :
    Search (passes + 1) slots visits (some place) slots'
  | again {passes : Nat} {slots slots' slots'' : List Occupancy} {visits visits' : List (List Nat)}
    {found : Option (Nat × Nat)} (hpass : Pass slots visits none slots')
    (hrest : Search passes slots' visits' found slots'') :
    Search (passes + 1) slots (visits ++ visits') found slots''

variable {slots slots' slots'' rest rest' : List Occupancy} {t t' : Occupancy} {asked : List Nat}
  {visits visits' : List (List Nat)} {found : Option (Nat × Nat)} {place : Nat × Nat}
  {bank block passes : Nat}

theorem claimIn_cons (hs : t.Sound) :
    claimIn (t :: rest) = match t.firstFree 0 with
      | some block => (some (0, block), t.withTaken (some block) :: rest)
      | none => ((claimIn rest).1.map fun (bank, block) => (bank + 1, block),
          t :: (claimIn rest).2) := by
  rw [claimIn]
  by_cases hfull : t.isFull = true
  · rw [if_pos hfull, hs.firstFree_of_full hfull]
  · obtain ⟨block, hblock⟩ :=
      Option.isSome_iff_exists.mp (hs.firstFree_isSome (by simpa using hfull))
    have hspec := t.firstFree_spec 0
    rw [hblock] at hspec
    obtain ⟨attempts, hattempts⟩ : ∃ k, t.len = k + 1 := ⟨t.len - 1, by omega⟩
    rw [if_neg hfull, hattempts, Occupancy.claimFirst_succ, hblock]
    rfl

-- The bounded loops are the loops without a bound: a pass goes one way only, and tries one claim in
-- the bank where it ends and none in a bank before.
theorem Pass.once (hs : ∀ t ∈ slots, t.Sound) (h : Pass slots visits found slots') :
    (found, slots') = claimIn slots ∧ visits.flatten = (found.map Prod.snd).toList := by
  induction h with
  | nil => exact ⟨rfl, rfl⟩
  | found hvisit =>
    have ht := hs _ List.mem_cons_self
    obtain ⟨hfirst, rfl, rfl⟩ := ht.visit hvisit
    simp [claimIn_cons ht, ← hfirst]
  | @next t t' rest rest' asked visits found hvisit _ ih =>
    obtain ⟨ht, hrest⟩ := List.forall_mem_cons.mp hs
    obtain ⟨hfirst, rfl, rfl⟩ := ht.visit hvisit
    obtain ⟨hclaim, hasked⟩ := ih hrest
    constructor
    · rw [claimIn_cons ht, ← hfirst, ← hclaim]
    · rw [List.flatten_cons, hasked, Option.map_map]
      rfl

theorem exists_pass (hs : ∀ t ∈ slots, t.Sound) :
    ∃ visits, Pass slots visits (claimIn slots).1 (claimIn slots).2 := by
  induction slots with
  | nil => exact ⟨[], .nil⟩
  | cons t rest ih =>
    obtain ⟨ht, hrest⟩ := List.forall_mem_cons.mp hs
    have hvisit := ht.exists_visit
    rw [claimIn_cons ht]
    cases hfirst : t.firstFree 0 with
    | some block =>
      rw [hfirst] at hvisit
      exact ⟨_, .found hvisit⟩
    | none =>
      rw [hfirst] at hvisit
      obtain ⟨visits, hpass⟩ := ih hrest
      exact ⟨_, .next hvisit hpass⟩

-- A pass that finds nothing leaves everything as it was, for the next one to find nothing, too.
theorem Search.once (hs : ∀ t ∈ slots, t.Sound) (h : Search passes slots visits found slots') :
    (passes ≠ 0 → (found, slots') = claimIn slots) ∧
      visits.flatten = (found.map Prod.snd).toList := by
  induction h with
  | spent => simp
  | found hpass =>
    obtain ⟨hclaim, hasked⟩ := hpass.once hs
    exact ⟨fun _ => hclaim, hasked⟩
  | @again passes slots slots' slots'' visits visits' found hpass hrest ih =>
    obtain ⟨hclaim, hasked⟩ := hpass.once hs
    have hspec := claimIn_spec hs
    rw [← hclaim] at hspec
    obtain ⟨rfl, _⟩ := hspec
    obtain ⟨hagain, hasked'⟩ := ih hs
    constructor
    · intro _
      cases hrest with
      | spent => exact hclaim
      | found hpass' => exact hagain (Nat.succ_ne_zero _)
      | again hpass' hrest' => exact hagain (Nat.succ_ne_zero _)
    · rw [List.flatten_append, hasked, hasked']
      rfl

theorem exists_search (hs : ∀ t ∈ slots, t.Sound) (passes : Nat) :
    ∃ visits, Search (passes + 1) slots visits (claimIn slots).1 (claimIn slots).2 := by
  obtain ⟨visits, hpass⟩ := exists_pass hs
  have hspec := claimIn_spec hs
  cases hfound : (claimIn slots).1 with
  | some place =>
    rw [hfound] at hpass
    exact ⟨visits, .found hpass⟩
  | none =>
    have hsame : (claimIn slots).2 = slots := by
      rw [← Prod.mk.eta (p := claimIn slots), hfound] at hspec
      exact hspec.1
    rw [hfound, hsame] at hpass
    rw [hsame]
    induction passes with
    | zero => exact ⟨_, .again hpass .spent⟩
    | succ passes ih =>
      obtain ⟨visits', hrest⟩ := ih
      exact ⟨_, .again hpass hrest⟩

-- A bank and a block of it that is free.
def Clear (slots : List Occupancy) (place : Nat × Nat) : Prop :=
  ∃ t, slots[place.1]? = some t ∧ place.2 < t.len ∧ t.isTaken place.2 = false

-- The first of all free places is taken, and counted in its bank. No other bit and no other counter
-- changes.
structure Allocated (slots slots' : List Occupancy) (place : Nat × Nat) : Prop where
  least : IsLeast {p : Nat ×ₗ Nat | Clear slots (ofLex p)} (toLex place)
  length : slots'.length = slots.length
  banks : ∀ bank t, slots[bank]? = some t → ∃ t', slots'[bank]? = some t' ∧ t'.len = t.len ∧
    (∀ block, t'.bit block = (t.bit block || decide ((bank, block) = place))) ∧
    t'.occupied = t.occupied + if bank = place.1 then 1 else 0

theorem not_clear_of_full (hs : ∀ t ∈ slots, t.Sound)
    (hfull : ∀ t, slots[bank]? = some t → t.isFull = true) : ¬Clear slots (bank, block) := by
  rintro ⟨t, ht, hlen, hfree⟩
  have hsound := hs t (List.mem_of_getElem? ht)
  rw [hsound.isTaken_eq_bit, hsound.bit_of_full (hfull t ht) hlen] at hfree
  cases hfree

theorem isLeast_clear (hs : ∀ t ∈ slots, t.Sound)
    (ht : slots[bank]? = some t) (hfirst : t.firstFree 0 = some block)
    (hbefore : ∀ t' ∈ slots.take bank, t'.isFull = true) :
    IsLeast {p : Nat ×ₗ Nat | Clear slots (ofLex p)} (toLex (bank, block)) := by
  have hsound := hs t (List.mem_of_getElem? ht)
  have hspec := t.firstFree_spec 0
  rw [hfirst] at hspec
  obtain ⟨_, hlen, hfree, hlow⟩ := hspec
  constructor
  · exact ⟨t, ht, hlen, (hsound.isTaken_eq_bit block).trans hfree⟩
  · intro p hclear
    obtain ⟨⟨other, block'⟩, rfl⟩ := toLex.surjective p
    rw [Set.mem_ofPred_eq, ofLex_toLex] at hclear
    rw [Prod.Lex.toLex_le_toLex]
    rcases Nat.lt_trichotomy other bank with hother | rfl | hother
    · have hfull : ∀ t', slots[other]? = some t' → t'.isFull = true := by
        intro t' ht'
        apply hbefore t'
        apply List.mem_of_getElem?
        rwa [List.getElem?_take_of_lt hother]
      exact absurd hclear (not_clear_of_full hs hfull)
    · obtain ⟨t', ht', hlen', hfree'⟩ := hclear
      obtain rfl := Option.some.inj (ht.symm.trans ht')
      rw [hsound.isTaken_eq_bit] at hfree'
      refine .inr ⟨rfl, ?_⟩
      by_contra hlt
      have htaken := hlow block' (Nat.zero_le _) (Nat.not_le.mp hlt)
      rw [hfree'] at htaken
      cases htaken
    · exact .inl hother

theorem allocated_of_claimIn (hs : ∀ t ∈ slots, t.Sound)
    (h : claimIn slots = (some place, slots')) : Allocated slots slots' place := by
  obtain ⟨bank, block⟩ := place
  have hspec := claimIn_spec hs
  rw [h] at hspec
  obtain ⟨t, ht, hfirst, rfl, hbefore⟩ := hspec
  have hblock := t.firstFree_spec 0
  rw [hfirst] at hblock
  obtain ⟨_, hlen, hfree, _⟩ := hblock
  refine ⟨isLeast_clear hs ht hfirst hbefore, List.length_set, fun bank' t' ht' => ?_⟩
  by_cases hsame : bank' = bank
  · subst hsame
    obtain rfl := Option.some.inj (ht.symm.trans ht')
    refine ⟨(t.claim block).2, ?_, Occupancy.claim_len, fun i => ?_, ?_⟩
    · simp [(List.getElem?_eq_some_iff.mp ht).1]
    · simp [Occupancy.bit_claim hlen]
    · simp [Occupancy.claim_occupied hlen hfree]
  · refine ⟨t', ?_, rfl, fun i => ?_, ?_⟩
    · rw [List.getElem?_set_ne (Ne.symm hsame), ht']
    · simp [hsame]
    · simp [hsame]

theorem claimIn_eq_none_iff (hs : ∀ t ∈ slots, t.Sound) :
    (claimIn slots).1 = none ↔ ∀ t ∈ slots, ∀ block < t.len, t.isTaken block = true := by
  have hspec := claimIn_spec hs
  rcases hclaim : claimIn slots with ⟨_ | ⟨bank, block⟩, slots'⟩
  · rw [hclaim] at hspec
    obtain ⟨_, hfull⟩ := hspec
    refine iff_of_true rfl fun t ht block hlen => ?_
    rw [(hs t ht).isTaken_eq_bit]
    exact (hs t ht).bit_of_full (hfull t ht) hlen
  · obtain ⟨⟨t, ht, hlen, hfree⟩, _⟩ := (allocated_of_claimIn hs hclaim).least
    refine iff_of_false (Option.some_ne_none _) fun htaken => ?_
    rw [htaken t (List.mem_of_getElem? ht) _ hlen] at hfree
    cases hfree

-- Whatever blocks of the banks were claimed and released before, an allocation takes the first block
-- that is free, in the first bank that has one, and fails with everything as it was just when no bank
-- has one. One pass would do. The loops without a bound come to an end, and to this one only, after no
-- more than one claim in each bank that they visit.
theorem claimFree_firstFit (banks : List (Nat × List Occupancy.Step)) (passes : Nat) :
    let slots := banks.map fun (len, steps) => (Occupancy.empty len).after steps
    let result := claimFree slots (passes + 1)
    (match result with
      | (some place, slots') => Allocated slots slots' place
      | (none, slots') => slots' = slots) ∧
    (result.1 = none ↔ ∀ t ∈ slots, ∀ block < t.len, t.isTaken block = true) ∧
    result = claimFree slots claimPasses ∧
    (∃ visits, Search (passes + 1) slots visits result.1 result.2) ∧
    ∀ visits found slots', Search (passes + 1) slots visits found slots' →
      (found, slots') = result ∧ (∀ asked ∈ visits, asked.length ≤ 1) ∧
        visits.flatten = (result.1.map Prod.snd).toList := by
  intro slots result
  have hs : ∀ t ∈ slots, t.Sound := by
    intro t ht
    obtain ⟨⟨len, steps⟩, _, rfl⟩ := List.mem_map.mp ht
    exact Occupancy.sound_reached len steps
  have hresult : result = claimIn slots := claimFree_succ hs passes
  rw [hresult]
  refine ⟨?_, claimIn_eq_none_iff hs, (claimFree_succ hs 9).symm, exists_search hs passes, ?_⟩
  · have hspec := claimIn_spec hs
    rcases hclaim : claimIn slots with ⟨_ | place, slots'⟩
    · rw [hclaim] at hspec
      exact hspec.1
    · exact allocated_of_claimIn hs hclaim
  · intro visits found slots' h
    obtain ⟨hend, hasked⟩ := h.once hs
    have hend := hend (Nat.succ_ne_zero _)
    rw [← hend]
    refine ⟨rfl, ?_, hasked⟩
    intro asked hmem
    calc asked.length ≤ visits.flatten.length :=
          (List.sublist_flatten_of_mem hmem).length_le
      _ = (found.map Prod.snd).toList.length := by rw [hasked]
      _ ≤ 1 := by cases found <;> simp

-- A bank that is full, then one whose first block is taken.
example :
    let slots := [((Occupancy.empty 2).after [.claimRange 0 2]), (Occupancy.empty 3).after [.claim 0]]
    let (found, slots') := claimFree slots 1
    found = some (1, 1) ∧ slots'.map Occupancy.occupied = [2, 2] := by
  decide +kernel

end Engine

end Blockwise
