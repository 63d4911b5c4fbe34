import Blockwise.Engine
import Blockwise.Proofs.Occupancy
import Mathlib.Data.List.Nodup
import Mathlib.Algebra.BigOperators.Group.List.Basic
import Mathlib.Algebra.GroupWithZero.Nat

namespace Blockwise

namespace Engine

-- A place is a bank and a block of it.
def Taken (slots : List Occupancy) (bank block : Nat) : Prop :=
  ∃ t, slots[bank]? = some t ∧ t.isTaken block = true

-- The places given are those that are taken, each of them once.
structure Owned (slots : List Occupancy) (places : List (Nat × Nat)) : Prop where
  sound : ∀ t ∈ slots, t.Sound
  nodup : places.Nodup
  taken_iff : ∀ bank block, Taken slots bank block ↔ (bank, block) ∈ places

variable {slots : List Occupancy} {places places' : List (Nat × Nat)} {bank block : Nat}
  {t : Occupancy}

-- The claim goes to the first free block of the first bank that is not full.
theorem claimIn_spec (hs : ∀ t ∈ slots, t.Sound) :
    match claimIn slots with
    | (some (bank, block), slots') => ∃ t, slots[bank]? = some t ∧ t.firstFree 0 = some block ∧
        slots' = slots.set bank (t.claim block).2 ∧ ∀ t' ∈ slots.take bank, t'.isFull = true
    | (none, slots') => slots' = slots ∧ ∀ t ∈ slots, t.isFull = true := by
  induction slots with
  | nil => exact ⟨rfl, by simp⟩
  | cons t rest ih =>
    have ih := ih fun t' ht' => hs t' (List.mem_cons_of_mem _ ht')
    unfold claimIn
    cases hfull : t.isFull with
    | true =>
      simp only [if_true]
      rcases hrest : claimIn rest with ⟨_ | ⟨bank, block⟩, rest'⟩
      · rw [hrest] at ih
        simp only [Option.map_none, ih.1, true_and, List.forall_mem_cons, hfull]
        exact ih.2
      · rw [hrest] at ih
        obtain ⟨t', ht', hfirst, hrest', hbefore⟩ := ih
        refine ⟨t', by simpa using ht', hfirst, by simp [hrest'], ?_⟩
        simp only [List.take_succ_cons, List.forall_mem_cons, hfull, true_and]
        exact hbefore
    | false =>
      have hfound := (hs t List.mem_cons_self).firstFree_isSome hfull
      obtain ⟨block, hblock⟩ := Option.isSome_iff_exists.mp hfound
      have hspec := t.firstFree_spec 0
      rw [hblock] at hspec
      obtain ⟨attempts, hattempts⟩ : ∃ k, t.len = k + 1 := ⟨t.len - 1, by omega⟩
      rw [if_neg Bool.false_ne_true, hattempts, Occupancy.claimFirst_succ, hblock]
      exact ⟨t, rfl, hblock, rfl, by simp⟩

-- A pass that finds nothing changes nothing, so one pass is as good as any number.
theorem claimFree_succ (hs : ∀ t ∈ slots, t.Sound) (passes : Nat) :
    claimFree slots (passes + 1) = claimIn slots := by
  have hspec := claimIn_spec hs
  induction passes with
  | zero =>
    rw [claimFree]
    rcases hclaim : claimIn slots with ⟨_ | _, slots'⟩
    · rw [hclaim] at hspec
      simp only [claimFree, hspec.1]
    · rfl
  | succ passes ih =>
    rw [claimFree]
    rcases hclaim : claimIn slots with ⟨_ | _, slots'⟩
    · rw [hclaim] at hspec
      simp only [hspec.1]
      rw [ih, hclaim, hspec.1]
    · rfl

theorem taken_set (ht : slots[bank]? = some t) (t' : Occupancy) (bank' block' : Nat) :
    Taken (slots.set bank t') bank' block' ↔
      if bank' = bank then t'.isTaken block' = true else Taken slots bank' block' := by
  have hbank : bank < slots.length := (List.getElem?_eq_some_iff.mp ht).1
  simp only [Taken, List.getElem?_set]
  by_cases hsame : bank' = bank
  · subst hsame
    simp [hbank]
  · have hne : bank ≠ bank' := fun h => hsame h.symm
    simp [hsame, hne]

theorem Owned.perm (h : Owned slots places) (hp : places.Perm places') : Owned slots places' :=
  ⟨h.sound, hp.nodup_iff.mp h.nodup, fun bank block => by rw [h.taken_iff, hp.mem_iff]⟩

theorem Owned.mem_iff (h : Owned slots places) (ht : slots[bank]? = some t) (block : Nat) :
    (bank, block) ∈ places ↔ t.bit block = true := by
  rw [← h.taken_iff, ← (h.sound t (List.mem_of_getElem? ht)).isTaken_eq_bit]
  simp [Taken, ht]

theorem Owned.claim (h : Owned slots places) (ht : slots[bank]? = some t) (hlen : block < t.len)
    (hfree : t.bit block = false) :
    Owned (slots.set bank (t.claim block).2) ((bank, block) :: places) := by
  have hs := h.sound t (List.mem_of_getElem? ht)
  refine ⟨?_, ?_, ?_⟩
  · intro t' ht'
    rcases List.mem_or_eq_of_mem_set ht' with ht' | rfl
    · exact h.sound t' ht'
    · exact hs.claim hlen hfree
  · refine List.nodup_cons.mpr ⟨?_, h.nodup⟩
    rw [h.mem_iff ht, hfree]
    decide
  · intro bank' block'
    rw [taken_set ht, List.mem_cons, Prod.mk.injEq]
    by_cases hsame : bank' = bank
    · subst hsame
      rw [if_pos rfl, (hs.claim hlen hfree).isTaken_eq_bit, Occupancy.bit_claim hlen,
        h.mem_iff ht]
      simp [or_comm]
    · simp [hsame, h.taken_iff]

theorem Owned.release (h : Owned slots ((bank, block) :: places)) (ht : slots[bank]? = some t) :
    Owned (slots.set bank (t.release block).2) places := by
  have hs := h.sound t (List.mem_of_getElem? ht)
  have htaken : t.bit block = true := (h.mem_iff ht block).mp List.mem_cons_self
  have hlen : block < t.len := by
    by_contra hge
    rw [hs.padding block (by omega)] at htaken
    cases htaken
  obtain ⟨hgone, hnodup⟩ := List.nodup_cons.mp h.nodup
  refine ⟨?_, hnodup, ?_⟩
  · intro t' ht'
    rcases List.mem_or_eq_of_mem_set ht' with ht' | rfl
    · exact h.sound t' ht'
    · exact hs.release hlen htaken
  · intro bank' block'
    rw [taken_set ht]
    by_cases hsame : bank' = bank
    · subst hsame
      rw [if_pos rfl, (hs.release hlen htaken).isTaken_eq_bit, Occupancy.bit_release hlen]
      have hmem := h.mem_iff ht block'
      rw [List.mem_cons, Prod.mk.injEq] at hmem
      by_cases hblock : block' = block
      · subst hblock
        simp [hgone]
      · simp [hblock, ← hmem]
    · have hmem := h.taken_iff bank' block'
      simpa [hsame] using hmem

-- Every bank counts the places that lie in it.
theorem Owned.countTaken_eq (h : Owned slots places) (ht : slots[bank]? = some t) :
    t.countTaken = places.countP (·.1 = bank) := by
  have hs := h.sound t (List.mem_of_getElem? ht)
  rw [Occupancy.countTaken_eq hs.padding, List.countP_eq_length_filter,
    List.countP_eq_length_filter]
  have hperm : (((List.range t.len).filter t.bit).map (bank, ·)).Perm
      (places.filter (·.1 = bank)) := by
    refine (List.perm_ext_iff_of_nodup ?_ (h.nodup.filter _)).mpr ?_
    · exact (List.nodup_range.filter _).map fun a b hab => (Prod.mk.inj hab).2
    · intro p
      obtain ⟨bank', block⟩ := p
      simp only [List.mem_map, List.mem_filter, List.mem_range, decide_eq_true_eq, Prod.mk.injEq]
      constructor
      · intro hheld
        obtain ⟨b, ⟨_, hb⟩, rfl, rfl⟩ := hheld
        exact ⟨(h.mem_iff ht b).mpr hb, rfl⟩
      · intro hheld
        obtain ⟨hmem, rfl⟩ := hheld
        have hb := (h.mem_iff ht block).mp hmem
        refine ⟨block, ⟨?_, hb⟩, rfl, rfl⟩
        by_contra hge
        rw [hs.padding block (by omega)] at hb
        cases hb
  simpa using hperm.length_eq

theorem sum_indicator (a banks : Nat) :
    ((List.range banks).map fun bank => if a = bank then 1 else 0).sum =
      if a < banks then 1 else 0 := by
  induction banks with
  | zero => rfl
  | succ banks ih =>
    rw [List.sum_range_succ, ih]
    grind

-- Counting by banks counts everything, as long as every place lies in one of them.
theorem sum_countP_eq_length (banks : Nat) (h : ∀ p ∈ places, p.1 < banks) :
    ((List.range banks).map fun bank => places.countP (·.1 = bank)).sum = places.length := by
  induction places with
  | nil => simp
  | cons p places ih =>
    obtain ⟨hp, hrest⟩ := List.forall_mem_cons.mp h
    simp only [List.countP_cons, decide_eq_true_eq, List.sum_map_add, ih hrest, sum_indicator,
      if_pos hp, List.length_cons]

theorem Owned.blocksTaken_eq (h : Owned slots places) :
    slots.foldr (fun t total => t.occupied + total) 0 = places.length := by
  have hbanks : ∀ p ∈ places, p.1 < slots.length := by
    intro p hp
    obtain ⟨bank, block⟩ := p
    obtain ⟨t, ht, _⟩ := (h.taken_iff bank block).mpr hp
    exact (List.getElem?_eq_some_iff.mp ht).1
  have hcounts : slots.map Occupancy.occupied =
      (List.range slots.length).map fun bank => places.countP (·.1 = bank) := by
    apply List.ext_getElem (by simp)
    intro bank hbank _
    have hlt : bank < slots.length := by simpa using hbank
    have ht : slots[bank]? = some slots[bank] := List.getElem?_eq_getElem hlt
    simp only [List.getElem_map, List.getElem_range]
    rw [(h.sound _ (List.getElem_mem _)).counted, h.countTaken_eq ht]
  rw [← sum_countP_eq_length slots.length hbanks, ← hcounts, List.sum_eq_foldr, List.foldr_map]

end Engine

end Blockwise
