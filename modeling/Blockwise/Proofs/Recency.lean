import Blockwise.Recency
import Mathlib.Data.List.Nodup

namespace Blockwise

namespace Recency

variable {K : Type} [DecidableEq K] {r : Recency K} {key key' : K} {n i : Nat}

-- From the most recently used to the least.
def keys (r : Recency K) : List K := r.entries.map Prod.fst

-- The numbers of the spots that are indexed.
def held (r : Recency K) : List Nat := r.entries.map Prod.snd

def place (r : Recency K) (n : Nat) : Nat × Nat := ((r.spot n).bank, (r.spot n).block)

omit [DecidableEq K] in
theorem eq_empty_of_withCapacity {capacity : Nat} (h : withCapacity capacity = .ok r) :
    r = empty capacity := by
  unfold withCapacity at h
  split at h
  · exact (Except.ok.inj h).symm
  · cases h

omit [DecidableEq K] in
theorem spot_touch (r : Recency K) (n i : Nat) :
    ((r.touch n).spot i).bank = (r.spot i).bank ∧ ((r.touch n).spot i).block = (r.spot i).block ∧
      ((r.touch n).spot i).removed = (r.spot i).removed := by
  simp only [touch, spot, Array.getElem?_modify]
  by_cases h : n = i
  · cases r.spots[i]? <;> simp [h]
  · simp [h]

omit [DecidableEq K] in
theorem spot_retire (r : Recency K) (n i : Nat) :
    ((r.retire n).2.spot i).bank = (r.spot i).bank ∧
      ((r.retire n).2.spot i).block = (r.spot i).block ∧
      (i ≠ n → ((r.retire n).2.spot i).removed = (r.spot i).removed) := by
  simp only [retire, spot, Array.getElem?_modify]
  by_cases h : n = i
  · cases r.spots[i]? <;> simp [h]
  · simp [h]

omit [DecidableEq K] in
@[simp] theorem place_touch (r : Recency K) (n : Nat) : (r.touch n).place = r.place := by
  funext i
  simp [place, spot_touch]

omit [DecidableEq K] in
@[simp] theorem place_retire (r : Recency K) (n : Nat) : (r.retire n).2.place = r.place := by
  funext i
  simp [place, spot_retire]

omit [DecidableEq K] in
@[simp] theorem size_touch (r : Recency K) (n : Nat) :
    (r.touch n).spots.size = r.spots.size := by
  simp [touch]

omit [DecidableEq K] in
@[simp] theorem size_retire (r : Recency K) (n : Nat) :
    (r.retire n).2.spots.size = r.spots.size := by
  simp [retire]

omit [DecidableEq K] in
theorem spot_enroll (r : Recency K) (s : Spot) (i : Nat) :
    (r.enroll s).2.spot i = if i = r.spots.size then s else r.spot i := by
  simp only [enroll, spot, Array.getElem?_push]
  split <;> rfl

theorem peek_eq_none_iff : r.peek key = none ↔ key ∉ r.keys := by
  simp only [peek, keys, Option.map_eq_none_iff, List.find?_eq_none, List.mem_map, Prod.exists,
    decide_eq_true_eq, not_exists, not_and]
  grind

theorem peek_eq_some_iff (hk : r.keys.Nodup) : r.peek key = some n ↔ (key, n) ∈ r.entries := by
  have hfound : ∀ {entries : List (K × Nat)}, (entries.map Prod.fst).Nodup →
      ((entries.find? (·.1 = key)).map (·.2) = some n ↔ (key, n) ∈ entries) := by
    intro entries hnd
    induction entries with
    | nil => simp
    | cons x entries ih =>
      obtain ⟨hx, hnd⟩ := List.nodup_cons.mp hnd
      rw [List.find?_cons, List.mem_cons]
      by_cases hkey : x.1 = key
      · have hgone : (key, n) ∉ entries := by
          intro hmem
          exact hx (List.mem_map.mpr ⟨(key, n), hmem, hkey.symm⟩)
        simp only [hkey, decide_true, Option.map_some, Option.some.injEq, hgone, or_false]
        constructor
        · rintro rfl
          rw [← hkey]
        · intro h
          rw [← h]
      · have hne : (key, n) ≠ x := by rintro rfl; exact hkey rfl
        simp only [hkey, decide_false, hne, false_or]
        exact ih hnd
  exact hfound hk

theorem mem_keys_iff : key ∈ r.keys ↔ ∃ n, r.peek key = some n := by
  rw [← not_iff_not, ← peek_eq_none_iff]
  cases r.peek key <;> simp

theorem contains_eq : r.contains key = decide (key ∈ r.keys) := by
  rw [contains, Bool.eq_iff_iff, decide_eq_true_iff, mem_keys_iff, Option.isSome_iff_exists]

theorem keys_others (r : Recency K) (key : K) :
    (r.others key).map Prod.fst = r.keys.filter (· ≠ key) := by
  rw [keys, List.filter_map]
  rfl

-- An indexed key can be moved to the front.
theorem entries_perm (hk : r.keys.Nodup) (h : r.peek key = some n) :
    r.entries.Perm ((key, n) :: r.others key) := by
  rw [peek_eq_some_iff hk] at h
  have hnd : r.entries.Nodup := hk.of_map _
  refine (List.perm_ext_iff_of_nodup hnd ?_).mpr ?_
  · refine List.nodup_cons.mpr ⟨?_, hnd.filter _⟩
    simp [others]
  · intro p
    obtain ⟨key', n'⟩ := p
    simp only [others, List.mem_cons, List.mem_filter, Prod.mk.injEq, decide_eq_true_eq]
    by_cases hkey : key' = key
    · subst hkey
      simp only [true_and, ne_eq, not_true_eq_false, and_false, or_false]
      constructor
      · intro h'
        rw [← peek_eq_some_iff hk] at h h'
        exact Option.some.inj (h'.symm.trans h)
      · rintro rfl
        exact h
    · simp [hkey]

-- A new key either finds room, or pushes out the last entry of a full index.
theorem insert_of_absent (hpeek : r.peek key = none) (hpos : 0 < r.capacity)
    (hfits : r.len ≤ r.capacity) (n : Nat) :
    (r.len < r.capacity ∧
      r.insert key n = (.grown, { r.touch n with entries := (key, n) :: r.entries })) ∨
    ∃ last old rest, r.len = r.capacity ∧ r.entries = rest ++ [(last, old)] ∧
      r.insert key n = (.evicted last old, { r.touch n with entries := (key, n) :: rest }) := by
  have hpeek' : (r.touch n).peek key = none := hpeek
  have hentries : (r.touch n).entries = r.entries := rfl
  have hcapacity : (r.touch n).capacity = r.capacity := rfl
  unfold insert
  simp only [hpeek', hentries, hcapacity]
  by_cases hroom : r.len < r.capacity
  · exact .inl ⟨hroom, if_pos hroom⟩
  · right
    have hroom' : ¬r.entries.length < r.capacity := hroom
    have hne : r.entries ≠ [] := by
      intro hnil
      simp only [len, hnil, List.length_nil] at hroom
      omega
    obtain ⟨rest, ⟨last, old⟩, hrest⟩ := List.eq_nil_or_concat r.entries |>.resolve_left hne
    rw [List.concat_eq_append] at hrest
    refine ⟨last, old, rest, by omega, hrest, ?_⟩
    rw [if_neg hroom', hrest]
    simp

end Recency

end Blockwise
