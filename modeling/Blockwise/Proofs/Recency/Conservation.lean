import Blockwise.Proofs.Recency

namespace Blockwise

namespace Recency

-- What is done with an index. Every insert brings a spot of its own, and whoever holds a spot, the
-- listener among them, may mark it as removed at any time.
inductive Call (K : Type) where
  | insert (key : K) (bank block : Nat)
  | get (key : K)
  | peek (key : K)
  | contains (key : K)
  | remove (key : K)
  | mark (n : Nat)

-- An index and what came of its spots: all that were entered, those the listener was given, and
-- those that an insert of their key gave back. The key of the call stands with each.
structure History (K : Type) where
  index : Recency K
  entered : List (K × Nat) := []
  dropped : List (K × Nat) := []
  displaced : List (K × Nat) := []

variable {K : Type}

def stamp (r : Recency K) (n : Nat) : Nat := (r.spot n).touched

namespace History

variable [DecidableEq K]

-- Where the spots are after an insert of spot `n` that ended in one of its three ways.
def settle (h : History K) (key : K) (n : Nat) : Insertion K × Recency K → History K
  | (.grown, index) => { h with index, entered := (key, n) :: h.entered }
  | (.displaced old, index) =>
    { h with index, entered := (key, n) :: h.entered, displaced := (key, old) :: h.displaced }
  | (.evicted last old, index) =>
    { h with index, entered := (key, n) :: h.entered, dropped := (last, old) :: h.dropped }

def step (h : History K) : Call K → History K
  | .insert key bank block =>
    let (n, index) := h.index.enroll { bank, block }
    h.settle key n (index.insert key n)
  | .get key => { h with index := (h.index.get key).2 }
  | .peek _ | .contains _ => h
  | .remove key =>
    match h.index.remove key with
    | (none, index) => { h with index }
    | (some n, index) => { h with index, dropped := (key, n) :: h.dropped }
  | .mark n => { h with index := (h.index.retire n).2 }

def after (limit : Nat) (calls : List (Call K)) : History K :=
  calls.foldl step ⟨empty limit, [], [], []⟩

end History

variable {r : Recency K} {rest : List (K × Nat)} {key : K} {n i : Nat}

theorem stamp_touch (hn : n < r.spots.size) :
    (r.touch n).stamp i = if i = n then r.clock + 1 else r.stamp i := by
  simp only [stamp, touch, spot, Array.getElem?_modify]
  by_cases h : i = n
  · subst h
    simp [hn]
  · rw [if_neg h, if_neg fun h' => h h'.symm]

theorem stamp_retire (r : Recency K) (n i : Nat) : (r.retire n).2.stamp i = r.stamp i := by
  simp only [stamp, retire, spot, Array.getElem?_modify]
  by_cases h : n = i
  · cases r.spots[i]? <;> simp [h]
  · simp [h]

-- The spots that are indexed are all known, and each was used later than all behind it.
structure Ordered (r : Recency K) : Prop where
  known : ∀ entry ∈ r.entries, entry.2 < r.spots.size
  stamps : r.entries.Pairwise fun a b => r.stamp b.2 < r.stamp a.2
  clock : ∀ entry ∈ r.entries, r.stamp entry.2 ≤ r.clock

theorem Ordered.sublist (h : r.Ordered) (hrest : rest.Sublist r.entries) :
    Ordered { r with entries := rest } :=
  ⟨fun entry hmem => h.known entry (hrest.subset hmem), h.stamps.sublist hrest,
    fun entry hmem => h.clock entry (hrest.subset hmem)⟩

-- The spot that was used last gets a stamp above all others.
theorem Ordered.front (h : r.Ordered) (hn : n < r.spots.size) (hrest : rest.Sublist r.entries)
    (hnew : n ∉ rest.map Prod.snd) (key : K) :
    Ordered { r.touch n with entries := (key, n) :: rest } := by
  have hother (entry) (hmem : entry ∈ rest) : (r.touch n).stamp entry.2 = r.stamp entry.2 := by
    rw [stamp_touch hn, if_neg]
    rintro rfl
    exact hnew (List.mem_map_of_mem hmem)
  have hself : (r.touch n).stamp n = r.clock + 1 := by rw [stamp_touch hn, if_pos rfl]
  have hclock (entry) (hmem : entry ∈ rest) := h.clock entry (hrest.subset hmem)
  refine ⟨?_, ?_, ?_⟩
  · intro entry hmem
    show entry.2 < (r.touch n).spots.size
    rw [size_touch]
    rcases List.mem_cons.mp hmem with rfl | hmem
    · exact hn
    · exact h.known entry (hrest.subset hmem)
  · show List.Pairwise (fun a b : K × Nat => (r.touch n).stamp b.2 < (r.touch n).stamp a.2) _
    refine List.pairwise_cons.mpr ⟨fun entry hmem => ?_, ?_⟩
    · rw [hself, hother entry hmem]
      exact Nat.lt_succ_of_le (hclock entry hmem)
    · refine (h.stamps.sublist hrest).imp_of_mem fun {a b} ha hb hlt => ?_
      rw [hother a ha, hother b hb]
      exact hlt
  · intro entry hmem
    show (r.touch n).stamp entry.2 ≤ r.clock + 1
    rcases List.mem_cons.mp hmem with rfl | hmem
    · exact Nat.le_of_eq hself
    · rw [hother entry hmem]
      exact Nat.le_succ_of_le (hclock entry hmem)

theorem Ordered.enroll (h : r.Ordered) (s : Spot) : (r.enroll s).2.Ordered := by
  have hstamp (entry) (hmem : entry ∈ r.entries) :
      (r.enroll s).2.stamp entry.2 = r.stamp entry.2 := by
    rw [stamp, spot_enroll, if_neg (Nat.ne_of_lt (h.known entry hmem)), stamp]
  refine ⟨fun entry hmem => ?_, h.stamps.imp_of_mem fun {a b} ha hb hlt => ?_,
    fun entry hmem => hstamp entry hmem ▸ h.clock entry hmem⟩
  · have hlt := h.known entry hmem
    simp only [Recency.enroll, Array.size_push]
    omega
  · rw [hstamp a ha, hstamp b hb]
    exact hlt

theorem Ordered.retire (h : r.Ordered) (n : Nat) : (r.retire n).2.Ordered := by
  refine ⟨fun entry hmem => ?_, h.stamps.imp fun hlt => ?_, fun entry hmem => ?_⟩
  · rw [size_retire]
    exact h.known entry hmem
  · rw [stamp_retire, stamp_retire]
    exact hlt
  · rw [stamp_retire]
    exact h.clock entry hmem

-- The index once a new spot stands in front of the entries that stay.
def placed (r : Recency K) (key : K) (bank block : Nat) (rest : List (K × Nat)) : Recency K :=
  { (r.enroll { bank, block }).2.touch r.spots.size with entries := (key, r.spots.size) :: rest }

theorem Ordered.placed (h : r.Ordered) (hrest : rest.Sublist r.entries) (key : K)
    (bank block : Nat) : (r.placed key bank block rest).Ordered := by
  refine (h.enroll { bank, block }).front ?_ hrest ?_ key
  · simp [Recency.enroll]
  · intro hmem
    obtain ⟨entry, hmem, heq⟩ := List.mem_map.mp hmem
    exact Nat.lt_irrefl _ (heq ▸ h.known entry (hrest.subset hmem))

namespace History

variable {h : History K} {limit bank block : Nat} {entry : K × Nat}

-- Every spot that was entered is in one of the three places, under its key, and none was entered
-- twice.
structure Sound (limit : Nat) (h : History K) : Prop where
  capacity : h.index.capacity = limit
  len_le : h.index.len ≤ limit
  keys_nodup : h.index.keys.Nodup
  ordered : h.index.Ordered
  places : (h.index.entries ++ h.dropped ++ h.displaced).Perm h.entered
  once : (h.entered.map Prod.snd).Nodup
  known : ∀ entry ∈ h.entered, entry.2 < h.index.spots.size

theorem Sound.held_nodup (hs : h.Sound limit) : h.index.held.Nodup := by
  have hall := (hs.places.map Prod.snd).nodup_iff.mpr hs.once
  rw [List.append_assoc, List.map_append] at hall
  exact hall.of_append_left

-- An entry that leaves the index goes to one of the other two places.
theorem Sound.places_of_dropped (hs : h.Sound limit) (hperm : h.index.entries.Perm (entry :: rest)) :
    (rest ++ entry :: h.dropped ++ h.displaced).Perm h.entered := by
  refine List.Perm.trans ?_ hs.places
  refine List.Perm.append_right _ ?_
  exact List.perm_middle.trans (hperm.symm.append_right h.dropped)

theorem Sound.places_of_displaced (hs : h.Sound limit)
    (hperm : h.index.entries.Perm (entry :: rest)) :
    (rest ++ h.dropped ++ entry :: h.displaced).Perm h.entered := by
  refine List.Perm.trans ?_ hs.places
  refine List.perm_middle.trans ?_
  exact (hperm.symm.append_right h.dropped).append_right h.displaced

theorem Sound.enter {dropped displaced : List (K × Nat)} (hs : h.Sound limit)
    (hrest : rest.Sublist h.index.entries) (hkey : key ∉ rest.map Prod.fst)
    (hlen : rest.length < limit) (hplaces : (rest ++ dropped ++ displaced).Perm h.entered) :
    Sound limit ⟨h.index.placed key bank block rest, (key, h.index.spots.size) :: h.entered,
      dropped, displaced⟩ := by
  have hsize : (h.index.placed key bank block rest).spots.size = h.index.spots.size + 1 := by
    simp [placed, enroll, touch]
  refine ⟨hs.capacity, hlen, ?_, hs.ordered.placed hrest key bank block, hplaces.cons _, ?_, ?_⟩
  · exact List.nodup_cons.mpr ⟨hkey, hs.keys_nodup.sublist (hrest.map _)⟩
  · refine List.nodup_cons.mpr ⟨fun hmem => ?_, hs.once⟩
    obtain ⟨entry, hmem, heq⟩ := List.mem_map.mp hmem
    exact Nat.lt_irrefl _ (heq ▸ hs.known entry hmem)
  · intro entry hmem
    rw [hsize]
    rcases List.mem_cons.mp hmem with rfl | hmem
    · exact Nat.lt_succ_self _
    · exact Nat.lt_succ_of_lt (hs.known entry hmem)

theorem Sound.leave {dropped displaced : List (K × Nat)} (hs : h.Sound limit)
    (hrest : rest.Sublist h.index.entries)
    (hplaces : (rest ++ dropped ++ displaced).Perm h.entered) :
    Sound limit ⟨{ h.index with entries := rest }, h.entered, dropped, displaced⟩ :=
  ⟨hs.capacity, Nat.le_trans hrest.length_le hs.len_le, hs.keys_nodup.sublist (hrest.map _),
    hs.ordered.sublist hrest, hplaces, hs.once, hs.known⟩

end History

variable [DecidableEq K]

theorem insert_of_present {old : Nat} (hpeek : r.peek key = some old) (n : Nat) :
    r.insert key n = (.displaced old, { r.touch n with entries := (key, n) :: r.others key }) := by
  have hpeek' : (r.touch n).peek key = some old := hpeek
  simp only [insert, hpeek']
  rfl

theorem not_mem_others (r : Recency K) (key : K) : key ∉ (r.others key).map Prod.fst := by
  rw [keys_others]
  simp

namespace History

variable {h : History K} {limit : Nat}

theorem Sound.promote (hs : h.Sound limit) (hpeek : h.index.peek key = some n) :
    Sound limit { h with
      index := { h.index.touch n with entries := (key, n) :: h.index.others key } } := by
  have hperm := entries_perm hs.keys_nodup hpeek
  have hmem : (key, n) ∈ h.index.entries := (peek_eq_some_iff hs.keys_nodup).mp hpeek
  have hrest : (h.index.others key).Sublist h.index.entries := List.filter_sublist
  have hheld : n ∉ (h.index.others key).map Prod.snd :=
    (List.nodup_cons.mp ((hperm.map Prod.snd).nodup_iff.mp hs.held_nodup)).1
  refine ⟨hs.capacity, ?_, ?_, ?_, ?_, hs.once, ?_⟩
  · exact Nat.le_trans (Nat.le_of_eq hperm.length_eq.symm) hs.len_le
  · exact (hperm.map Prod.fst).nodup_iff.mp hs.keys_nodup
  · exact hs.ordered.front (hs.ordered.known _ hmem) hrest hheld key
  · exact ((hperm.symm.append_right _).append_right _).trans hs.places
  · intro entry hmem
    show entry.2 < (h.index.touch n).spots.size
    rw [size_touch]
    exact hs.known entry hmem

-- The three outcomes of an insert, and where each spot is then.
theorem step_insert (hs : h.Sound limit) (hpos : 0 < limit) (key : K) (bank block : Nat) :
    (∃ old, h.index.peek key = some old ∧ h.step (.insert key bank block) =
      ⟨h.index.placed key bank block (h.index.others key),
        (key, h.index.spots.size) :: h.entered, h.dropped, (key, old) :: h.displaced⟩) ∨
    (h.index.peek key = none ∧ h.index.len < limit ∧ h.step (.insert key bank block) =
      ⟨h.index.placed key bank block h.index.entries,
        (key, h.index.spots.size) :: h.entered, h.dropped, h.displaced⟩) ∨
    ∃ last rest, h.index.peek key = none ∧ h.index.len = limit ∧
      h.index.entries = rest ++ [last] ∧ h.step (.insert key bank block) =
      ⟨h.index.placed key bank block rest,
        (key, h.index.spots.size) :: h.entered, last :: h.dropped, h.displaced⟩ := by
  let n := h.index.spots.size
  let fresh := (h.index.enroll { bank, block }).2
  have hstep : h.step (.insert key bank block) = h.settle key n (fresh.insert key n) := rfl
  have hcapacity : fresh.capacity = limit := hs.capacity
  cases hpeek : h.index.peek key with
  | some old =>
    have hpeek' : fresh.peek key = some old := hpeek
    refine .inl ⟨old, rfl, ?_⟩
    rw [hstep, insert_of_present hpeek']
    rfl
  | none =>
    have hpeek' : fresh.peek key = none := hpeek
    have hfits : fresh.len ≤ fresh.capacity := hcapacity.symm ▸ hs.len_le
    rcases insert_of_absent hpeek' (hcapacity.symm ▸ hpos) hfits n with
      ⟨hroom, hinsert⟩ | ⟨last, old, rest, hfull, hentries, hinsert⟩
    · refine .inr (.inl ⟨rfl, hcapacity ▸ hroom, ?_⟩)
      rw [hstep, hinsert]
      rfl
    · refine .inr (.inr ⟨(last, old), rest, rfl, hfull.trans hcapacity, hentries, ?_⟩)
      rw [hstep, hinsert]
      rfl

theorem Sound.step (hs : h.Sound limit) (hpos : 0 < limit) (c : Call K) :
    (h.step c).Sound limit := by
  cases c with
  | insert key bank block =>
    have habsent (hpeek : h.index.peek key = none) : key ∉ h.index.entries.map Prod.fst :=
      peek_eq_none_iff.mp hpeek
    rcases step_insert hs hpos key bank block with
      ⟨old, hpeek, heq⟩ | ⟨hpeek, hroom, heq⟩ | ⟨last, rest, hpeek, hfull, hentries, heq⟩
    · have hperm := entries_perm hs.keys_nodup hpeek
      have hlen : h.index.len = (h.index.others key).length + 1 := hperm.length_eq
      have hle := hs.len_le
      rw [heq]
      exact hs.enter List.filter_sublist (not_mem_others _ _) (by omega)
        (hs.places_of_displaced hperm)
    · rw [heq]
      exact hs.enter (List.Sublist.refl _) (habsent hpeek) hroom hs.places
    · have hrest : rest.Sublist h.index.entries := hentries ▸ List.sublist_append_left rest [last]
      have hperm : h.index.entries.Perm (last :: rest) :=
        hentries ▸ List.perm_append_singleton last rest
      have hlen : h.index.len = rest.length + 1 := hperm.length_eq
      rw [heq]
      exact hs.enter hrest (fun hmem => habsent hpeek ((hrest.map _).subset hmem)) (by omega)
        (hs.places_of_dropped hperm)
  | get key =>
    cases hpeek : h.index.peek key with
    | none =>
      have hget : h.step (.get key) = h := by rw [History.step, Recency.get, hpeek]
      rw [hget]
      exact hs
    | some n =>
      rw [History.step, Recency.get, hpeek]
      exact hs.promote hpeek
  | peek key => exact hs
  | contains key => exact hs
  | remove key =>
    cases hpeek : h.index.peek key with
    | none =>
      have hremove : h.step (.remove key) = h := by rw [History.step, Recency.remove, hpeek]
      rw [hremove]
      exact hs
    | some n =>
      rw [History.step, Recency.remove, hpeek]
      exact hs.leave List.filter_sublist
        (hs.places_of_dropped (entries_perm hs.keys_nodup hpeek))
  | mark n =>
    have hknown (entry) (hmem : entry ∈ h.entered) :
        entry.2 < (h.index.retire n).2.spots.size := by
      rw [size_retire]
      exact hs.known entry hmem
    exact ⟨hs.capacity, hs.len_le, hs.keys_nodup, hs.ordered.retire n, hs.places, hs.once, hknown⟩

theorem sound_after {limit : Nat} (hpos : 0 < limit) (calls : List (Call K)) :
    (after limit calls).Sound limit := by
  have hrun (h : History K) (hs : h.Sound limit) : (calls.foldl History.step h).Sound limit := by
    induction calls generalizing h with
    | nil => exact hs
    | cons c calls ih => exact ih _ (hs.step hpos c)
  refine hrun _ ⟨rfl, Nat.zero_le _, List.nodup_nil, ⟨?_, List.Pairwise.nil, ?_⟩, .refl _,
    List.nodup_nil, ?_⟩
  all_goals intro entry hmem; exact absurd hmem List.not_mem_nil

-- Where a call leaves the spots: what is indexed then, and what came to the other two places.
def Moves (h h' : History K) (entries dropped displaced : List (K × Nat)) : Prop :=
  h'.index.entries = entries ∧ h'.dropped = dropped ++ h.dropped ∧
    h'.displaced = displaced ++ h.displaced

-- Each spot that was entered is in one place, once, under its key. The next insert moves a spot out
-- of the index only for one of its own key, or, when a new key finds no room, the one with the least
-- stamp.
structure Conserved (limit : Nat) (h : History K) : Prop where
  len_le : h.index.len ≤ limit
  places : (h.index.entries ++ h.dropped ++ h.displaced).Perm h.entered
  once : (h.entered.map Prod.snd).Nodup
  indexed : ∀ key n, h.index.peek key = some n ↔ (key, n) ∈ h.index.entries
  order : h.index.entries.Pairwise fun a b => h.index.stamp b.2 < h.index.stamp a.2
  displaces : ∀ key bank block old, h.index.peek key = some old →
    h.Moves (h.step (.insert key bank block)) ((key, h.index.spots.size) :: h.index.others key) []
      [(key, old)]
  grows : ∀ key bank block, h.index.peek key = none → h.index.len < limit →
    h.Moves (h.step (.insert key bank block)) ((key, h.index.spots.size) :: h.index.entries) [] []
  evicts : ∀ key bank block, h.index.peek key = none → h.index.len = limit →
    ∃ last rest, h.index.entries = rest ++ [last] ∧
      (∀ entry ∈ rest, h.index.stamp last.2 < h.index.stamp entry.2) ∧
      h.Moves (h.step (.insert key bank block)) ((key, h.index.spots.size) :: rest) [last] []
  removes : ∀ key n, h.index.peek key = some n →
    h.Moves (h.step (.remove key)) (h.index.others key) [(key, n)] []

theorem Sound.conserved (hs : h.Sound limit) (hpos : 0 < limit) : h.Conserved limit where
  len_le := hs.len_le
  places := hs.places
  once := hs.once
  indexed _ _ := peek_eq_some_iff hs.keys_nodup
  order := hs.ordered.stamps
  displaces key bank block old hpeek := by
    rcases step_insert hs hpos key bank block with
      ⟨old', hpeek', heq⟩ | ⟨hpeek', _⟩ | ⟨_, _, hpeek', _⟩
    · obtain rfl := Option.some.inj (hpeek.symm.trans hpeek')
      rw [heq]
      exact ⟨rfl, rfl, rfl⟩
    all_goals exact absurd (hpeek.symm.trans hpeek') (Option.some_ne_none old)
  grows key bank block hpeek hroom := by
    rcases step_insert hs hpos key bank block with
      ⟨old, hpeek', _⟩ | ⟨_, _, heq⟩ | ⟨_, _, _, hfull, _⟩
    · exact absurd (hpeek'.symm.trans hpeek) (Option.some_ne_none old)
    · rw [heq]
      exact ⟨rfl, rfl, rfl⟩
    · omega
  evicts key bank block hpeek hfull := by
    rcases step_insert hs hpos key bank block with
      ⟨old, hpeek', _⟩ | ⟨_, hroom, _⟩ | ⟨last, rest, _, _, hentries, heq⟩
    · exact absurd (hpeek'.symm.trans hpeek) (Option.some_ne_none old)
    · omega
    · have horder := List.pairwise_append.mp (hentries ▸ hs.ordered.stamps)
      refine ⟨last, rest, hentries, fun entry hmem => ?_, ?_⟩
      · exact horder.2.2 entry hmem last List.mem_cons_self
      · rw [heq]
        exact ⟨rfl, rfl, rfl⟩
  removes key n hpeek := by
    rw [History.step, Recency.remove, hpeek]
    exact ⟨rfl, rfl, rfl⟩

theorem clock_insert (r : Recency K) (key : K) (n : Nat) :
    (r.insert key n).2.clock = r.clock + 1 := by
  unfold Recency.insert
  dsimp only
  split
  · rfl
  · split
    · rfl
    · split <;> rfl

omit [DecidableEq K] in
theorem index_settle (h : History K) (key : K) (n : Nat) (out : Insertion K × Recency K) :
    (h.settle key n out).index = out.2 := by
  obtain ⟨_ | _ | _, index⟩ := out <;> rfl

-- The clock does not run ahead of the calls.
theorem clock_step_le (h : History K) (c : Call K) : (h.step c).index.clock ≤ h.index.clock + 1 := by
  cases c with
  | insert key bank block =>
    rw [History.step, index_settle, clock_insert]
    exact Nat.le_refl _
  | get key =>
    rw [History.step, Recency.get]
    split
    · exact Nat.le_succ _
    · exact Nat.le_refl _
  | remove key =>
    rw [History.step, Recency.remove]
    cases h.index.peek key <;> exact Nat.le_succ _
  | peek | contains | mark => exact Nat.le_succ _

theorem clock_after_le (limit : Nat) (calls : List (Call K)) :
    (after limit calls).index.clock ≤ calls.length := by
  have hrun (h : History K) :
      (calls.foldl History.step h).index.clock ≤ h.index.clock + calls.length := by
    induction calls generalizing h with
    | nil => exact Nat.le_refl _
    | cons c calls ih =>
      have htail := ih (h.step c)
      have hstep := clock_step_le h c
      rw [List.foldl_cons, List.length_cons]
      omega
  exact Nat.le_trans (hrun _) (Nat.le_of_eq (Nat.zero_add _))

-- In every run a spot is under the key it was entered with until it is dropped to the listener or
-- displaced by another spot of this key. A stamp is at most the number of calls, so stamps of a
-- fixed width do not wrap before that many.
theorem spots_conserved {limit : Nat} (hpos : 0 < limit) (calls : List (Call K)) :
    (after limit calls).Conserved limit ∧
      ∀ entry ∈ (after limit calls).index.entries,
        (after limit calls).index.stamp entry.2 ≤ calls.length := by
  have hs := sound_after hpos calls
  exact ⟨hs.conserved hpos, fun entry hmem =>
    Nat.le_trans (hs.ordered.clock entry hmem) (clock_after_le limit calls)⟩

-- Key 2 makes room for key 3, which is removed later; key 1 was used since and gets another spot.
theorem spots_conserved_two :
    let h := after 2 [.insert 1 0 0, .insert 2 0 1, .get 1, .insert 3 0 2, .insert 1 1 0, .mark 1,
      .remove 3, .peek 3]
    h.index.entries = [(1, 3)] ∧ h.dropped = [(3, 2), (2, 1)] ∧ h.displaced = [(1, 0)] ∧
      0 < 2 ∧ h.Conserved 2 :=
  ⟨by decide, by decide, by decide, by decide, (spots_conserved (by decide) _).1⟩

end History

end Recency

end Blockwise
