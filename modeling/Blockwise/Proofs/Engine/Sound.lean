import Blockwise.Proofs.Arena
import Blockwise.Proofs.Ends
import Blockwise.Proofs.Engine.Claims
import Blockwise.Proofs.Recency

namespace Blockwise

namespace Engine

open Act

variable {K : Type} {e e' e'' : Engine K} {m m' : Metered (Engine K)}
  {held held' : List Nat} {key key' : K} {n i offset len : Nat} {data : Bytes}

def keys (e : Engine K) : List K := e.index.keys

-- The byte at an offset of the block of a spot.
def spotByte (e : Engine K) (n i : Nat) : UInt8 :=
  e.arena.byteAt (e.index.spot n).bank (e.index.spot n).block i

-- The given spots are in use, at different places, and no other place is taken. A spot that was
-- claimed and is not indexed yet is held like the others, which describes the moments within a
-- call.
structure Holds (e : Engine K) (held : List Nat) : Prop where
  arena : e.arena.Sound
  slots_length : e.slots.length = e.arena.banks.length
  slot_len : ∀ t ∈ e.slots, t.len = e.arena.blocksPerBank
  live : ∀ n ∈ held, n < e.index.spots.size ∧ (e.index.spot n).removed = false
  owned : Owned e.slots (held.map e.index.place)

structure Sound (e : Engine K) : Prop where
  holds : e.Holds e.index.held
  keys_nodup : e.keys.Nodup
  len_le : e.len ≤ e.capacity
  capacity_pos : 0 < e.capacity
  capacity_succ : e.capacity + 1 = e.arena.banks.length * e.arena.blocksPerBank

theorem Sound.blockSize_lt (hs : e.Sound) : e.arena.blockSize < Word.limit := by
  apply hs.holds.arena.blockSize_lt
  apply Nat.pos_of_ne_zero
  intro hnone
  have hcount := hs.capacity_succ
  rw [hnone] at hcount
  omega

theorem Sound.within_eq {offset len : Nat} (hs : e.Sound) (hfits : offset + len ≤ e.arena.blockSize)
    (b : Breach) : Word.within e.arena.blockSize offset len b = .ok () :=
  Word.within_of_le hs.blockSize_lt hfits

-- What no call changes: the layout, and the places of the spots there are.
structure Frame (e e' : Engine K) : Prop where
  blockSize : e'.arena.blockSize = e.arena.blockSize
  blocksPerBank : e'.arena.blocksPerBank = e.arena.blocksPerBank
  banks : e'.arena.banks.length = e.arena.banks.length
  capacity : e'.index.capacity = e.index.capacity
  size_le : e.index.spots.size ≤ e'.index.spots.size
  place : ∀ n < e.index.spots.size, e'.index.place n = e.index.place n

theorem Frame.refl (e : Engine K) : Frame e e :=
  ⟨rfl, rfl, rfl, rfl, Nat.le_refl _, fun _ _ => rfl⟩

theorem Frame.trans (h : Frame e e') (h' : Frame e' e'') : Frame e e'' where
  blockSize := h'.blockSize.trans h.blockSize
  blocksPerBank := h'.blocksPerBank.trans h.blocksPerBank
  banks := h'.banks.trans h.banks
  capacity := h'.capacity.trans h.capacity
  size_le := Nat.le_trans h.size_le h'.size_le
  place n hn := (h'.place n (Nat.lt_of_lt_of_le hn h.size_le)).trans (h.place n hn)

-- Only places and bytes of the arena make up the bytes of a spot.
theorem spotByte_congr (harena : e'.arena.byteAt = e.arena.byteAt)
    (hplace : e'.index.place n = e.index.place n) (i : Nat) :
    e'.spotByte n i = e.spotByte n i := by
  simp only [Recency.place, Prod.mk.injEq] at hplace
  rw [spotByte, spotByte, harena, hplace.1, hplace.2]

theorem Holds.perm (h : e.Holds held) (hp : held.Perm held') : e.Holds held' where
  arena := h.arena
  slots_length := h.slots_length
  slot_len := h.slot_len
  live n hn := h.live n (hp.mem_iff.mpr hn)
  owned := h.owned.perm (hp.map _)

-- The place of a spot in use, as a table and a block of it.
theorem Holds.place_taken (h : e.Holds held) (hn : n ∈ held) :
    ∃ t, e.slots[(e.index.spot n).bank]? = some t ∧ t.isTaken (e.index.spot n).block = true :=
  (h.owned.taken_iff _ _).mpr (List.mem_map.mpr ⟨n, hn, rfl⟩)

theorem Holds.place_lt (h : e.Holds held) (hn : n ∈ held) :
    (e.index.spot n).bank < e.arena.banks.length ∧
      (e.index.spot n).block < e.arena.blocksPerBank := by
  obtain ⟨t, ht, htaken⟩ := h.place_taken hn
  obtain ⟨hbank, _⟩ := List.getElem?_eq_some_iff.mp ht
  rw [Occupancy.isTaken_eq, Bool.and_eq_true, decide_eq_true_eq] at htaken
  rw [← h.slots_length, ← h.slot_len t (List.mem_of_getElem? ht)]
  exact ⟨hbank, htaken.1⟩

theorem Holds.place_inj (h : e.Holds held) {n' : Nat} (hn : n ∈ held) (hn' : n' ∈ held)
    (hplace : e.index.place n = e.index.place n') : n = n' :=
  List.inj_on_of_nodup_map h.owned.nodup hn hn' hplace

@[simp] theorem ends_onIndex {α : Type} {f : Recency K → α × Recency K}
    {done : α → Metered (Engine K) → Prop} {failed : Breach → Metered (Engine K) → Prop} :
    Ends (onIndex f) m done failed ↔ done (f m.part.index).1
      ⟨{ m.part with index := (f m.part.index).2 }, m.tally⟩ := Iff.rfl

@[simp] theorem ends_modifyEngine {f : Engine K → Engine K}
    {done : Unit → Metered (Engine K) → Prop} {failed : Breach → Metered (Engine K) → Prop} :
    Ends (modifyEngine f) m done failed ↔ done () ⟨f m.part, m.tally⟩ := Iff.rfl

@[simp] theorem ends_modifyTally {f : Tally → Tally}
    {done : Unit → Metered (Engine K) → Prop} {failed : Breach → Metered (Engine K) → Prop} :
    Ends (modifyTally f : Run K Unit) m done failed ↔ done () ⟨m.part, f m.tally⟩ := Iff.rfl

-- A spot in use is released exactly once: its mark is new, and its block is there to be freed.
theorem release_ends (h : m.part.Holds (n :: held)) :
    Ends (release n) m
      (fun _ m' => m'.part.Holds held ∧ Frame m.part m'.part ∧
        m'.part.index.entries = m.part.index.entries ∧ m'.part.arena = m.part.arena ∧
        m'.tally = m.tally.released)
      (fun _ _ => False) := by
  obtain ⟨hsize, hlive⟩ := h.live n List.mem_cons_self
  obtain ⟨t, ht, _⟩ := h.place_taken List.mem_cons_self
  obtain ⟨hbank, hblock, _⟩ := m.part.index.spot_retire n n
  have hretired : (m.part.index.retire n).1 = true := by simp [Recency.retire, hlive]
  have hdistinct : ∀ n' ∈ held, n' ≠ n := by
    rintro n' hn' rfl
    have hnodup := h.owned.nodup
    rw [List.map_cons, List.nodup_cons] at hnodup
    exact hnodup.1 (List.mem_map_of_mem hn')
  simp only [release, ends_bind, ends_onIndex, hretired, if_true, ends_get, hbank, ht,
    ends_modifyEngine, ends_modifyTally]
  refine ⟨⟨h.arena, ?_, ?_, ?_, ?_⟩, ⟨rfl, rfl, rfl, rfl, ?_, ?_⟩, rfl, trivial, trivial⟩
  · simpa using h.slots_length
  · intro t' ht'
    rcases List.mem_or_eq_of_mem_set ht' with ht' | rfl
    · exact h.slot_len t' ht'
    · rw [Occupancy.release_len]
      exact h.slot_len t (List.mem_of_getElem? ht)
  · intro n' hn'
    obtain ⟨hsize', hlive'⟩ := h.live n' (List.mem_cons_of_mem _ hn')
    rw [Recency.size_retire, (m.part.index.spot_retire n n').2.2 (hdistinct n' hn')]
    exact ⟨hsize', hlive'⟩
  · rw [Recency.place_retire, hblock]
    exact h.owned.release ht
  · exact Nat.le_of_eq (Recency.size_retire _ _).symm
  · intro n' _
    exact congrFun (Recency.place_retire _ _) n'

-- Entering a spot touches it, which moves nothing and marks nothing as removed.
theorem Holds.entered (h : e.Holds held) (n : Nat) (entries : List (K × Nat)) :
    Holds { e with index := { e.index.touch n with entries } } held ∧
      Frame e { e with index := { e.index.touch n with entries } } := by
  have hplace : Recency.place { e.index.touch n with entries } = e.index.place :=
    Recency.place_touch e.index n
  have hsize : (e.index.touch n).spots.size = e.index.spots.size := Recency.size_touch e.index n
  refine ⟨⟨h.arena, h.slots_length, h.slot_len, ?_, ?_⟩, rfl, rfl, rfl, rfl, ?_, ?_⟩
  · intro n' hn'
    obtain ⟨hlt, hlive⟩ := h.live n' hn'
    exact ⟨hsize ▸ hlt, (e.index.spot_touch n n').2.2.trans hlive⟩
  · rw [hplace]
    exact h.owned
  · exact Nat.le_of_eq hsize.symm
  · intro n' _
    exact congrFun hplace n'

variable [DecidableEq K]

-- The byte at an offset of the block of a key, if it has one.
def byteAt (e : Engine K) (key : K) (i : Nat) : Option UInt8 :=
  (e.index.peek key).map (e.spotByte · i)

theorem Sound.mem_held (hs : e.Sound) (h : e.index.peek key = some n) : n ∈ e.index.held :=
  List.mem_map.mpr ⟨(key, n), (Recency.peek_eq_some_iff hs.keys_nodup).mp h, rfl⟩

-- What an insert leaves: the new key in front, and the last one gone if there was no room. Places
-- and bytes stay as they are.
structure Inserted (key : K) (n : Nat) (m m' : Metered (Engine K)) : Prop where
  sound : m'.part.Sound
  frame : Frame m.part m'.part
  keys : m'.part.keys = (key :: m.part.keys).take m.part.capacity
  peek_self : m'.part.index.peek key = some n
  peek_other : ∀ key' ≠ key, key' ∈ m'.part.keys →
    m'.part.index.peek key' = m.part.index.peek key'
  arena : m'.part.arena = m.part.arena
  tally : m'.tally = if m.part.len < m.part.capacity then m.tally else m.tally.released

-- The list of keys is cut at the capacity, whether or not that drops a key.
theorem Inserted.of_entries (hnodup : m.part.keys.Nodup) (hpos : 0 < m.part.capacity)
    (hcapacity : m.part.capacity + 1 = m.part.arena.banks.length * m.part.arena.blocksPerBank)
    (habsent : m.part.index.peek key = none) (hholds : m'.part.Holds m'.part.index.held)
    (hframe : Frame m.part m'.part) (harena : m'.part.arena = m.part.arena)
    (htally : m'.tally = if m.part.len < m.part.capacity then m.tally else m.tally.released)
    (hentries : m'.part.index.entries =
      (key, n) :: m.part.index.entries.take (m.part.capacity - 1)) :
    Inserted key n m m' := by
  have hsucc : m.part.capacity = m.part.capacity - 1 + 1 := by omega
  have hkeys : m'.part.keys = (key :: m.part.keys).take m.part.capacity := by
    rw [hsucc, List.take_succ_cons, Engine.keys, Recency.keys, hentries]
    simp [Engine.keys, Recency.keys, List.map_take]
  have hcap : m'.part.capacity = m.part.capacity := hframe.capacity
  have hkey : key ∉ m.part.keys := Recency.peek_eq_none_iff.mp habsent
  have hnodup' : m'.part.keys.Nodup := by
    rw [hkeys]
    exact (List.take_sublist _ _).nodup (List.nodup_cons.mpr ⟨hkey, hnodup⟩)
  have hlen : m'.part.len ≤ m'.part.capacity := by
    rw [hcap, Engine.len, Recency.len, hentries, List.length_cons, List.length_take]
    omega
  refine ⟨⟨hholds, hnodup', hlen, hcap ▸ hpos, ?_⟩, hframe, hkeys, ?_, ?_, harena, htally⟩
  · rw [hcap, hframe.banks, hframe.blocksPerBank, hcapacity]
  · rw [Recency.peek_eq_some_iff hnodup', hentries]
    exact List.mem_cons_self
  · intro key' hne hmem
    obtain ⟨n', hn'⟩ := Recency.mem_keys_iff.mp hmem
    rw [hn', eq_comm, Recency.peek_eq_some_iff hnodup]
    rw [Recency.peek_eq_some_iff hnodup', hentries, List.mem_cons, Prod.mk.injEq] at hn'
    exact List.mem_of_mem_take (hn'.resolve_left fun h => hne h.1)

theorem insert_ends (h : m.part.Holds (n :: m.part.index.held)) (hnodup : m.part.keys.Nodup)
    (hlen : m.part.len ≤ m.part.capacity) (hpos : 0 < m.part.capacity)
    (hcapacity : m.part.capacity + 1 = m.part.arena.banks.length * m.part.arena.blocksPerBank)
    (habsent : m.part.index.peek key = none) :
    Ends (insert key n) m (fun _ => Inserted key n m) (fun _ _ => False) := by
  rcases Recency.insert_of_absent habsent hpos hlen n with
    ⟨hroom, hgrown⟩ | ⟨last, old, rest, hfull, hrest, hevicted⟩
  · have hroom : m.part.len < m.part.capacity := hroom
    obtain ⟨hholds, hframe⟩ := h.entered n ((key, n) :: m.part.index.entries)
    simp only [insert, ends_bind, ends_onIndex, hgrown, ends_pure]
    refine .of_entries hnodup hpos hcapacity habsent hholds hframe rfl (if_pos hroom).symm ?_
    rw [List.take_of_length_le]
    show m.part.len ≤ _
    omega
  · have hfull : m.part.len = m.part.capacity := hfull
    obtain ⟨hholds, hframe⟩ := h.entered n ((key, n) :: rest)
    have hperm : (n :: m.part.index.held).Perm (old :: n :: rest.map Prod.snd) := by
      rw [Recency.held, hrest, List.map_append]
      exact (List.perm_append_singleton old (rest.map Prod.snd)).cons n |>.trans
        (List.Perm.swap old n _)
    simp only [insert, ends_bind, ends_onIndex, hevicted]
    refine (release_ends (hholds.perm hperm)).imp ?_ fun _ _ => id
    intro _ m' hdone
    obtain ⟨hholds', hframe', hentries', harena', htally'⟩ := hdone
    have hheld : m'.part.index.held = n :: rest.map Prod.snd := by
      rw [Recency.held, hentries']
      rfl
    refine .of_entries hnodup hpos hcapacity habsent (hheld ▸ hholds') (hframe.trans hframe')
      harena' ?_ ?_
    · rw [if_neg (by omega), htally']
    · have hlength : rest.length = m.part.capacity - 1 := by
        have : m.part.len = rest.length + 1 := by rw [len, Recency.len, hrest]; simp
        omega
      rw [hentries', hrest, ← hlength, List.take_left]

end Engine

end Blockwise
