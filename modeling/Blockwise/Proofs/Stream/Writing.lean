import Blockwise.Proofs.Stream.Reading
import Blockwise.Stream.CachedWriter

namespace Blockwise

open Act

-- A stream below that either appends all it is given, and is then marked as written, or stays as it
-- is.
structure Sink.Appends {ο β : Type} (sink : Sink ο β) (content : ο → β → Bytes)
    (states : ο → β → Prop) (written : ο → Prop) : Prop where
  write : ∀ data out s, states out s → Ends (sink.write data) (out, s)
    (fun _ p => states p.1 p.2 ∧ content p.1 p.2 = content out s ++ data ∧ written p.1)
    (fun _ p => states p.1 p.2 ∧ content p.1 p.2 = content out s)

namespace Output

variable {ο β : Type} {sink : Sink ο β} {out : ο} {s : Site β}
  {done : Unit → ο × Site β → Prop} {failed : Failure → ο × Site β → Prop}

@[simp] theorem ends_plainSink_write {data : Bytes} :
    Ends ((plainSink sink).write data) (out, s) done failed ↔ Ends (sink.write data) (out, s.store)
      (fun a p => done a (p.1, { s with store := p.2 }))
      (fun e p => failed e (p.1, { s with store := p.2 })) := ends_onPart

@[simp] theorem ends_plainSink_flush :
    Ends (plainSink sink).flush (out, s) done failed ↔ Ends sink.flush (out, s.store)
      (fun a p => done a (p.1, { s with store := p.2 }))
      (fun e p => failed e (p.1, { s with store := p.2 })) := ends_onPart

@[simp] theorem ends_plainSink_close :
    Ends (plainSink sink).close (out, s) done failed ↔ Ends sink.close (out, s.store)
      (fun a p => done a (p.1, { s with store := p.2 }))
      (fun e p => failed e (p.1, { s with store := p.2 })) := ends_onPart

end Output

namespace CachedWriter

variable {ο β α : Type} {sink : Sink ο β} {content : ο → β → Bytes} {states : ο → β → Prop}
  {written : ο → Prop} {pool : Nat} {claims : String → Bytes → Prop} {trusted : Prop}
  {w w' : CachedWriter ο (Site β)} {s s' : Site β} {file data : Bytes}

@[simp] theorem ends_onTier {x : Act Tier α}
    {done : α → CachedWriter ο (Site β) × Site β → Prop}
    {failed : Failure → CachedWriter ο (Site β) × Site β → Prop} :
    Ends (onTier x) (w, s) done failed ↔ Ends x s.tier
      (fun a tier => done a (w, { s with tier })) (fun e tier => failed e (w, { s with tier })) := by
  rw [onTier, ends_onPart, Site.ends_onTier]

@[simp] theorem ends_onBelow {x : Act (ο × Site β) α}
    {done : α → CachedWriter ο (Site β) × Site β → Prop}
    {failed : Failure → CachedWriter ο (Site β) × Site β → Prop} :
    Ends (onBelow x) (w, s) done failed ↔ Ends x (w.below, s)
      (fun a p => done a ({ w with below := p.1 }, p.2))
      (fun e p => failed e ({ w with below := p.1 }, p.2)) := by
  rw [onBelow, ends_onPart]

@[simp] theorem ends_modifyWriter
    {f : CachedWriter ο (Site β) → CachedWriter ο (Site β)}
    {done : Unit → CachedWriter ο (Site β) × Site β → Prop}
    {failed : Failure → CachedWriter ο (Site β) × Site β → Prop} :
    Ends (modifyWriter f) (w, s) done failed ↔ done () (f w, s) := Iff.rfl

-- The bytes of the block that the stream below has not got go there, and then the block to the cache.
theorem ends_passStaged {sink : Sink ο (Site β)} (hflushed : w.flushed ≤ w.staged.size)
    {done : Unit → CachedWriter ο (Site β) × Site β → Prop}
    {failed : Failure → CachedWriter ο (Site β) × Site β → Prop}
    (hnone : w.staged.size = w.flushed → done () (w, s))
    (hfresh : w.staged.size ≠ w.flushed →
      Ends (sink.write (Bytes.slice w.staged w.flushed (w.staged.size - w.flushed))) (w.below, s)
        (fun _ p => Ends (Tier.update w.location (Grid.block w.blockStart) 0 w.staged) p.2.tier
          (fun _ t =>
            done () ({ w with below := p.1, flushed := w.staged.size }, { p.2 with tier := t }))
          fun e t =>
            failed e ({ w with below := p.1, flushed := w.staged.size }, { p.2 with tier := t }))
        (fun e p => failed e ({ w with below := p.1 }, p.2))) :
    Ends (passStaged sink) (w, s) done failed := by
  by_cases hnew : w.staged.size = w.flushed
  · simp only [passStaged, ends_bind, ends_get, hnew, if_true, ends_pure]
    exact hnone hnew
  · simp only [passStaged, ends_bind, ends_get, hnew, if_false]
    rw [CacheLabel.part_of_le hflushed (Nat.le_refl _)]
    simp only [ends_lift_ok, ends_onBelow, ends_modifyWriter, ends_onTier]
    exact hfresh hnew

-- The flushed bytes of the staged block are the end of the file below.
structure Staging (w : CachedWriter ο (Site β)) (file : Bytes) : Prop where
  aligned : Grid.start (Grid.block w.blockStart) = w.blockStart
  flushed_le : w.flushed ≤ w.staged.size
  staged_le : w.staged.size ≤ Grid.blockSize
  size : file.size = w.blockStart + w.flushed
  handed : ∀ i < w.flushed, file[w.blockStart + i]? = w.staged[i]?

theorem Staging.withBelow (h : w.Staging file) (below : ο) : Staging { w with below } file :=
  ⟨h.aligned, h.flushed_le, h.staged_le, h.size, h.handed⟩

-- The claims of others, and the file of a trusted writer under its location.
def Beside (claims : String → Bytes → Prop) (trusted : Prop) (location : String) (file : Bytes)
    (name : String) (data : Bytes) : Prop :=
  claims name data ∨ trusted ∧ name = location ∧ data = file

-- Others claim nothing under a location, or that a file without any bytes is there.
def Vacant (claims : String → Bytes → Prop) (location : String) : Prop :=
  ∀ data, claims location data → data = ByteArray.empty

-- A writer over a stream that holds the file so far.
structure Writing (pool : Nat) (claims : String → Bytes → Prop) (trusted : Prop)
    (states : ο → β → Prop) (content : ο → β → Bytes) (w : CachedWriter ο (Site β)) (s : Site β) :
    Prop where
  staging : w.Staging (content w.below s.store)
  states : states w.below s.store
  honest : s.tier.Honest pool (Beside claims trusted w.location (content w.below s.store))

-- The file grows within the block under way, so all other blocks show it as before.
theorem shows_of_grown {t : Tier} {location : String} {block : Nat} {fresh : Bytes}
    (h : w.Staging file) (hfresh : w.flushed + fresh.size ≤ Grid.blockSize)
    (hshows : t.Shows location file block) (hblock : block ≠ Grid.block w.blockStart) :
    t.Shows location (file ++ fresh) block := by
  intro i hi x y hx hy
  refine hshows i hi x y hx ?_
  rw [Bytes.getElem?_append] at hy
  split at hy
  · exact hy
  · next hge =>
    have hlt : Grid.start block + i - file.size < fresh.size := (getElem?_eq_some_iff.mp hy).1
    have hsize := h.size
    have haligned := h.aligned
    have hoffset : Grid.start (Grid.block w.blockStart) +
        (Grid.start block + i - w.blockStart) = Grid.start block + i := by omega
    have hsame := Grid.block_eq_of_mem (by omega) hoffset
    exact absurd ((Grid.block_eq_of_mem hi rfl).1.symm.trans hsame.1) hblock

-- The grown file is shown right but for the block under way, and so is all else.
theorem shows_others {t : Tier} (h : w.Staging file)
    (hhonest : t.Honest pool (Beside claims trusted w.location file)) (fresh : Bytes)
    (hfresh : w.flushed + fresh.size ≤ Grid.blockSize) :
    ∀ name data, Beside claims trusted w.location (file ++ fresh) name data → ∀ block,
      ¬(name = w.location ∧ block = Grid.block w.blockStart) → t.Shows name data block := by
  intro name data hclaim block hblock
  rcases hclaim with hclaim | ⟨htrusted, rfl, rfl⟩
  · exact hhonest.shows name data (.inl hclaim) block
  · have hother : block ≠ Grid.block w.blockStart := fun heq => hblock ⟨rfl, heq⟩
    exact shows_of_grown h hfresh (hhonest.shows _ _ (.inr ⟨htrusted, rfl, rfl⟩) block) hother

-- What the file holds after the rest of the staged block is handed on, and the block shows it.
theorem Staging.passed (h : w.Staging file) {fresh : Bytes}
    (hfresh : fresh = Bytes.slice w.staged w.flushed (w.staged.size - w.flushed)) (below : ο) :
    Staging { w with below, flushed := w.staged.size } (file ++ fresh) ∧
      ∀ i < Grid.blockSize, ∀ y, (file ++ fresh)[w.blockStart + i]? = some y →
        w.staged[i]? = some y := by
  have hle := h.flushed_le
  have hsize := h.size
  have hlen : fresh.size = w.staged.size - w.flushed := by
    rw [hfresh, Bytes.size_slice_of_le (by omega)]
  have hbyte : ∀ i < w.staged.size, (file ++ fresh)[w.blockStart + i]? = w.staged[i]? := by
    intro i hi
    rw [Bytes.getElem?_append]
    by_cases hold : i < w.flushed
    · rw [if_pos (by omega), h.handed i hold]
    · rw [if_neg (by omega), hfresh, Bytes.getElem?_slice, if_pos (by omega)]
      congr 1
      omega
  refine ⟨⟨h.aligned, Nat.le_refl _, h.staged_le, ?_, hbyte⟩, ?_⟩
  · rw [ByteArray.size_append, hlen, hsize]
    show _ = w.blockStart + w.staged.size
    omega
  · intro i _ y hy
    have hlt : w.blockStart + i < (file ++ fresh).size := (getElem?_eq_some_iff.mp hy).1
    rw [ByteArray.size_append, hlen, hsize] at hlt
    rw [← hbyte i (by omega), hy]

-- The rest of the staged block is handed on and then published, or neither happens. Others may have
-- nothing under the location by then.
theorem passStaged_ends (happends : sink.Appends content states written)
    (h : Writing pool claims trusted states content w s)
    (hvacant : w.staged.size ≠ w.flushed → Vacant claims w.location) :
    Ends (passStaged (Output.plainSink sink)) (w, s)
      (fun _ p => ∃ below, p.1 = { w with below, flushed := w.staged.size } ∧
        Writing pool claims trusted states content p.1 p.2 ∧
          (w.staged.size ≠ w.flushed → written below))
      (fun _ p => ∃ below, p.1 = { w with below } ∧
        Writing pool claims trusted states content p.1 p.2) := by
  obtain ⟨hstaging, hstates, hhonest⟩ := h
  have hle := hstaging.flushed_le
  refine ends_passStaged hle (fun hsame => ?_) fun hnew => ?_
  · exact ⟨w.below, by rw [hsame], ⟨hstaging, hstates, hhonest⟩, fun hfresh => absurd hsame hfresh⟩
  generalize hfresh : Bytes.slice w.staged w.flushed (w.staged.size - w.flushed) = fresh
  simp only [Output.ends_plainSink_write]
  refine (happends.write fresh w.below s.store hstates).imp ?_ ?_
  · intro _ p hdone
    obtain ⟨below, store⟩ := p
    obtain ⟨hstates', hcontent, hwritten⟩ := hdone
    obtain ⟨hpassed, hshown⟩ := hstaging.passed hfresh.symm below
    have hlen : fresh.size = w.staged.size - w.flushed := by
      rw [← hfresh, Bytes.size_slice_of_le (by omega)]
    have hstaged := hstaging.staged_le
    have hothers := shows_others hstaging hhonest fresh (by omega)
    rw [← hcontent] at hothers
    refine (Tier.update_ends hhonest.sound hhonest.stocked hothers ?_).imp ?_ ?_
    · rintro data (hclaim | ⟨_, _, rfl⟩) i hi y hy
      · obtain rfl := hvacant hnew data hclaim
        rw [Bytes.getElem?_empty] at hy
        cases hy
      · rw [hcontent, hstaging.aligned] at hy
        exact hshown i hi y hy
    · intro _ t ht
      exact ⟨below, rfl, ⟨hcontent ▸ hpassed, hstates', ht⟩, fun _ => hwritten⟩
    · intro _ t hfailed
      obtain ⟨hlong, _⟩ := hfailed
      exact absurd hlong (Nat.not_lt.mpr hstaged)
  · intro _ p hfailed
    obtain ⟨below, store⟩ := p
    obtain ⟨hstates', hcontent⟩ := hfailed
    exact ⟨below, rfl, hcontent ▸ hstaging.withBelow below, hstates', hcontent ▸ hhonest⟩

-- What no write changes.
structure Stays (w w' : CachedWriter ο (Site β)) : Prop where
  location : w'.location = w.location
  settle : w'.settle = w.settle

theorem Stays.refl (w : CachedWriter ο (Site β)) : Stays w w := ⟨rfl, rfl⟩

theorem Stays.trans {w'' : CachedWriter ο (Site β)} (h : Stays w w') (h' : Stays w' w'') :
    Stays w w'' := ⟨h'.location.trans h.location, h'.settle.trans h.settle⟩

-- Staged bytes that were not handed on yet are no part of the file.
theorem Staging.staged (h : w.Staging file) (hroom : w.staged.size + data.size ≤ Grid.blockSize) :
    Staging { w with staged := w.staged ++ data } file := by
  refine ⟨h.aligned, ?_, ?_, h.size, ?_⟩
  · have hle := h.flushed_le
    simp only [ByteArray.size_append]
    omega
  · simpa only [ByteArray.size_append] using hroom
  · intro i hi
    have hlt : i < w.staged.size := Nat.lt_of_lt_of_le hi h.flushed_le
    rw [h.handed i hi, Bytes.getElem?_append, if_pos hlt]

-- A full block that was handed on is left behind.
theorem Staging.advanced (h : w.Staging file) (hfull : w.flushed = Grid.blockSize) :
    Staging { w with
      blockStart := w.blockStart + Grid.blockSize, staged := ByteArray.empty, flushed := 0 } file := by
  refine ⟨?_, Nat.le_refl _, Nat.zero_le _, ?_, fun i hi => absurd hi (Nat.not_lt_zero i)⟩
  · have hnext : Grid.block (w.blockStart + Grid.blockSize) = Grid.block w.blockStart + 1 :=
      Nat.add_div_right _ Grid.blockSize_pos
    show Grid.start (Grid.block (w.blockStart + Grid.blockSize)) = w.blockStart + Grid.blockSize
    rw [hnext, Grid.start_succ, h.aligned]
  · rw [h.size, hfull]
    rfl

theorem Writing.staged (h : Writing pool claims trusted states content w s)
    (hroom : w.staged.size + data.size ≤ Grid.blockSize) :
    Writing pool claims trusted states content { w with staged := w.staged ++ data } s :=
  ⟨h.staging.staged hroom, h.states, h.honest⟩

theorem Writing.advanced (h : Writing pool claims trusted states content w s)
    (hfull : w.flushed = Grid.blockSize) :
    Writing pool claims trusted states content
      { w with blockStart := w.blockStart + Grid.blockSize, staged := ByteArray.empty, flushed := 0 }
      s :=
  ⟨h.staging.advanced hfull, h.states, h.honest⟩

theorem stage_ends (happends : sink.Appends content states written)
    (h : Writing pool claims trusted states content w s)
    (hroom : w.staged.size + data.size ≤ Grid.blockSize)
    (hvacant : w.staged.size + data.size = Grid.blockSize → Vacant claims w.location) :
    Ends (stage (Output.plainSink sink) data) (w, s)
      (fun _ p => Stays w p.1 ∧ Writing pool claims trusted states content p.1 p.2 ∧
        p.1.staged.size = if w.staged.size + data.size = Grid.blockSize then 0
          else w.staged.size + data.size)
      (fun _ p => Stays w p.1 ∧ Writing pool claims trusted states content p.1 p.2) := by
  have hstaged := h.staged hroom
  simp only [stage, ends_bind, ends_modifyWriter, ends_get, ByteArray.size_append]
  by_cases hfull : w.staged.size + data.size = Grid.blockSize
  · simp only [hfull, if_true, ends_bind]
    refine (passStaged_ends happends hstaged fun _ => hvacant hfull).imp ?_ ?_
    · intro _ p hdone
      obtain ⟨w', s'⟩ := p
      obtain ⟨below, rfl, hwriting, _⟩ := hdone
      simp only [ends_modifyWriter]
      refine ⟨⟨rfl, rfl⟩, hwriting.advanced ?_, rfl⟩
      simpa only [ByteArray.size_append] using hfull
    · intro _ p hfailed
      obtain ⟨w', s'⟩ := p
      obtain ⟨below, rfl, hwriting⟩ := hfailed
      exact ⟨⟨rfl, rfl⟩, hwriting⟩
  · simp only [hfull, if_false, ends_pure]
    exact ⟨⟨rfl, rfl⟩, hstaged, ByteArray.size_append⟩

-- Pieces that fill the block under way and the blocks after it, one by one.
inductive Fills : Nat → List Bytes → Prop
  | nil (room : Nat) : Fills room []
  | last {room : Nat} {piece : Bytes} (h : piece.size ≤ room) : Fills room [piece]
  | cons {room : Nat} {piece : Bytes} {rest : List Bytes} (h : piece.size = room)
      (hrest : Fills Grid.blockSize rest) : Fills room (piece :: rest)

-- Whether or not a string is longer than the room, its start fills the room as far as it goes.
theorem fills_slice {room : Nat} (data : Bytes) {rest : List Bytes}
    (hrest : Fills Grid.blockSize rest) (hdone : data.size ≤ room → rest = []) :
    Fills room (Bytes.slice data 0 room :: rest) := by
  by_cases hlong : room < data.size
  · exact .cons (Bytes.size_slice_of_le (by omega)) hrest
  · rw [hdone (by omega)]
    refine .last ?_
    rw [Bytes.size_slice]
    omega

theorem cut_of_le {n : Nat} (h : data.size ≤ n) :
    Grid.cut (Bytes.slice data n (data.size - n)) = [] := by
  have hsize : (Bytes.slice data n (data.size - n)).size = 0 := by
    rw [Bytes.size_slice]
    omega
  rw [Grid.cut, if_pos hsize]

theorem fills_cut (data : Bytes) : Fills Grid.blockSize (Grid.cut data) := by
  induction data using Grid.cut.induct with
  | case1 data hempty =>
    rw [Grid.cut, if_pos hempty]
    exact .nil _
  | case2 data hsome ih =>
    rw [Grid.cut, if_neg hsome]
    exact fills_slice data ih cut_of_le

theorem fills_cutAfter (room : Nat) (data : Bytes) : Fills room (Grid.cutAfter room data) := by
  unfold Grid.cutAfter
  split
  · exact .nil _
  · exact fills_slice data (fills_cut _) cut_of_le

-- The pieces that a string is cut into are the string again.
theorem concat_cut (data : Bytes) : Bytes.concat (Grid.cut data) = data := by
  induction data using Grid.cut.induct with
  | case1 data hempty =>
    rw [Grid.cut, if_pos hempty]
    exact (Bytes.eq_empty_of_size hempty).symm
  | case2 data hsome ih =>
    rw [Grid.cut, if_neg hsome, Bytes.concat_cons, ih]
    exact Bytes.slice_append_rest data Grid.blockSize

theorem concat_cutAfter (room : Nat) (data : Bytes) : Bytes.concat (Grid.cutAfter room data) = data := by
  unfold Grid.cutAfter
  split
  · next hempty => exact (Bytes.eq_empty_of_size hempty).symm
  · rw [Bytes.concat_cons, concat_cut]
    exact Bytes.slice_append_rest data room

theorem stageAll_ends (happends : sink.Appends content states written) {pieces : List Bytes}
    {room : Nat} (h : Writing pool claims trusted states content w s)
    (hroom : w.staged.size + room = Grid.blockSize) (hfills : Fills room pieces)
    (hvacant : ∀ piece ∈ pieces.head?, piece.size = room → Vacant claims w.location) :
    Ends (pieces.forM (stage (Output.plainSink sink))) (w, s)
      (fun _ p => Stays w p.1 ∧ Writing pool claims trusted states content p.1 p.2)
      (fun _ p => Stays w p.1 ∧ Writing pool claims trusted states content p.1 p.2) := by
  induction hfills generalizing w s with
  | nil room => exact ⟨.refl w, h⟩
  | last hlast =>
    simp only [List.forM_eq_forM, List.forM_cons, List.forM_nil, ends_bind, ends_pure]
    exact (stage_ends happends h (by omega) fun hfull => hvacant _ rfl (by omega)).imp
      (fun _ _ hstage => ⟨hstage.1, hstage.2.1⟩) fun _ _ => id
  | cons hpiece hrest ih =>
    simp only [List.forM_eq_forM, List.forM_cons, ends_bind]
    have hfree := hvacant _ rfl hpiece
    refine (stage_ends happends h (by omega) fun _ => hfree).imp ?_ fun _ _ => id
    intro _ p hdone
    obtain ⟨w', s'⟩ := p
    obtain ⟨hstays, hwriting, hsize⟩ := hdone
    rw [if_pos (by omega)] at hsize
    rw [← hstays.location] at hfree
    exact (ih hwriting (by omega) fun _ _ _ => hfree).imp
      (fun _ _ hrest => ⟨hstays.trans hrest.1, hrest.2⟩)
      fun _ _ hrest => ⟨hstays.trans hrest.1, hrest.2⟩

theorem ends_requireOpen (hopen : w.settle.isSome = true)
    {done : Unit → CachedWriter ο (Site β) × Site β → Prop}
    {failed : Failure → CachedWriter ο (Site β) × Site β → Prop} (h : done () (w, s)) :
    Ends (requireOpen (Output.plainSink sink)) (w, s) done failed := by
  obtain ⟨settle, hsettle⟩ := Option.isSome_iff_exists.mp hopen
  simp only [requireOpen, ends_bind, ends_get, hsettle, Option.isNone_some, Bool.false_eq_true,
    if_false, ends_pure]
  exact h

-- A closed writer refuses every call but a close, and nothing changes.
theorem ends_requireOpen_closed (hclosed : w.settle = none)
    {done : Unit → CachedWriter ο (Site β) × Site β → Prop}
    {failed : Failure → CachedWriter ο (Site β) × Site β → Prop}
    (h : ∀ e, failed e (w, s)) :
    Ends (requireOpen (Output.plainSink sink)) (w, s) done failed := by
  simp only [requireOpen, ends_bind, ends_get, hclosed, Option.isNone_none, if_true, ends_fail]
  exact h _

-- Only a write that fills the block under way hands on bytes.
theorem write_ends (happends : sink.Appends content states written)
    (h : Writing pool claims trusted states content w s) (hopen : w.settle.isSome = true)
    (data : Bytes)
    (hvacant : Grid.blockSize ≤ w.staged.size + data.size → Vacant claims w.location) :
    Ends (write (Output.plainSink sink) data) (w, s)
      (fun _ p => Stays w p.1 ∧ Writing pool claims trusted states content p.1 p.2)
      (fun _ p => Stays w p.1 ∧ Writing pool claims trusted states content p.1 p.2) := by
  have hstaged := h.staging.staged_le
  simp only [write, ends_bind]
  refine ends_requireOpen hopen ?_
  simp only [ends_get, Nat.not_lt.mpr hstaged, if_false]
  refine stageAll_ends happends h (by omega) (fills_cutAfter _ data) fun piece hpiece hfull => ?_
  refine hvacant ?_
  unfold Grid.cutAfter at hpiece
  split at hpiece
  · cases hpiece
  · obtain rfl := Option.some.inj hpiece
    rw [Bytes.size_slice] at hfull
    omega

end CachedWriter

end Blockwise
