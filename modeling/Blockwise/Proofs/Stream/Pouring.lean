import Blockwise.Proofs.Stream.Chunking
import Blockwise.Proofs.Volume.Calm

namespace Blockwise

open Act

namespace CachedWriter

variable {pool : Nat} {sh : Shelf} {name : String} {got data : Bytes} {d : Directory}
  {w : CachedWriter World.Out (Site World)} {s : Site World}
  {p : CachedWriter World.Out (Site World) × Site World}

-- A writer over an output of a shelf, and all that it was given. Of the cache only the soundness
-- matters.
structure Pouring (pool : Nat) (sh : Shelf) (name : String) (got : Bytes)
    (p : CachedWriter World.Out (Site World) × Site World) : Prop where
  below : ∃ o, p.1.below = .memory 0 o ∧ sh.Gathers name o ∧ p.1.Staging o.buffer ∧
    o.buffer ++ p.1.unhanded = got
  shelf : p.2.store.shelf 0 = some sh
  honest : p.2.tier.Honest pool fun _ _ => False

theorem Pouring.staged (h : Pouring pool sh name got (w, s))
    (hroom : w.staged.size + data.size ≤ Grid.blockSize) :
    Pouring pool sh name (got ++ data) ({ w with staged := w.staged ++ data }, s) := by
  obtain ⟨⟨o, hbelow, hgathers, hstaging, rfl⟩, hshelf, hhonest⟩ := h
  refine ⟨⟨o, hbelow, hgathers, hstaging.staged hroom, ?_⟩, hshelf, hhonest⟩
  rw [ByteArray.append_assoc]
  exact congrArg _ (Bytes.slice_append_end hstaging.flushed_le data)

theorem Pouring.pass (h : Pouring pool sh name got (w, s)) :
    Ends (passStaged (Output.plainSink World.sink)) (w, s)
      (fun _ p => Pouring pool sh name got p ∧
        ∃ below, p.1 = { w with below, flushed := w.staged.size })
      (fun _ _ => ¬sh.calm = true) := by
  obtain ⟨⟨o, hbelow, hgathers, hstaging, hgot⟩, hshelf, hhonest⟩ := h
  have hstaging : w.Staging o.buffer := hstaging
  have hbelow : w.below = .memory 0 o := hbelow
  refine ends_passStaged hstaging.flushed_le (fun hsame => ?_) fun hnew => ?_
  · exact ⟨⟨⟨o, hbelow, hgathers, hstaging, hgot⟩, hshelf, hhonest⟩, w.below, by rw [hsame]⟩
  generalize hfresh : Bytes.slice w.staged w.flushed (w.staged.size - w.flushed) = fresh
  rw [hbelow, Output.ends_plainSink_write]
  refine (World.write_gathered hshelf hgathers.opened fresh).imp ?_ fun _ _ => id
  intro _ q hwritten
  obtain ⟨below, store⟩ := q
  obtain ⟨hshelf', rfl⟩ := hwritten
  have hupdated : Ends (Tier.update w.location (Grid.block w.blockStart) 0 w.staged) s.tier
      (fun _ t => t.Honest pool fun _ _ => False)
      (fun _ t => Grid.blockSize < w.staged.size ∧ t.Sound ∧ t.pools = s.tier.pools ∧
        t.byteAt = s.tier.byteAt) :=
    Tier.update_ends hhonest.sound hhonest.stocked (fun _ _ => False.elim) fun _ => False.elim
  refine hupdated.imp ?_ fun _ _ hfailed => ?_
  · intro _ t ht
    refine ⟨⟨⟨_, rfl, hgathers.write fresh, (hstaging.passed hfresh.symm _).1, ?_⟩, hshelf', ht⟩,
      _, rfl⟩
    show o.buffer ++ fresh ++
      Bytes.slice w.staged w.staged.size (w.staged.size - w.staged.size) = got
    rw [Nat.sub_self, Bytes.slice_zero, ByteArray.append_empty, ← hfresh]
    exact hgot
  · exact absurd hfailed.1 (Nat.not_lt.mpr hstaging.staged_le)

-- The same writer between the calls made to it: there is room in the block under way, and the close has
-- still to come.
structure Filling (pool : Nat) (sh : Shelf) (d : Directory) (name : String) (got : Bytes)
    (p : CachedWriter World.Out (Site World) × Site World) : Prop where
  pouring : Pouring pool sh name got p
  room : p.1.staged.size < Grid.blockSize
  settle : p.1.settle = some (d.cacheName (World.cellar 0) name)
  location : p.1.location = d.location name

theorem Filling.stage_ends (h : Filling pool sh d name got (w, s))
    (hroom : w.staged.size + data.size ≤ Grid.blockSize) :
    Ends (stage (Output.plainSink World.sink) data) (w, s)
      (fun _ p => Filling pool sh d name (got ++ data) p ∧ p.1.staged.size =
        if w.staged.size + data.size = Grid.blockSize then 0 else w.staged.size + data.size)
      (fun _ _ => ¬sh.calm = true) := by
  obtain ⟨hpouring, _, hsettle, hlocation⟩ := h
  have hstaged := hpouring.staged hroom
  simp only [stage, ends_bind, ends_modifyWriter, ends_get, ByteArray.size_append]
  by_cases hfull : w.staged.size + data.size = Grid.blockSize
  · simp only [hfull, if_true, ends_bind]
    refine hstaged.pass.imp ?_ fun _ _ => id
    intro _ p hpassed
    obtain ⟨w', s'⟩ := p
    obtain ⟨⟨⟨o, hbelow, hgathers, hstaging, hgot⟩, hshelf, hhonest⟩, below, rfl⟩ := hpassed
    have hflushed : (w.staged ++ data).size = Grid.blockSize := ByteArray.size_append.trans hfull
    rw [ends_modifyWriter]
    refine ⟨⟨⟨⟨o, hbelow, hgathers, hstaging.advanced hflushed, ?_⟩, hshelf, hhonest⟩,
      Grid.blockSize_pos, hsettle, hlocation⟩, rfl⟩
    simp only [unhanded, hflushed, Nat.sub_self, Bytes.slice_zero] at hgot ⊢
    exact hgot
  · simp only [hfull, if_false, ends_pure]
    refine ⟨⟨hstaged, ?_, hsettle, hlocation⟩, ByteArray.size_append⟩
    rw [ByteArray.size_append]
    omega

theorem Filling.write_ends (h : Filling pool sh d name got p) (data : Bytes) :
    Ends (write (Output.plainSink World.sink) data) p
      (fun _ => Filling pool sh d name (got ++ data)) (fun _ _ => ¬sh.calm = true) := by
  obtain ⟨w, s⟩ := p
  have hopen : w.settle.isSome = true := by
    have hsettle : w.settle = some _ := h.settle
    rw [hsettle, Option.isSome_some]
  exact ends_write (fun _ _ _ _ hw hroom => hw.stage_ends hroom) h hopen h.room data

-- The close hands on the rest and finds the file under its new stamp.
theorem Filling.close_ends (h : Filling pool sh d name got p) :
    Ends (close (Output.plainSink World.sink)) p
      (fun _ q => ∃ sh', q.2.store.shelf 0 = some sh' ∧ sh'.calm = sh.calm ∧
        sh'.files[name]?.map (·.data) = some got)
      (fun _ _ => ¬sh.calm = true) := by
  obtain ⟨w, s⟩ := p
  obtain ⟨h, _, hsettle, hlocation⟩ := h
  rw [ends_close hsettle]
  simp only [finish, ends_bind]
  have hclosing : Pouring pool sh name got (closing (w, s)) := by
    obtain ⟨⟨o, hbelow, hgathers, hstaging, hgot⟩, hshelf, hhonest⟩ := h
    exact ⟨⟨o, hbelow, hgathers, ⟨hstaging.aligned, hstaging.flushed_le, hstaging.staged_le,
      hstaging.size, hstaging.handed⟩, hgot⟩, hshelf, hhonest⟩
  refine hclosing.pass.imp ?_ fun _ _ => id
  intro _ q hpassed
  obtain ⟨w', s'⟩ := q
  obtain ⟨⟨⟨o, hbelow, hgathers, hstaging, hgot⟩, hshelf, hhonest⟩, below, hw⟩ := hpassed
  dsimp only at hw
  subst hw
  obtain rfl : below = .memory 0 o := hbelow
  simp only [unhanded, Nat.sub_self, Bytes.slice_zero, ByteArray.append_empty] at hgot
  subst hgot
  rw [ends_onBelow, Output.ends_plainSink_close]
  refine (World.close_gathered hshelf hgathers.opened).imp ?_ fun _ _ => id
  intro _ q hclosed
  obtain ⟨below', store⟩ := q
  obtain ⟨hshelf', _⟩ := hclosed
  obtain ⟨hcalm, hfile⟩ := hgathers.flushed
  have hs : OnShelf 0 s'.tier (sh.flush o) { s' with store } := ⟨rfl, hshelf'⟩
  simp only [settling, ends_bind, ends_onPart, ends_attempt]
  refine (hs.cacheName_ends d name).imp ?_ ?_
  · intro final s'' hnamed
    obtain ⟨⟨htier, hshelf''⟩, file, _, rfl⟩ := hnamed
    have hne : w.location ≠ d.version name file.stamp := by
      have hlocation : w.location = d.location name := hlocation
      rw [hlocation]
      exact (Directory.apart_self name).location_ne_version
    simp only [settleName, ends_onTier, htier]
    have hrenamed : Ends (Tier.rename w.location (d.version name file.stamp)) s'.tier
        (fun _ t => t.Honest pool fun _ _ => False) (fun _ _ => False) :=
      Tier.rename_ends hhonest hne fun _ _ => False.elim
    exact hrenamed.imp (fun _ _ _ => ⟨_, hshelf'', hcalm, hfile⟩) fun _ _ => False.elim
  · intro e s'' hfailed
    obtain ⟨_, hmissing⟩ := hfailed
    have hrefused : ¬sh.calm = true := by
      intro hsh
      obtain ⟨hnone, _⟩ := hmissing (hcalm.trans hsh)
      rw [hnone, Option.map_none] at hfile
      cases hfile
    cases e with
    | error e =>
      simp only [settleName, ends_bind, ends_onTier, ends_fail]
      exact .always (fun _ _ => hrefused) fun _ _ => hrefused
    | breach b => exact hrefused

end CachedWriter

end Blockwise
