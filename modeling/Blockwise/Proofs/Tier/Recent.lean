import Blockwise.Proofs.FileCache.Recent
import Blockwise.Proofs.Tier.Safety

namespace Blockwise

open Act

-- A fetch that was answered from the cache.
def CacheCall.IsHit : CacheCall → Prop
  | .fetch _ _ _ _ hit => hit = true
  | .update _ _ _ _ | .delete _ | .rename _ _ => False

namespace Tier

variable {α : Type} {pools : Nat} {t t' : Tier} {c : FileCache} {name source dest : String}
  {block offset len capacity size : Nat} {blocks : List Nat} {data : Bytes}

-- A sound cache of so many blocks, and the blocks of a name that were used last in it.
def Recent (capacity : Nat) (name : String) (blocks : List Nat) (t : Tier) : Prop :=
  ∃ c, t.files = some c ∧ c.Sound ∧ c.engine.capacity = capacity ∧ c.Recent name blocks

-- The block is cached.
def Holds (name : String) (block : Nat) (t : Tier) : Prop :=
  ∃ c, t.files = some c ∧ c.Sound ∧ c.Holds name block

-- A block that is cached has a byte at every offset, and what it shows of a file are the bytes of the file.
theorem Holds.byteAt_eq (h : t.Holds name block) (hshows : t.Shows name data block) {i : Nat}
    (hi : i < Grid.blockSize) (hin : Grid.start block + i < data.size) :
    t.byteAt name block i = data[Grid.start block + i]? := by
  obtain ⟨c, hc, _, file, hfile, hmem⟩ := h
  obtain ⟨n, hn⟩ := Recency.mem_keys_iff.mp hmem
  have hbyte : t.byteAt name block i = some (c.engine.spotByte n i) := by
    rw [byteAt_of_some hc, FileCache.byteAt, hfile, Option.bind_some, Engine.byteAt_of_peek hn]
  rw [hbyte, getElem?_pos data (Grid.start block + i) hin]
  exact congrArg some (hshows i hi _ _ hbyte (getElem?_pos data _ hin))

theorem Recent.of_files (h : t.Recent capacity name blocks) (hfiles : t'.files = t.files) :
    t'.Recent capacity name blocks := by
  rwa [Recent, hfiles]

theorem Recent.holds (h : t.Recent capacity name blocks) (hblock : block ∈ blocks) :
    t.Holds name block := by
  obtain ⟨c, hc, hsound, _, hrecent⟩ := h
  exact ⟨c, hc, hsound, hrecent.holds hblock⟩

theorem Intact.recent_nil (h : t.Intact pools (some (capacity, size))) (name : String) :
    t.Recent capacity name [] := by
  obtain ⟨c, hc, hlayout⟩ := Option.map_eq_some_iff.mp h.layout
  exact ⟨c, hc, h.sound c hc, congrArg Prod.fst hlayout, c.recent_nil name⟩

-- A fetch puts the block in front if it finds it, and moves nothing else.
theorem fetch_recent (h : t.Recent capacity name blocks) (hfits : offset + len ≤ Grid.blockSize) :
    Ends (fetch name block offset len) t
      (fun found t' => t'.Recent capacity name
        (if found.isSome then FileCache.use block blocks else blocks))
      (fun _ _ => False) := by
  obtain ⟨c, hc, hsound, hcapacity, hrecent⟩ := h
  simp only [fetch, ends_bind, ends_note, ends_pure]
  rw [ends_onFiles hc]
  refine (FileCache.fetch_found (m := ⟨c, t.tally⟩) hsound name block offset len).imp ?_ ?_
  · intro found m hdone
    rcases hdone with ⟨hfound, _, bytes, rfl, _⟩ | ⟨_, hsame, rfl⟩
    · obtain ⟨hsound', hlayout⟩ := hfound.kept hsound
      have hcapacity' : m.part.engine.capacity = capacity :=
        (congrArg Prod.fst hlayout).trans hcapacity
      exact ⟨m.part, rfl, hsound', hcapacity', hrecent.found hfound⟩
    · rw [hsame]
      exact ⟨c, rfl, hsound, hcapacity, hrecent⟩
  · intro _ m hfailed
    have hgridded := hsound.gridded
    have hlong : c.engine.blockSize < offset + len := hfailed.2
    omega

-- A block that is cached is found, and all that are cached stay so.
theorem fetch_held (h : t.Holds name block) (hfits : offset + len ≤ Grid.blockSize) :
    Ends (fetch name block offset len) t
      (fun found t' => (∃ bytes, found = some bytes) ∧
        t'.journal = t.journal.push (.fetch name block offset len true) ∧
          ∀ other n, t.Holds other n → t'.Holds other n)
      (fun _ _ => False) := by
  obtain ⟨c, hc, hsound, hholds⟩ := h
  simp only [fetch, ends_bind, ends_note, ends_pure]
  rw [ends_onFiles hc]
  refine (FileCache.fetch_found (m := ⟨c, t.tally⟩) hsound name block offset len).imp ?_ ?_
  · intro found m hdone
    rcases hdone with ⟨hfound, _, bytes, rfl, _⟩ | ⟨habsent, _⟩
    · refine ⟨⟨bytes, rfl⟩, rfl, fun other n hother => ?_⟩
      obtain ⟨c', hc', _, hother⟩ := hother
      obtain rfl := Option.some.inj (hc.symm.trans hc')
      exact ⟨m.part, rfl, (hfound.kept hsound).1, hother.found hfound⟩
    · exact absurd hholds habsent
  · intro _ m hfailed
    have hgridded := hsound.gridded
    have hlong : c.engine.blockSize < offset + len := hfailed.2
    omega

theorem update_recent (h : t.Recent capacity name blocks)
    (hfew : (FileCache.use block blocks).length ≤ capacity) :
    Ends (update name block offset data) t
      (fun _ t' => t'.Recent capacity name (FileCache.use block blocks))
      (fun _ _ => Grid.blockSize < offset + data.size) := by
  obtain ⟨c, hc, hsound, rfl, hrecent⟩ := h
  simp only [update, ends_bind, ends_note]
  have hnoted : Tier.files
      { t with journal := t.journal.push (.update name block offset data) } = some c := hc
  rw [ends_onFiles hnoted]
  refine (FileCache.update_filed (m := ⟨c, t.tally⟩) hsound name block offset data).imp ?_ ?_
  · intro _ m hdone
    obtain ⟨file, hfiled⟩ := hdone
    obtain ⟨hsound', hlayout⟩ := hfiled.kept
    exact ⟨m.part, rfl, hsound', congrArg Prod.fst hlayout, hrecent.filed hfiled hfew⟩
  · intro _ m hfailed
    have hlong : c.engine.blockSize < offset + data.size := hfailed.1
    exact Nat.lt_of_le_of_lt hsound.gridded hlong

theorem rename_recent (h : t.Recent capacity source blocks) (dest : String) :
    Ends (rename source dest) t (fun _ t' => t'.Recent capacity dest blocks) (fun _ _ => False) := by
  obtain ⟨c, hc, hsound, rfl, hrecent⟩ := h
  simp only [rename, ends_bind, ends_note]
  have hnoted : Tier.files { t with journal := t.journal.push (.rename source dest) } = some c := hc
  rw [ends_onFiles hnoted]
  refine ((FileCache.rename_kept (m := ⟨c, t.tally⟩) hsound source dest).and
    (hrecent.renamed hsound t.tally dest)).imp ?_ fun _ _ h => h.1
  intro _ m hdone
  obtain ⟨⟨hsound', hlayout⟩, hrenamed⟩ := hdone
  exact ⟨m.part, rfl, hsound', congrArg Prod.fst hlayout, hrenamed⟩

end Tier

end Blockwise
