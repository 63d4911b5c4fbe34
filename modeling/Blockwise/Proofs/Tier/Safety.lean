import Blockwise.Proofs.Regime
import Blockwise.Proofs.Tier

namespace Blockwise

open Act

namespace FileCache

variable {c c' : FileCache} {m m' : Metered FileCache}

-- How many blocks the cache keeps, and of what size.
def layout (c : FileCache) : Nat × Nat := (c.engine.capacity, c.engine.blockSize)

theorem layout_of_frame (h : Engine.Frame c.engine c'.engine) : c'.layout = c.layout :=
  Prod.ext h.capacity h.blockSize

-- What a call leaves that has not failed.
def Kept (c c' : FileCache) : Prop := c'.Sound ∧ c'.layout = c.layout

theorem Filed.kept {name : String} {file block offset : Nat} {data : Bytes}
    (h : Filed name file block offset data m m') : Kept m.part m'.part :=
  ⟨h.shown.1, layout_of_frame h.stored.frame⟩

theorem Found.kept {name : String} {block : Nat} (hs : c.Sound) (h : Found name block c c') :
    Kept c c' := by
  refine ⟨(h.shown hs).1, ?_⟩
  obtain ⟨file, n, e, _, hmoved, rfl, _⟩ := h
  exact layout_of_frame hmoved.frame

theorem update_kept (hs : m.part.Sound) (name : String) (block offset : Nat) (data : Bytes)
    (hfits : offset + data.size ≤ m.part.layout.2) :
    Ends (update name block offset data) m (fun _ m' => Kept m.part m'.part) (fun _ _ => False) :=
  (update_filed hs name block offset data).imp (fun _ _ ⟨_, hfiled⟩ => hfiled.kept)
    fun _ _ hfailed => absurd hfits (Nat.not_le.mpr hfailed.1)

theorem fetch_kept (hs : m.part.Sound) (name : String) (block offset len : Nat)
    (hfits : offset + len ≤ m.part.layout.2) :
    Ends (fetch name block offset len) m
      (fun found m' => Kept m.part m'.part ∧ ∀ bytes ∈ found, bytes.size = len)
      (fun _ _ => False) := by
  refine (fetch_found hs name block offset len).imp ?_
    fun _ _ hfailed => absurd hfits (Nat.not_le.mpr hfailed.2)
  intro found m' hdone
  rcases hdone with ⟨hfound, _, bytes, rfl, hsize, _⟩ | ⟨_, hsame, rfl⟩
  · exact ⟨hfound.kept hs, fun _ hbytes => Option.some.inj hbytes ▸ hsize⟩
  · rw [hsame]
    exact ⟨⟨hs, rfl⟩, nofun⟩

theorem delete_kept (hs : m.part.Sound) (name : String) :
    Ends (delete name) m (fun _ m' => Kept m.part m'.part) (fun _ _ => False) := by
  refine (delete_dropped hs name).imp ?_ fun _ _ => id
  intro _ m' hdone
  split at hdone
  · subst hdone
    exact ⟨hs, rfl⟩
  · exact ⟨hdone.sound, layout_of_frame hdone.frame⟩

theorem rename_kept (hs : m.part.Sound) (source dest : String) :
    Ends (rename source dest) m (fun _ m' => Kept m.part m'.part) (fun _ _ => False) := by
  refine (rename_dropped hs source dest).imp ?_ fun _ _ => id
  intro _ m' hdone
  split at hdone
  · subst hdone
    exact ⟨hs, rfl⟩
  · next file hsource =>
    split at hdone
    · exact hdone ▸ ⟨hs.renamed hsource dest, rfl⟩
    · exact ⟨hdone.sound, layout_of_frame hdone.frame⟩

end FileCache

namespace Tier

variable {α : Type} {pools : Nat} {shape : Option (Nat × Nat)} {t : Tier} {done : α → Prop}

def layout (t : Tier) : Option (Nat × Nat) := t.files.map (·.layout)

-- The cache is sound and of the layout given, and so many pools are there and sound.
structure Intact (pools : Nat) (shape : Option (Nat × Nat)) (t : Tier) : Prop where
  sound : t.Sound
  layout : t.layout = shape
  pools : (Regime.each pools (.only ScratchPool.Sound)).holds t.pools

abbrev regime (pools : Nat) (shape : Option (Nat × Nat)) : Regime Tier := .only (Intact pools shape)

-- The range fits a block of the engine, if there is one.
def Fits (shape : Option (Nat × Nat)) (offset len : Nat) : Prop :=
  ∀ room ∈ shape, offset + len ≤ room.2

theorem Intact.of_files {t' : Tier} (h : t.Intact pools shape)
    (hsame : (t'.files, t'.pools) = (t.files, t.pools)) : t'.Intact pools shape := by
  obtain ⟨hfiles, hpools⟩ := Prod.mk.inj hsame
  exact ⟨fun c hc => h.sound c (hfiles ▸ hc), (congrArg _ hfiles).trans h.layout, hpools ▸ h.pools⟩

-- A block of the grid fits every engine that a cache was made with.
theorem Intact.fits (h : t.Intact pools shape) {offset len : Nat}
    (hgrid : offset + len ≤ Grid.blockSize) : Fits shape offset len := by
  intro room hroom
  obtain ⟨c, hc, rfl⟩ := Option.map_eq_some_iff.mp (h.layout.trans hroom)
  exact Nat.le_trans hgrid (h.sound c hc).gridded

theorem safe_note (call : CacheCall) : Safe (regime pools shape) (note call) fun _ => True :=
  fun _ ht => ⟨⟨ht.of_files rfl, trivial⟩, trivial⟩

theorem safe_onFiles {absent : α} {x : FileCache.Run α} (habsent : done absent)
    (hx : ∀ c tally, c.Sound → shape = some c.layout →
      Ends x ⟨c, tally⟩ (fun a m => FileCache.Kept c m.part ∧ done a) (fun _ _ => False)) :
    Safe (regime pools shape) (onFiles absent x) done := by
  intro t ht
  cases hfiles : t.files with
  | none =>
    simp only [Ends, onFiles, hfiles]
    exact ⟨⟨ht, trivial⟩, habsent⟩
  | some c =>
    have hlayout : shape = some c.layout := by
      rw [← ht.layout, Tier.layout, hfiles]
      rfl
    obtain ⟨a, m, hrun, ⟨hsound, hkept⟩, hdone⟩ :=
      (hx c t.tally (ht.sound c hfiles) hlayout).exists_ok
    simp only [Ends, onFiles, hfiles, hrun]
    refine ⟨⟨⟨fun c' hc' => ?_, ?_, ht.pools⟩, trivial⟩, hdone⟩
    · obtain rfl := Option.some.inj hc'
      exact hsound
    · exact (congrArg some hkept).trans hlayout.symm

theorem safe_update (name : String) (block : Nat) {offset : Nat} {data : Bytes}
    (hfits : Fits shape offset data.size) :
    Safe (regime pools shape) (update name block offset data) fun _ => True := by
  refine (safe_note _).bind fun _ _ => safe_onFiles trivial fun c tally hc hlayout => ?_
  exact (FileCache.update_kept (m := ⟨c, tally⟩) hc name block offset data (hfits _ hlayout)).imp
    (fun _ _ h => ⟨h, trivial⟩) fun _ _ => id

theorem safe_fetch (name : String) (block : Nat) {offset len : Nat} (hfits : Fits shape offset len) :
    Safe (regime pools shape) (fetch name block offset len)
      fun found => ∀ bytes ∈ found, bytes.size = len := by
  refine (safe_onFiles nofun fun c tally hc hlayout => ?_).bind fun found hfound =>
    (safe_note _).bind fun _ _ => .pure hfound
  exact FileCache.fetch_kept (m := ⟨c, tally⟩) hc name block offset len (hfits _ hlayout)

theorem safe_delete (name : String) : Safe (regime pools shape) (delete name) fun _ => True := by
  refine (safe_note _).bind fun _ _ => safe_onFiles trivial fun c tally hc _ => ?_
  exact (FileCache.delete_kept (m := ⟨c, tally⟩) hc name).imp (fun _ _ h => ⟨h, trivial⟩)
    fun _ _ => id

theorem safe_rename (source dest : String) :
    Safe (regime pools shape) (rename source dest) fun _ => True := by
  refine (safe_note _).bind fun _ _ => safe_onFiles trivial fun c tally hc _ => ?_
  exact (FileCache.rename_kept (m := ⟨c, tally⟩) hc source dest).imp (fun _ _ h => ⟨h, trivial⟩)
    fun _ _ => id

-- The range that a step of the cache itself asks for fits a block.
def StepFits (shape : Option (Nat × Nat)) : FileCache.Step → Prop
  | .update _ _ offset data => Fits shape offset data.size
  | .fetch _ _ offset len => Fits shape offset len
  | .delete _ => True
  | .rename _ _ => True

theorem safe_step {s : FileCache.Step} (hfits : StepFits shape s) :
    Safe (regime pools shape) (step s) fun _ => True := by
  cases s with
  | update name block offset data => exact (safe_update name block hfits).bind fun _ _ => .pure trivial
  | fetch name block offset len => exact (safe_fetch name block hfits).map fun _ _ => trivial
  | delete name => exact (safe_delete name).bind fun _ _ => .pure trivial
  | rename source dest => exact (safe_rename source dest).bind fun _ _ => .pure trivial

theorem safe_borrow {pool : Nat} (hpool : pool < pools) (size : Nat) :
    Safe (regime pools shape) (borrow pool size) fun buffer => buffer.size = size := by
  intro t ht
  obtain ⟨p, hp, hsound⟩ := Regime.exists_of_lt ht.pools hpool
  obtain ⟨hsize, htaken⟩ := ScratchPool.Sound.take hsound size
  simp only [Ends, borrow, hp]
  exact ⟨⟨⟨ht.sound, ht.layout,
    (Regime.leaves_setIfInBounds ht.pools hp ⟨htaken, trivial⟩).1⟩, trivial⟩, hsize⟩

theorem safe_giveBack (pool : Nat) (buffer : Bytes) :
    Safe (regime pools shape) (giveBack pool buffer) fun _ => True := fun _ ht =>
  ⟨⟨⟨ht.sound, ht.layout, (Regime.leaves_modify ht.pools
    (fun _ hp => ⟨ScratchPool.Sound.put hp buffer, trivial⟩) pool).1⟩, trivial⟩, trivial⟩

end Tier

end Blockwise
