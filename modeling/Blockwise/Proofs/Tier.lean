import Blockwise.Proofs.FileCache
import Blockwise.Proofs.ScratchPool
import Blockwise.Tier

namespace Blockwise

namespace Tier

open Act

variable {t t' : Tier} {pool : Nat} {claims claims' : String → Bytes → Prop}
  {name source dest : String} {block offset len : Nat} {data bytes : Bytes}

def byteAt (t : Tier) (name : String) (block i : Nat) : Option UInt8 :=
  t.files.bind fun c => c.byteAt name block i

-- One block of a name against a file.
def Shows (t : Tier) (name : String) (data : Bytes) (block : Nat) : Prop :=
  ∀ i < Grid.blockSize, ∀ x y, t.byteAt name block i = some x →
    data[Grid.start block + i]? = some y → x = y

def Sound (t : Tier) : Prop := ∀ c, t.files = some c → c.Sound

-- The pool is there, and all pools are sound.
structure Stocked (t : Tier) (pool : Nat) : Prop where
  pool : pool < t.pools.size
  sound : ∀ p ∈ t.pools, p.Sound

theorem Stocked.of_pools (h : t.Stocked pool) (hpools : t'.pools = t.pools) : t'.Stocked pool :=
  ⟨hpools ▸ h.pool, hpools ▸ h.sound⟩

-- A claim gives a name the bytes of a whole file. It holds as long as no cached byte contradicts
-- the file, so that it survives evictions and says nothing past the end.
structure Honest (t : Tier) (pool : Nat) (claims : String → Bytes → Prop) : Prop where
  sound : t.Sound
  stocked : t.Stocked pool
  shows : ∀ name data, claims name data → ∀ block, t.Shows name data block

theorem Honest.mono (h : t.Honest pool claims)
    (himp : ∀ name data, claims' name data → claims name data) : t.Honest pool claims' :=
  ⟨h.sound, h.stocked, fun name data hclaim => h.shows name data (himp name data hclaim)⟩

-- Nothing that is cached contradicts an empty file.
theorem Honest.of_empty (h : t.Honest pool claims)
    (himp : ∀ name data, claims' name data → data = ByteArray.empty ∨ claims name data) :
    t.Honest pool claims' := by
  refine ⟨h.sound, h.stocked, fun name data hclaim block => ?_⟩
  rcases himp name data hclaim with rfl | hclaim
  · intro i _ x y _ hy
    rw [Bytes.getElem?_empty] at hy
    cases hy
  · exact h.shows name data hclaim block

theorem byteAt_of_files (hfiles : t'.files = t.files) : t'.byteAt = t.byteAt := by
  funext name block i
  rw [byteAt, byteAt, hfiles]

theorem shows_of_byteAt (hbytes : t'.byteAt name = t.byteAt name) (h : t.Shows name data block) :
    t'.Shows name data block := by
  intro i hi x y hx
  rw [hbytes] at hx
  exact h i hi x y hx

-- Calls and counters have no part in what is shown.
theorem Honest.of_files (h : t.Honest pool claims)
    (hsame : (t'.files, t'.pools) = (t.files, t.pools)) : t'.Honest pool claims := by
  obtain ⟨hfiles, hpools⟩ := Prod.mk.inj hsame
  refine ⟨fun c hc => h.sound c (hfiles ▸ hc), h.stocked.of_pools hpools, ?_⟩
  exact fun name data hclaim block =>
    shows_of_byteAt (congrFun (byteAt_of_files hfiles) name) (h.shows name data hclaim block)

-- Scratch buffers have none either.
theorem Honest.of_pools (h : t.Honest pool claims) (hfiles : t'.files = t.files)
    (hstocked : t'.Stocked pool) : t'.Honest pool claims :=
  ⟨fun c hc => h.sound c (hfiles ▸ hc), hstocked, fun name data hclaim block =>
    shows_of_byteAt (congrFun (byteAt_of_files hfiles) name) (h.shows name data hclaim block)⟩

-- What is claimed stays true as long as the same is shown.
theorem Honest.of_byteAt (h : t.Honest pool claims) (hsound : t'.Sound) (hpools : t'.pools = t.pools)
    (hbytes : t'.byteAt = t.byteAt) : t'.Honest pool claims :=
  ⟨hsound, h.stocked.of_pools hpools, fun name data hclaim block =>
    shows_of_byteAt (congrFun hbytes name) (h.shows name data hclaim block)⟩

theorem shows_of_none (h : ∀ i, t.byteAt name block i = none) : t.Shows name data block := by
  intro i _ x y hx
  rw [h i] at hx
  cases hx

-- A cache that has just been made shows nothing.
theorem Honest.of_sizing {sizing : Sizing} {memory : Memory} {c : FileCache}
    (h : FileCache.ofSizing sizing memory = .ok c) (hfiles : t.files = some c)
    (hstocked : t.Stocked pool) : t.Honest pool claims := by
  obtain ⟨hsound, hnone⟩ := FileCache.ofSizing_sound h
  refine ⟨fun c' hc' => ?_, hstocked, fun name data _ block => shows_of_none fun i => ?_⟩
  · exact Option.some.inj (hfiles.symm.trans hc') ▸ hsound
  · rw [byteAt, hfiles]
    exact hnone name block i

theorem byteAt_of_some {c : FileCache} (hfiles : t.files = some c) : t.byteAt = c.byteAt := by
  funext name block i
  rw [byteAt, hfiles, Option.bind_some]

theorem byteAt_of_none (hfiles : t.files = none) (name : String) (block i : Nat) :
    t.byteAt name block i = none := by
  rw [byteAt, hfiles, Option.bind_none]

@[simp] theorem ends_note {call : CacheCall} {done : Unit → Tier → Prop}
    {failed : Failure → Tier → Prop} :
    Ends (note call) t done failed ↔ done () { t with journal := t.journal.push call } := Iff.rfl

theorem ends_onFiles {α : Type} {c : FileCache} (hc : t.files = some c) {absent : α} {x : FileCache.Run α}
    {done : α → Tier → Prop} {failed : Failure → Tier → Prop} :
    Ends (onFiles absent x) t done failed ↔ Ends x ⟨c, t.tally⟩
      (fun a m => done a { t with files := some m.part, tally := m.tally })
      (fun b m => failed (.breach b) { t with files := some m.part, tally := m.tally }) := by
  simp only [Ends, onFiles, hc]
  cases x ⟨c, t.tally⟩ <;> rfl

-- A call of the file cache by what is shown after it; without one, nothing is shown or changed.
-- The call may have been noted before.
theorem onFiles_ends {α : Type} {absent : α} {x : FileCache.Run α}
    (done : α → (String → Nat → Nat → Option UInt8) → Prop)
    (failed : (String → Nat → Nat → Option UInt8) → Prop) (hsound : t.Sound)
    (hsame : (t'.files, t'.pools) = (t.files, t.pools))
    (hnone : (∀ name block i, t.byteAt name block i = none) → done absent t.byteAt)
    (hsome : ∀ c tally, c.Sound → t.byteAt = c.byteAt → Ends x ⟨c, tally⟩
      (fun a m => m.part.Sound ∧ done a m.part.byteAt)
      (fun _ m => m.part.Sound ∧ failed m.part.byteAt)) :
    Ends (onFiles absent x) t' (fun a t' => t'.Sound ∧ t'.pools = t.pools ∧ done a t'.byteAt)
      (fun _ t' => t'.Sound ∧ t'.pools = t.pools ∧ failed t'.byteAt) := by
  obtain ⟨hsame, hpools⟩ := Prod.mk.inj hsame
  have hkeep (c : FileCache) (tally : Tally) (hc : c.Sound) :
      ({ t' with files := some c, tally } : Tier).Sound := by
    intro c' hc'
    cases hc'
    exact hc
  cases hfiles : t.files with
  | none =>
    have hdone := hnone (byteAt_of_none hfiles)
    rw [← byteAt_of_files hsame] at hdone
    simp only [Ends, onFiles, hsame, hfiles]
    exact ⟨fun c hc => hsound c (hsame ▸ hc), hpools, hdone⟩
  | some c =>
    have hx := hsome c t'.tally (hsound c hfiles) (byteAt_of_some hfiles)
    simp only [Ends, onFiles, hsame, hfiles] at hx ⊢
    cases hrun : x ⟨c, t'.tally⟩ with
    | ok a m =>
      rw [hrun] at hx
      exact ⟨hkeep m.part m.tally hx.1, hpools, hx.2⟩
    | error b m =>
      rw [hrun] at hx
      exact ⟨hkeep m.part m.tally hx.1, hpools, hx.2⟩

-- Only a fetch that reaches past its block can fail.
theorem fetch_ends (h : t.Honest pool claims) (name : String) (block offset len : Nat) :
    Ends (fetch name block offset len) t
      (fun found t' => t'.Honest pool claims ∧ ∀ bytes, found = some bytes → bytes.size = len ∧
        ∀ i < len, bytes[i]? = t.byteAt name block (offset + i))
      (fun _ t' => t'.Honest pool claims ∧ Grid.blockSize < offset + len) := by
  simp only [fetch, ends_bind, ends_note, ends_pure]
  refine (onFiles_ends (fun found shown => shown = t.byteAt ∧ ∀ bytes, found = some bytes →
    bytes.size = len ∧ ∀ i < len, bytes[i]? = t.byteAt name block (offset + i))
    (fun shown => shown = t.byteAt ∧ Grid.blockSize < offset + len) h.sound (by rfl) ?_ ?_).imp ?_ ?_
  · intro _
    exact ⟨rfl, by simp⟩
  · intro c tally hc hsame
    rw [hsame]
    refine (FileCache.fetch_ends (m := ⟨c, tally⟩) hc name block offset len).imp (fun _ _ => id) ?_
    intro _ m hfailed
    obtain ⟨hs, hbytes, hlong⟩ := hfailed
    exact ⟨hs, hbytes, Nat.lt_of_le_of_lt hc.gridded hlong⟩
  · intro found t' hfetched
    obtain ⟨hsound, hpools, hbytes, hfound⟩ := hfetched
    exact ⟨h.of_byteAt hsound hpools hbytes, hfound⟩
  · intro _ t' hfailed
    obtain ⟨hsound, hpools, hbytes, hlong⟩ := hfailed
    exact ⟨h.of_byteAt hsound hpools hbytes, hlong⟩

-- An update replaces a whole block, so the block need not have been right before.
theorem update_shown (hsound : t.Sound)
    (hshows : ∀ name' data, claims name' data → ∀ block', ¬(name' = name ∧ block' = block) →
      t.Shows name' data block')
    (hcover : ∀ data, claims name data → ∀ i < Grid.blockSize, ∀ y,
      data[Grid.start block + i]? = some y → bytes[i]? = some y) :
    Ends (update name block 0 bytes) t
      (fun _ t' => t'.Sound ∧ t'.pools = t.pools ∧
        ∀ name data, claims name data → ∀ block, t'.Shows name data block)
      (fun _ t' => t'.Sound ∧ t'.pools = t.pools ∧ Grid.blockSize < bytes.size ∧
        t'.byteAt = t.byteAt) := by
  simp only [update, ends_bind, ends_note]
  refine onFiles_ends (fun _ shown => ∀ name' data, claims name' data → ∀ block', ∀ i < Grid.blockSize,
    ∀ x y, shown name' block' i = some x → data[Grid.start block' + i]? = some y → x = y)
    (fun shown => Grid.blockSize < bytes.size ∧ shown = t.byteAt) hsound (by rfl) ?_ ?_
  · intro hnone name' data _ block' i _ x y hx
    rw [hnone] at hx
    cases hx
  · intro c tally hc hsame
    refine (FileCache.update_ends (m := ⟨c, tally⟩) hc name block 0 bytes).imp ?_ ?_
    · intro _ m hupdated
      obtain ⟨hs, _, hupdated⟩ := hupdated
      refine ⟨hs, fun name' data hclaim block' i hi x y hx hy => ?_⟩
      by_cases hblock : name' = name ∧ block' = block
      · obtain ⟨rfl, rfl⟩ := hblock
        have hbyte := hcover data hclaim i hi y hy
        have hlt : i < bytes.size := (getElem?_eq_some_iff.mp hbyte).1
        have hwritten := hupdated.written i (Nat.zero_le i) (by omega) x hx
        rw [Nat.sub_zero, hbyte] at hwritten
        exact (Option.some.inj hwritten).symm
      · have hkept := hupdated.kept name' block' i hi (fun h => hblock ⟨h.1, h.2.1⟩) x hx
        rcases hkept with hold | ⟨hname, hblock', _⟩
        · exact hshows name' data hclaim block' hblock i hi x y (hsame ▸ hold) hy
        · exact absurd ⟨hname, hblock'⟩ hblock
    · intro b m hfailed
      obtain ⟨hs, hlong, hbytes⟩ := hfailed
      have hgrid := hc.gridded
      have hlong : c.engine.blockSize < 0 + bytes.size := hlong
      exact ⟨hs, by omega, hbytes.trans hsame.symm⟩

theorem update_ends (hsound : t.Sound) (hstocked : t.Stocked pool)
    (hshows : ∀ name' data, claims name' data → ∀ block', ¬(name' = name ∧ block' = block) →
      t.Shows name' data block')
    (hcover : ∀ data, claims name data → ∀ i < Grid.blockSize, ∀ y,
      data[Grid.start block + i]? = some y → bytes[i]? = some y) :
    Ends (update name block 0 bytes) t (fun _ t' => t'.Honest pool claims)
      (fun _ t' => Grid.blockSize < bytes.size ∧ t'.Sound ∧ t'.pools = t.pools ∧
        t'.byteAt = t.byteAt) := by
  refine (update_shown hsound hshows hcover).imp ?_ ?_
  · intro _ t' hupdated
    obtain ⟨hsound', hpools, hshown⟩ := hupdated
    exact ⟨hsound', hstocked.of_pools hpools, hshown⟩
  · intro _ t' hfailed
    obtain ⟨hsound', hpools, hlong, hbytes⟩ := hfailed
    exact ⟨hlong, hsound', hpools, hbytes⟩

theorem delete_ends (h : t.Honest pool claims) (name : String) :
    Ends (delete name) t
      (fun _ t' => t'.Honest pool claims ∧ ∀ block i, t'.byteAt name block i = none)
      (fun _ _ => False) := by
  simp only [delete, ends_bind, ends_note]
  refine (onFiles_ends (fun _ shown => (∀ block i, shown name block i = none) ∧
    ∀ name' ≠ name, shown name' = t.byteAt name') (fun _ => False) h.sound (by rfl) ?_ ?_).imp ?_
    fun _ _ hfailed => hfailed.2.2
  · intro hnone
    exact ⟨fun block i => hnone name block i, fun _ _ => rfl⟩
  · intro c tally hc hsame
    rw [hsame]
    exact (FileCache.delete_ends (m := ⟨c, tally⟩) hc name).imp (fun _ _ => id)
      fun _ _ => False.elim
  · intro _ t' hdeleted
    obtain ⟨hsound, hpools, hgone, hother⟩ := hdeleted
    refine ⟨⟨hsound, h.stocked.of_pools hpools,
      fun name' data hclaim block => ?_⟩, hgone⟩
    by_cases hname : name' = name
    · subst hname
      exact shows_of_none (hgone block)
    · exact shows_of_byteAt (hother name' hname) (h.shows name' data hclaim block)

-- What was claimed of both names is true of the second one, and of the first one anything is.
theorem rename_ends (h : t.Honest pool claims) (hne : source ≠ dest)
    (hclaims : ∀ name data, claims' name data → name = source ∨
      claims name data ∧ (name = dest → claims source data)) :
    Ends (rename source dest) t (fun _ t' => t'.Honest pool claims') (fun _ _ => False) := by
  simp only [rename, ends_bind, ends_note]
  refine (onFiles_ends (fun _ shown => (∀ block i, shown source block i = none) ∧
    ∀ name ≠ source, shown name = t.byteAt name ∨ name = dest ∧ shown name = t.byteAt source)
    (fun _ => False) h.sound (by rfl) ?_ ?_).imp ?_ fun _ _ hfailed => hfailed.2.2
  · intro hnone
    exact ⟨hnone source, fun _ _ => .inl rfl⟩
  · intro c tally hc hsame
    rw [hsame]
    refine (FileCache.rename_ends (m := ⟨c, tally⟩) hc source dest).imp ?_ fun _ _ => False.elim
    intro _ m hrenamed
    by_cases hmapped : c.names[source]?.isSome = true
    · rw [if_pos hmapped] at hrenamed
      refine ⟨hrenamed.sound, hrenamed.gone hne, fun name hsource => ?_⟩
      by_cases hname : name = dest
      · subst hname
        exact .inr ⟨rfl, hrenamed.moved⟩
      · exact .inl (hrenamed.other name hsource hname)
    · rw [if_neg hmapped] at hrenamed
      subst hrenamed
      exact ⟨hc, FileCache.byteAt_of_unnamed (Option.not_isSome_iff_eq_none.mp hmapped),
        fun _ _ => .inl rfl⟩
  · intro _ t' hrenamed
    obtain ⟨hsound, hpools, hgone, hother⟩ := hrenamed
    refine ⟨hsound, h.stocked.of_pools hpools,
      fun name data hclaim block => ?_⟩
    by_cases hsource : name = source
    · subst hsource
      exact shows_of_none (hgone block)
    obtain ⟨hold, hdest⟩ := (hclaims name data hclaim).resolve_left hsource
    rcases hother name hsource with hsame | ⟨hname, hmoved⟩
    · exact shows_of_byteAt hsame (h.shows name data hold block)
    · intro i hi x y hx
      rw [hmoved] at hx
      exact h.shows source data (hdest hname) block i hi x y hx

-- Every pool up to the one that is known to be there gives a buffer of any size that is asked for.
theorem borrow_ends {owner : Nat} (h : t.Honest pool claims) (howner : owner ≤ pool) (size : Nat) :
    Ends (borrow owner size) t (fun buffer t' => t'.Honest pool claims ∧ buffer.size = size)
      (fun _ _ => False) := by
  have hlt := Nat.lt_of_le_of_lt howner h.stocked.pool
  have hget : t.pools[owner]? = some t.pools[owner] := Array.getElem?_eq_getElem hlt
  have htaken := (h.stocked.sound _ (Array.getElem_mem hlt)).take size
  simp only [Ends, borrow, hget]
  refine ⟨h.of_pools rfl ⟨?_, fun p hp => ?_⟩, htaken.1⟩
  · exact Array.size_setIfInBounds.symm ▸ h.stocked.pool
  · rcases Array.mem_or_eq_of_mem_setIfInBounds hp with hp | rfl
    · exact h.stocked.sound p hp
    · exact htaken.2

theorem Honest.giveBack (h : t.Honest pool claims) (owner : Nat) (buffer : Bytes) :
    Honest { t with pools := t.pools.modify owner (·.put buffer) } pool claims := by
  refine h.of_pools rfl ⟨Array.size_modify.symm ▸ h.stocked.pool, fun p hp => ?_⟩
  obtain ⟨i, hi, rfl⟩ := Array.mem_iff_getElem.mp hp
  rw [Array.getElem_modify]
  have hlt : i < t.pools.size := by simpa using hi
  split
  · exact (h.stocked.sound _ (Array.getElem_mem hlt)).put buffer
  · exact h.stocked.sound _ (Array.getElem_mem hlt)

@[simp] theorem ends_giveBack {pool : Nat} {buffer : Bytes} {done : Unit → Tier → Prop}
    {failed : Failure → Tier → Prop} :
    Ends (giveBack pool buffer) t done failed ↔
      done () { t with pools := t.pools.modify pool (·.put buffer) } := Iff.rfl

end Tier

end Blockwise
