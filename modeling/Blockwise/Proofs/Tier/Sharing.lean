import Blockwise.Proofs.FileCache
import Blockwise.Proofs.Matching
import Blockwise.Proofs.ScratchPool
import Blockwise.Tier
import Mathlib.Tactic.Common

namespace Blockwise

open Act

namespace ScratchPool

variable {q : ScratchPool} {a : Nat} {buffer : Bytes}

-- A pool that has made so many block buffers, at most one, and has them all.
structure Holding (a : Nat) (q : ScratchPool) : Prop where
  small : q.small = []
  length : q.block.length = a
  sizes : ∀ b ∈ q.block, b.size = blockSize
  allocations : q.allocations = a
  depth_pos : 0 < q.depth
  le_one : a ≤ 1

-- A pool that has made one block buffer, which is in use.
structure Lent (q : ScratchPool) : Prop where
  small : q.small = []
  block : q.block = []
  allocations : q.allocations = 1
  depth_pos : 0 < q.depth

theorem holding_ofDepth (depth : Nat) : (ofDepth depth).Holding 0 :=
  ⟨rfl, rfl, fun _ hb => absurd hb List.not_mem_nil, rfl,
    Nat.lt_of_lt_of_le Nat.one_pos (Nat.le_max_right _ _), Nat.zero_le _⟩

-- The one buffer is taken if it is there, and made if there is none yet.
theorem Holding.take (h : q.Holding a) :
    (q.take blockSize).1.size = blockSize ∧ (q.take blockSize).2.Lent := by
  have hne : blockSize ≠ smallSize := by decide
  unfold ScratchPool.take
  rw [if_neg hne, if_pos rfl]
  cases hblock : q.block with
  | nil =>
    have hnone : a = 0 := by simpa [hblock] using h.length.symm
    refine ⟨Bytes.size_zeros _, h.small, hblock, ?_, h.depth_pos⟩
    simp [ScratchPool.allocate, h.allocations, hnone]
  | cons b rest =>
    have hlength := h.length
    have hle := h.le_one
    rw [hblock, List.length_cons] at hlength
    have hrest : rest = [] := List.length_eq_zero_iff.mp (by omega)
    refine ⟨h.sizes b (by simp [hblock]), h.small, hrest, ?_, h.depth_pos⟩
    show q.allocations = 1
    rw [h.allocations]
    omega

-- There is room for the buffer when it comes back.
theorem Lent.put (h : q.Lent) (hsize : buffer.size = blockSize) : (q.put buffer).Holding 1 := by
  have hne : blockSize ≠ smallSize := by decide
  have hput : q.put buffer = { q with block := [buffer] } := by
    simp [ScratchPool.put, hne, hsize, h.block, h.depth_pos]
  rw [hput]
  exact ⟨h.small, rfl, by simp [hsize], h.allocations, h.depth_pos, Nat.le_refl _⟩

end ScratchPool

namespace FileCache

variable {m : Metered FileCache}

-- What a call leaves is sound, whether or not the call is refused.
def Safely {α : Type} (x : Run α) : Prop :=
  ∀ m : Metered FileCache, m.part.Sound →
    Ends x m (fun _ m' => m'.part.Sound) (fun _ m' => m'.part.Sound)

theorem update_safely (name : String) (block offset : Nat) (data : Bytes) :
    Safely (update name block offset data) := fun _ hs =>
  (update_ends hs name block offset data).imp (fun _ _ h => h.1) fun _ _ h => h.1

theorem fetch_safely (name : String) (block offset len : Nat) :
    Safely (fetch name block offset len) := fun _ hs =>
  (fetch_ends hs name block offset len).imp (fun _ _ h => h.1) fun _ _ h => h.1

theorem delete_safely (name : String) : Safely (delete name) := fun _ hs =>
  (delete_ends hs name).imp (fun _ _ h => h.1) fun _ _ => False.elim

theorem rename_safely (source dest : String) : Safely (rename source dest) := by
  intro m hs
  refine (rename_ends hs source dest).imp ?_ fun _ _ => False.elim
  intro _ m' hdone
  split at hdone
  · exact hdone.sound
  · exact hdone ▸ hs

end FileCache

namespace Tier

variable {α : Type} {pool : Nat} {P P' : ScratchPool → Prop} {t t' : Tier}

-- The same files, counters and journal, and at the given place two pools of one kind.
structure Sharing (pool : Nat) (P : ScratchPool → Prop) (t t' : Tier) : Prop where
  sound : ∀ c, t.files = some c → c.Sound
  files : t'.files = t.files
  tally : t'.tally = t.tally
  journal : t'.journal = t.journal
  left : ∃ q, t.pools[pool]? = some q ∧ P q
  right : ∃ q, t'.pools[pool]? = some q ∧ P q

theorem note_matches (call : CacheCall) :
    Matches (Sharing pool P) Eq (note call) (note call) :=
  .modify fun _ _ h => ⟨h.sound, h.files, h.tally, by simp [h.journal], h.left, h.right⟩

theorem onFiles_matches (absent : α) {x : FileCache.Run α} (hx : FileCache.Safely x) :
    Matches (Sharing pool P) Eq (onFiles absent x) (onFiles absent x) := by
  intro t t' h
  unfold onFiles
  rw [h.files, h.tally]
  cases hfiles : t.files with
  | none => exact .ok rfl h
  | some c =>
    have hends := hx ⟨c, t.tally⟩ (h.sound c hfiles)
    dsimp only
    cases hrun : x ⟨c, t.tally⟩ with
    | ok a m =>
      refine .ok rfl ⟨?_, rfl, rfl, h.journal, h.left, h.right⟩
      intro c' hc'
      exact Option.some.inj hc' ▸ hends.ok hrun
    | error b m =>
      refine .error ⟨?_, rfl, rfl, h.journal, h.left, h.right⟩
      intro c' hc'
      exact Option.some.inj hc' ▸ hends.error hrun

theorem update_matches (name : String) (block offset : Nat) (data : Bytes) :
    Matches (Sharing pool P) Eq (update name block offset data) (update name block offset data) :=
  (note_matches _).bind fun _ _ _ =>
    onFiles_matches () (FileCache.update_safely name block offset data)

theorem fetch_matches (name : String) (block offset len : Nat) :
    Matches (Sharing pool P) Eq (fetch name block offset len) (fetch name block offset len) := by
  refine (onFiles_matches none (FileCache.fetch_safely name block offset len)).bind ?_
  rintro found _ rfl
  exact (note_matches _).bind fun _ _ _ => .pure rfl

theorem delete_matches (name : String) :
    Matches (Sharing pool P) Eq (delete name) (delete name) :=
  (note_matches _).bind fun _ _ _ => onFiles_matches () (FileCache.delete_safely name)

theorem rename_matches (source dest : String) :
    Matches (Sharing pool P) Eq (rename source dest) (rename source dest) :=
  (note_matches _).bind fun _ _ _ => onFiles_matches () (FileCache.rename_safely source dest)

section Buffers

variable {pool a : Nat} {t t' : Tier} {buffer buffer' : Bytes}

theorem borrow_holding {q : ScratchPool} (hq : t.pools[pool]? = some q) (h : q.Holding a) :
    ∃ b u, borrow pool Grid.blockSize t = .ok b u ∧ b.size = Grid.blockSize ∧
      (u.files, u.tally, u.journal) = (t.files, t.tally, t.journal) ∧
      ∃ q', u.pools[pool]? = some q' ∧ q'.Lent := by
  obtain ⟨hsize, hlent⟩ := h.take
  have hlt := (Array.getElem?_eq_some_iff.mp hq).1
  have hrun : borrow pool Grid.blockSize t = .ok (q.take Grid.blockSize).1
      { t with pools := t.pools.setIfInBounds pool (q.take Grid.blockSize).2 } := by
    simp only [borrow, hq]
  exact ⟨_, _, hrun, hsize, rfl, _, Array.getElem?_setIfInBounds_self_of_lt hlt, hlent⟩

-- Both hand out a block buffer, whatever it holds.
theorem borrow_sharing (h : Sharing pool (ScratchPool.Holding a) t t') :
    ∃ b b' u u', borrow pool Grid.blockSize t = .ok b u ∧ borrow pool Grid.blockSize t' = .ok b' u' ∧
      b.size = Grid.blockSize ∧ b'.size = Grid.blockSize ∧ Sharing pool ScratchPool.Lent u u' := by
  obtain ⟨q, hq, hholding⟩ := h.left
  obtain ⟨q', hq', hholding'⟩ := h.right
  obtain ⟨b, u, hrun, hsize, hsame, hleft⟩ := borrow_holding hq hholding
  obtain ⟨b', u', hrun', hsize', hsame', hright⟩ := borrow_holding hq' hholding'
  simp only [Prod.mk.injEq] at hsame hsame'
  obtain ⟨hfiles, htally, hjournal⟩ := hsame
  obtain ⟨hfiles', htally', hjournal'⟩ := hsame'
  refine ⟨b, b', u, u', hrun, hrun', hsize, hsize', fun c hc => h.sound c (hfiles ▸ hc), ?_, ?_, ?_,
    hleft, hright⟩
  · rw [hfiles, hfiles', h.files]
  · rw [htally, htally', h.tally]
  · rw [hjournal, hjournal', h.journal]

theorem giveBack_sharing (h : Sharing pool ScratchPool.Lent t t')
    (hsize : buffer.size = Grid.blockSize) (hsize' : buffer'.size = Grid.blockSize) :
    ∃ u u', giveBack pool buffer t = .ok () u ∧ giveBack pool buffer' t' = .ok () u' ∧
      Sharing pool (ScratchPool.Holding 1) u u' := by
  obtain ⟨q, hq, hlent⟩ := h.left
  obtain ⟨q', hq', hlent'⟩ := h.right
  have hget {t : Tier} {q : ScratchPool} (hq : t.pools[pool]? = some q) (b : Bytes) :
      (t.pools.modify pool (·.put b))[pool]? = some (q.put b) := by
    rw [Array.getElem?_modify, if_pos rfl, hq]
    rfl
  exact ⟨_, _, rfl, rfl, h.sound, h.files, h.tally, h.journal, ⟨_, hget hq buffer, hlent.put hsize⟩,
    ⟨_, hget hq' buffer', hlent'.put hsize'⟩⟩

-- A block of the grid is taken by any cache, so a buffer in use is never lost on the way.
theorem publish_sharing (h : Sharing pool P t t') (name : String) (block : Nat) {data : Bytes}
    (hsize : data.size = Grid.blockSize) :
    ∃ u u', update name block 0 data t = .ok () u ∧ update name block 0 data t' = .ok () u' ∧
      Sharing pool P u u' := by
  have hmet := update_matches name block 0 data t t' h
  have hends : Ends (update name block 0 data) t (fun _ _ => True) (fun _ _ => False) := by
    simp only [update, note, ends_bind, ends_modify]
    unfold Ends onFiles
    cases hfiles : t.files with
    | none => trivial
    | some c =>
      have hc := h.sound c hfiles
      have hroom := hc.gridded
      have hupdate := FileCache.update_ends (m := ⟨c, t.tally⟩) hc name block 0 data
      dsimp only
      cases hrun : FileCache.update name block 0 data ⟨c, t.tally⟩ with
      | ok a m => trivial
      | error b m =>
        have hlong := (hupdate.error hrun).2.1
        simp only at hlong
        omega
  obtain ⟨_, u, hu, _⟩ := hends.exists_ok
  rw [hu] at hmet
  generalize hrun : update name block 0 data t' = r at hmet
  cases hmet with
  | ok hrel hstate => exact ⟨_, _, hu, rfl, hstate⟩

end Buffers

end Tier

namespace Site

variable {α β : Type} {pool : Nat} {P P' : ScratchPool → Prop}

-- Tiers that share all but buffers, before the same store.
structure Sharing (pool : Nat) (P : ScratchPool → Prop) (s s' : Site β) : Prop where
  tier : Tier.Sharing pool P s.tier s'.tier
  store : s'.store = s.store

theorem onTier_matches {x : Act Tier α} (hx : Matches (Tier.Sharing pool P) Eq x x) :
    Matches (Sharing (β := β) pool P) Eq (onTier x) (onTier x) :=
  hx.onPart (fun _ _ h => h.tier) fun _ _ _ _ h ht => ⟨ht, h.store⟩

theorem onStore_matches (x : Act β α) :
    Matches (Sharing pool P) Eq (onStore x) (onStore x) := by
  refine (Matches.refl x).onPart (fun _ _ h => h.store.symm) ?_
  rintro s s' store _ h rfl
  exact ⟨h.tier, rfl⟩

end Site

end Blockwise
