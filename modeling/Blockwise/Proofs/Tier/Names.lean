import Blockwise.Proofs.Tier.Safety

namespace Blockwise

open Act

namespace Tier

variable {t : Tier} {source dest name : String}

-- The cache has no number for the name, so none of its blocks can be reached.
def Unmapped (t : Tier) (name : String) : Prop := ∀ c ∈ t.files, c.names[name]? = none

def Mapped (t : Tier) (name : String) : Prop := ∀ c ∈ t.files, c.names[name]? ≠ none

theorem Unmapped.byteAt (h : t.Unmapped name) (block i : Nat) : t.byteAt name block i = none := by
  cases hfiles : t.files with
  | none => exact byteAt_of_none hfiles name block i
  | some c =>
    rw [byteAt_of_some hfiles]
    exact FileCache.byteAt_of_unnamed (h c hfiles) block i

-- A call has been noted, and has changed the cache if there is one.
structure Stepped (call : CacheCall) (done : FileCache → FileCache → Prop) (t t' : Tier) : Prop where
  journal : t'.journal = t.journal.push call
  files : ∀ c' ∈ t'.files, ∃ c ∈ t.files, done c c'

theorem noted_ends {call : CacheCall} {x : FileCache.Run Unit} (done : FileCache → FileCache → Prop)
    (hx : ∀ c ∈ t.files, ∀ tally, Ends x ⟨c, tally⟩ (fun _ m => done c m.part) (fun _ _ => False)) :
    Ends (do note call; onFiles () x) t (fun _ => Stepped call done t) (fun _ _ => False) := by
  rw [ends_bind, ends_note]
  obtain ⟨files, tally, journal, pools⟩ := t
  cases files with
  | none => exact ⟨rfl, nofun⟩
  | some c =>
    refine (ends_onFiles rfl).mpr ((hx c rfl tally).imp ?_ fun _ _ => id)
    intro _ m hdone
    refine ⟨rfl, fun c' hc' => ⟨c, rfl, ?_⟩⟩
    exact Option.some.inj hc' ▸ hdone

theorem update_mapped (hs : t.Sound) (name : String) (block : Nat) {offset : Nat} {data : Bytes}
    (hfits : offset + data.size ≤ Grid.blockSize) :
    Ends (update name block offset data) t
      (fun _ t' => t'.journal = t.journal.push (.update name block offset data) ∧ t'.Mapped name)
      (fun _ _ => False) := by
  refine (noted_ends (fun _ c' => c'.names[name]? ≠ none) fun c hc tally => ?_).imp ?_ fun _ _ => id
  · refine (FileCache.update_filed (m := ⟨c, tally⟩) (hs c hc) name block offset data).imp ?_ ?_
    · intro _ m hdone
      obtain ⟨file, ⟨c₁, hnumbered, hpart⟩, _⟩ := hdone
      rw [hpart]
      exact Option.ne_none_iff_exists'.mpr ⟨file, hnumbered.named⟩
    · intro _ m hfailed
      exact absurd (Nat.le_trans hfits (hs c hc).gridded) (Nat.not_le.mpr hfailed.1)
  · intro _ t' h
    exact ⟨h.journal, fun c' hc' => (h.files c' hc').elim fun _ hc => hc.2⟩

theorem delete_unmapped (hs : t.Sound) (name : String) :
    Ends (delete name) t
      (fun _ t' => t'.journal = t.journal.push (.delete name) ∧ t'.Sound ∧ t'.Unmapped name ∧
        ∀ other, t.Unmapped other → t'.Unmapped other)
      (fun _ _ => False) := by
  refine (noted_ends (fun c c' => c'.Sound ∧ c'.names[name]? = none ∧
    ∀ other : String, c.names[other]? = none → c'.names[other]? = none) ?_).imp ?_ fun _ _ => id
  · intro c hc tally
    refine (FileCache.delete_dropped (m := ⟨c, tally⟩) (hs c hc) name).imp ?_ fun _ _ => id
    intro _ m hdone
    split at hdone
    · next hnone =>
      subst hdone
      exact ⟨hs c hc, hnone, fun _ => id⟩
    · refine ⟨hdone.sound, ?_, fun other hother => ?_⟩
      · rw [hdone.names, FileCache.names_unnamed, if_pos rfl]
      · rw [hdone.names, FileCache.names_unnamed, hother, ite_self]
  · intro _ t' h
    refine ⟨h.journal, fun c' hc' => ?_, fun c' hc' => ?_, fun other hother c' hc' => ?_⟩
    · exact (h.files c' hc').elim fun _ hc => hc.2.1
    · exact (h.files c' hc').elim fun _ hc => hc.2.2.1
    · obtain ⟨c, hc, _, _, hstays⟩ := h.files c' hc'
      exact hstays other (hother c hc)

-- What a file is cached as under the one name it is cached as under the other.
theorem rename_shown (hs : t.Sound) (hne : source ≠ dest) {data : Bytes}
    (hshows : ∀ block, t.Shows source data block) (hmapped : t.Mapped source ∨ data = ByteArray.empty) :
    Ends (rename source dest) t
      (fun _ t' => t'.journal = t.journal.push (.rename source dest) ∧ t'.Unmapped source ∧
        ∀ block, t'.Shows dest data block)
      (fun _ _ => False) := by
  refine (noted_ends (fun c c' => c'.names[source]? = none ∧
    (c.names[source]? ≠ none → c'.byteAt dest = c.byteAt source)) ?_).imp ?_ fun _ _ => id
  · intro c hc tally
    refine ((FileCache.rename_dropped (m := ⟨c, tally⟩) (hs c hc) source dest).and
      (FileCache.rename_ends (hs c hc) source dest)).imp ?_ fun _ _ hfailed => hfailed.1
    intro _ m hdone
    obtain ⟨hdropped, hrenamed⟩ := hdone
    cases hsource : c.names[source]? with
    | none =>
      simp only [hsource] at hdropped
      subst hdropped
      exact ⟨hsource, fun hnone => absurd rfl hnone⟩
    | some file =>
      simp only [hsource, Option.isSome_some, if_true] at hdropped hrenamed
      refine ⟨?_, fun _ => hrenamed.moved⟩
      have hgone : (c.renamed source dest file).names[source]? = none := by
        rw [FileCache.names_renamed, if_neg hne.symm, if_pos rfl]
      split at hdropped
      · exact hdropped ▸ hgone
      · exact (congrArg (·[source]?) hdropped.names).trans hgone
  · intro _ t' h
    refine ⟨h.journal, fun c' hc' => (h.files c' hc').elim fun _ hc => hc.2.1, fun block => ?_⟩
    intro i hi x y hx hy
    rcases hmapped with hmapped | rfl
    · obtain ⟨c', hc', hx'⟩ := Option.bind_eq_some_iff.mp hx
      obtain ⟨c, hc, _, hmoved⟩ := h.files c' hc'
      refine hshows block i hi x y ?_ hy
      rw [byteAt_of_some hc, ← hmoved (hmapped c hc)]
      exact hx'
    · exact absurd hy (by simp)

end Tier

end Blockwise
