import Blockwise.Proofs.Stream.Safety
import Blockwise.Proofs.Tier.Recent
import Blockwise.Proofs.Volume.World

namespace Blockwise

open Act

namespace CachedWriter

variable {capacity i : Nat} {d : Directory} {name : String} {o : MemoryOutput} {sh : Shelf}
  {w : CachedWriter World.Out (Site World)} {s : Site World} {data : Bytes}
  {settle : Option (Act (Site World) String)}

-- An output without anything to publish is the file.
def Current (sh : Shelf) (name : String) (o : MemoryOutput) : Prop :=
  o.dirty = false → ∃ file, sh.files[name]? = some file ∧ file.data = o.buffer

theorem current_flush (h : Current sh o.name o) :
    ∃ file, (sh.flush o).files[o.name]? = some file ∧ file.data = o.buffer := by
  cases hdirty : o.dirty with
  | true =>
    refine ⟨⟨o.buffer, sh.clock + 1⟩, ?_, rfl⟩
    rw [Shelf.flush, if_pos hdirty, Shelf.publish, Maps.getElem?_insert, if_pos rfl]
  | false =>
    rw [Shelf.flush, if_neg (by rw [hdirty]; exact Bool.false_ne_true)]
    exact h hdirty

-- If the cache is large enough for the file so far, it has all of it.
structure Recorded (capacity i : Nat) (d : Directory) (name : String) (o : MemoryOutput)
    (w : CachedWriter World.Out (Site World)) (s : Site World) : Prop where
  below : w.below = .memory i o
  named : o.name = name
  closed : o.closed = false
  location : w.location = d.location name
  staging : w.Staging o.buffer
  current : ∃ sh, s.store.shelf i = some sh ∧ Current sh name o
  recent : Grid.count o.buffer.size ≤ capacity →
    s.tier.Recent capacity (d.location name) (FileCache.backward o.buffer.size)

-- A writer that is still to settle the final name in the way it was to.
def Recording (capacity i : Nat) (d : Directory) (name : String)
    (settle : Option (Act (Site World) String))
    (p : CachedWriter World.Out (Site World) × Site World) : Prop :=
  (∃ o, Recorded capacity i d name o p.1 p.2) ∧ p.1.settle = settle

-- A call that writes no bytes changes the store and what is left to publish, and nothing else.
theorem Recorded.withStore {store : World} (h : Recorded capacity i d name o w s) (dirty : Bool)
    (hcurrent : ∃ sh, store.shelf i = some sh ∧ Current sh name { o with dirty }) :
    Recorded capacity i d name { o with dirty } { w with below := .memory i { o with dirty } }
      { s with store } :=
  { h with
    below := rfl
    staging := h.staging.withBelow _
    current := hcurrent }

-- A file that was just created has no blocks yet.
theorem recording_create {t : Tier} (hs : OnShelf i t (sh.publish name ByteArray.empty) s)
    (hrecent : t.Recent capacity (d.location name) []) :
    Recording capacity i d name settle
      ({ below := .memory i { name }, location := d.location name, settle }, s) := by
  have hfile : (sh.publish name ByteArray.empty).files[name]? =
      some ⟨ByteArray.empty, sh.clock + 1⟩ := by
    rw [Shelf.publish, Maps.getElem?_insert, if_pos rfl]
  have hstaging : Staging (ο := World.Out) (β := World)
      { below := .memory i { name }, location := d.location name, settle } ByteArray.empty :=
    ⟨(by decide : Grid.start (Grid.block 0) = 0), Nat.le_refl _, Nat.zero_le _, rfl,
      fun i hi => absurd hi (Nat.not_lt_zero i)⟩
  refine ⟨⟨{ name }, rfl, rfl, rfl, rfl, hstaging, ⟨_, hs.shelf, fun _ => ⟨_, hfile, rfl⟩⟩, ?_⟩, rfl⟩
  intro _
  have hnone : FileCache.backward ByteArray.empty.size = [] := by decide
  show s.tier.Recent capacity (d.location name) (FileCache.backward ByteArray.empty.size)
  rw [hnone, hs.tier]
  exact hrecent

-- What is handed on of the block under way makes it the block used last.
theorem use_handed {fresh file : Bytes} (h : w.Staging file) (hnew : w.staged.size ≠ w.flushed)
    (hfresh : fresh.size = w.staged.size - w.flushed) :
    Grid.count file.size ≤ Grid.count (file ++ fresh).size ∧
      FileCache.use (Grid.block w.blockStart) (FileCache.backward file.size) =
        FileCache.backward (file ++ fresh).size := by
  have hflushed := h.flushed_le
  have hstaged := h.staged_le
  have hsize := h.size
  have haligned := h.aligned
  obtain ⟨block, hblock⟩ : ∃ block, Grid.block w.blockStart = block := ⟨_, rfl⟩
  rw [hblock] at haligned ⊢
  have hgrown : (file ++ fresh).size = Grid.start block + w.staged.size := by
    rw [ByteArray.size_append, hfresh, hsize, haligned]
    omega
  have hafter : Grid.count (file ++ fresh).size = block + 1 :=
    hgrown ▸ Grid.count_add block (by omega) hstaged
  have hbefore : Grid.count file.size = block ∨ Grid.count file.size = block + 1 := by
    rw [hsize, ← haligned]
    by_cases hnone : w.flushed = 0
    · left
      rw [hnone, Nat.add_zero, Grid.count_start]
    · right
      exact Grid.count_add block (by omega) (by omega)
  exact ⟨by omega, FileCache.use_backward hafter hbefore⟩

-- The cache is told of all that is staged, so it has what it had and what is handed on now.
theorem handed_recent {t : Tier} {fresh file : Bytes} (h : w.Staging file)
    (hnew : w.staged.size ≠ w.flushed) (hfresh : fresh.size = w.staged.size - w.flushed)
    (hrecent : Grid.count file.size ≤ capacity →
      t.Recent capacity w.location (FileCache.backward file.size)) :
    Ends (Tier.update w.location (Grid.block w.blockStart) 0 w.staged) t
      (fun _ t' => Grid.count (file ++ fresh).size ≤ capacity →
        t'.Recent capacity w.location (FileCache.backward (file ++ fresh).size))
      (fun _ t' => Grid.count (file ++ fresh).size ≤ capacity →
        t'.Recent capacity w.location (FileCache.backward (file ++ fresh).size)) := by
  obtain ⟨hmono, huse⟩ := use_handed h hnew hfresh
  by_cases hfew : Grid.count (file ++ fresh).size ≤ capacity
  · have hroom : (FileCache.use (Grid.block w.blockStart)
        (FileCache.backward file.size)).length ≤ capacity := by
      rwa [huse, FileCache.length_backward]
    refine (Tier.update_recent (hrecent (Nat.le_trans hmono hfew)) hroom).imp ?_ ?_
    · intro _ t' hupdated _
      rwa [huse] at hupdated
    · intro _ t' hlong
      have hstaged := h.staged_le
      omega
  · exact .always (fun _ _ hle => absurd hle hfew) fun _ _ hle => absurd hle hfew

theorem passStaged_recorded (h : Recorded capacity i d name o w s) :
    Ends (passStaged (Output.plainSink World.sink)) (w, s)
      (fun _ p => Recording capacity i d name w.settle p ∧ p.1.staged = w.staged ∧
        p.1.flushed = w.staged.size)
      (fun _ p => Recording capacity i d name w.settle p) := by
  have hflushed := h.staging.flushed_le
  refine ends_passStaged hflushed (fun hsame => ⟨⟨⟨o, h⟩, rfl⟩, rfl, hsame.symm⟩) fun hnew => ?_
  obtain ⟨sh, hshelf, hcurrent⟩ := h.current
  generalize hfresh : Bytes.slice w.staged w.flushed (w.staged.size - w.flushed) = fresh
  have hlength : fresh.size = w.staged.size - w.flushed := by
    rw [← hfresh, Bytes.size_slice_of_le (by omega)]
  simp only [Output.ends_plainSink_write, h.below]
  refine (World.write_ends hshelf o fresh).imp ?_ ?_
  · intro _ p hdone
    obtain ⟨below, store⟩ := p
    obtain ⟨hshelf', _, rfl⟩ := hdone
    obtain ⟨hpassed, _⟩ := h.staging.passed hfresh.symm
      (.memory i { o with buffer := o.buffer ++ fresh, dirty := true })
    have hleft (t : Tier) (ht : Grid.count (o.buffer ++ fresh).size ≤ capacity →
        t.Recent capacity w.location (FileCache.backward (o.buffer ++ fresh).size)) :
        Recording capacity i d name w.settle
          ({ w with
            below := .memory i { o with buffer := o.buffer ++ fresh, dirty := true }
            flushed := w.staged.size }, ⟨t, store⟩) :=
      ⟨⟨_, rfl, h.named, h.closed, h.location, hpassed,
        ⟨sh, hshelf', fun hclean => absurd hclean.symm Bool.false_ne_true⟩, h.location ▸ ht⟩, rfl⟩
    exact (handed_recent h.staging hnew hlength (h.location ▸ h.recent)).imp
      (fun _ t ht => ⟨hleft t ht, trivial, trivial⟩) fun _ t ht => hleft t ht
  · intro _ p hfailed
    obtain ⟨below, store⟩ := p
    obtain ⟨hshelf', rfl⟩ := hfailed
    exact ⟨⟨o, h.withStore o.dirty ⟨sh, hshelf', hcurrent⟩⟩, rfl⟩

theorem keeps_recording (capacity i : Nat) (d : Directory) (name : String)
    (settle : Option (Act (Site World) String)) :
    Keeps (Output.plainSink World.sink) (Recording capacity i d name settle) fun _ => True where
  staged_le w s hw := by
    obtain ⟨⟨o, ho⟩, _⟩ := hw
    exact ho.staging.staged_le
  stage w s data hw hroom := by
    obtain ⟨⟨o, ho⟩, hsettle⟩ := hw
    exact ⟨⟨o, { ho with staging := ho.staging.staged hroom }⟩, hsettle⟩
  pass w s hw := by
    obtain ⟨⟨o, ho⟩, rfl⟩ := hw
    exact (passStaged_recorded ho).imp (fun _ _ => id) fun _ _ hfailed => ⟨hfailed, trivial⟩
  advance w s hw _ hfull := by
    obtain ⟨⟨o, ho⟩, hsettle⟩ := hw
    exact ⟨⟨o, { ho with staging := ho.staging.advanced hfull }⟩, hsettle⟩
  refused _ := trivial

theorem write_recording (h : Recording capacity i d name settle (w, s)) (data : Bytes) :
    Ends (write (Output.plainSink World.sink) data) (w, s)
      (fun _ => Recording capacity i d name settle) (fun _ => Recording capacity i d name settle) :=
  ((keeps_recording capacity i d name settle).write_ends h data).imp (fun _ _ => id)
    fun _ _ hfailed => hfailed.1

theorem flush_recording (h : Recording capacity i d name settle (w, s)) :
    Ends (flush (Output.plainSink World.sink)) (w, s)
      (fun _ => Recording capacity i d name settle) (fun _ => Recording capacity i d name settle) := by
  simp only [flush, ends_bind]
  refine ((keeps_recording capacity i d name settle).requireOpen_ends h).imp ?_
    fun _ _ hfailed => hfailed.1
  intro _ p hsame
  subst hsame
  obtain ⟨⟨o, ho⟩, rfl⟩ := h
  refine (passStaged_recorded ho).imp ?_ fun _ _ => id
  intro _ p hpassed
  obtain ⟨w', s'⟩ := p
  obtain ⟨⟨⟨o', ho'⟩, hsettle⟩, _⟩ := hpassed
  obtain ⟨sh, hshelf, hcurrent⟩ := ho'.current
  rw [ends_onBelow, Output.ends_plainSink_flush, ho'.below]
  refine (World.flush_ends hshelf o').imp ?_ ?_
  · intro _ p hdone
    obtain ⟨below, store⟩ := p
    obtain ⟨hshelf', rfl⟩ := hdone
    have hpublished := current_flush (ho'.named.symm ▸ hcurrent)
    rw [ho'.named] at hpublished
    exact ⟨⟨_, ho'.withStore false ⟨_, hshelf', fun _ => hpublished⟩⟩, hsettle⟩
  · intro _ p hfailed
    obtain ⟨below, store⟩ := p
    obtain ⟨hshelf', rfl⟩ := hfailed
    exact ⟨⟨_, ho'.withStore o'.dirty ⟨sh, hshelf', hcurrent⟩⟩, hsettle⟩

-- The blocks of a file of the store, the last one first, were used last under its version.
def Shelved (capacity i : Nat) (d : Directory) (name : String) (length : Nat) (s : Site World) :
    Prop :=
  ∃ sh file, s.store.shelf i = some sh ∧ sh.files[name]? = some file ∧ file.data.size = length ∧
    (Grid.count length ≤ capacity →
      s.tier.Recent capacity (d.version name file.stamp) (FileCache.backward length))

theorem close_recording
    (h : Recording capacity i d name (some (d.cacheName (World.cellar i) name)) (w, s)) :
    Ends (close (Output.plainSink World.sink)) (w, s)
      (fun _ p => Shelved capacity i d name p.1.position p.2) (fun _ _ => True) := by
  obtain ⟨⟨o, ho⟩, hsettle⟩ := h
  simp only at hsettle
  simp only [close, ends_bind, ends_get, hsettle, ends_modifyWriter]
  have hclosing : Recorded capacity i d name o { w with settle := none } s :=
    { ho with staging := ⟨ho.staging.aligned, ho.staging.flushed_le, ho.staging.staged_le,
        ho.staging.size, ho.staging.handed⟩ }
  refine (passStaged_recorded hclosing).imp ?_ fun _ _ _ => trivial
  intro _ p hpassed
  obtain ⟨w', s'⟩ := p
  obtain ⟨⟨⟨o', ho'⟩, _⟩, hstaged, hflushed⟩ := hpassed
  obtain ⟨sh, hshelf, hcurrent⟩ := ho'.current
  have hsize : o'.buffer.size = w'.position := by
    rw [ho'.staging.size, position, hflushed, hstaged]
  rw [ends_onBelow, Output.ends_plainSink_close, ho'.below]
  refine (World.close_ends hshelf fun hclosed => ?_).imp ?_ fun _ _ _ => trivial
  · rw [ho'.closed] at hclosed
    cases hclosed
  intro _ p hdone
  obtain ⟨below, store⟩ := p
  obtain ⟨hshelf', rfl⟩ := hdone
  obtain ⟨file, hfile, hdata⟩ := current_flush (ho'.named.symm ▸ hcurrent)
  rw [ho'.named] at hfile
  have hon : OnShelf i s'.tier (sh.flush o') { s' with store } := ⟨rfl, hshelf'⟩
  rw [ends_onPart, ends_attempt]
  refine (hon.cacheName_ends d name).imp ?_ ?_
  · intro cacheName s'' hnamed
    obtain ⟨hon', file', hfile', rfl⟩ := hnamed
    obtain rfl := Option.some.inj (hfile.symm.trans hfile')
    simp only [settleName, ends_onTier, hon'.tier]
    have hlength : file.data.size = w'.position := hdata ▸ hsize
    by_cases hfew : Grid.count w'.position ≤ capacity
    · have hrecent := ho'.recent (hsize.symm ▸ hfew)
      rw [hsize, ← ho.location] at hrecent
      refine (Tier.rename_recent hrecent _).imp ?_ fun _ _ _ => trivial
      exact fun _ t ht => ⟨_, file, hon'.shelf, hfile, hlength, fun _ => ht⟩
    · refine .always (fun _ t => ?_) fun _ _ => trivial
      exact ⟨_, file, hon'.shelf, hfile, hlength, fun hle => absurd hle hfew⟩
  · intro e s'' _
    cases e with
    | error e =>
      simp only [settleName, ends_bind, ends_onTier, ends_fail]
      exact .always (fun _ _ => trivial) fun _ _ => trivial
    | breach b => trivial

end CachedWriter

end Blockwise
