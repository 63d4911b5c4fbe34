import Blockwise.Proofs.Stream.Withdrawal
import Blockwise.Proofs.Tier.Names
import Blockwise.Proofs.Tier.Recent

namespace Blockwise

open Act

-- A destination that refuses nothing while it is calm and makes no use of the cache. After a close it is
-- ready for the final name.
structure Sink.Obliging {δ β : Type} (sink : Sink δ (Site β)) (content : δ → β → Bytes)
    (calm : δ → β → Prop) (ready : β → Prop) : Prop where
  write : ∀ data out s, calm out s.store → Ends (sink.write data) (out, s)
    (fun _ q => q.2.tier = s.tier ∧ calm q.1 q.2.store ∧
      content q.1 q.2.store = content out s.store ++ data)
    (fun _ _ => False)
  flush : ∀ out s, calm out s.store → Ends sink.flush (out, s)
    (fun _ q => q.2.tier = s.tier ∧ calm q.1 q.2.store ∧ content q.1 q.2.store = content out s.store)
    (fun _ _ => False)
  close : ∀ out s, calm out s.store → Ends sink.close (out, s)
    (fun _ q => q.2.tier = s.tier ∧ ready q.2.store ∧ content q.1 q.2.store = content out s.store)
    (fun _ _ => False)

namespace CachedWriter

variable {δ β : Type} {sink : Sink δ (Site β)} {content : δ → β → Bytes} {calm : δ → β → Prop}
  {ready : β → Prop} {location final : String} {settle : Act (Site β) String}
  {resolver : Option (Act (Site β) String)} {got data : Bytes}
  {w : CachedWriter δ (Site β)} {s : Site β} {p : CachedWriter δ (Site β) × Site β}

-- The bytes of all writes, one after the other.
def written : List Call → Bytes
  | [] => ByteArray.empty
  | .write data :: calls => data ++ written calls
  | .flush :: calls | .close :: calls | .aside _ :: calls => written calls

def Call.WritesOrFlushes : Call → Prop
  | .write _ | .flush => True
  | .close | .aside _ => False

section Pieces

variable {inv : Bytes → CachedWriter δ (Site β) × Site β → Prop} {refused : Prop}

-- What staging a piece keeps as long as the piece fits the block under way, staging the pieces of a
-- string keeps, by induction on how they fill the blocks.
theorem ends_stageAll
    (hstage : ∀ got w s piece, inv got (w, s) → w.staged.size + piece.size ≤ Grid.blockSize →
      Ends (stage sink piece) (w, s)
        (fun _ p => inv (got ++ piece) p ∧ p.1.staged.size =
          if w.staged.size + piece.size = Grid.blockSize then 0 else w.staged.size + piece.size)
        (fun _ _ => refused))
    {pieces : List Bytes} {room : Nat} (hw : inv got (w, s))
    (hroom : w.staged.size + room = Grid.blockSize) (hfills : Fills room pieces) :
    Ends (pieces.forM (stage sink)) (w, s) (fun _ p => inv (got ++ Bytes.concat pieces) p)
      (fun _ _ => refused) := by
  induction hfills generalizing w s got with
  | nil room =>
    simpa only [List.forM_eq_forM, List.forM_nil, ends_pure, Bytes.concat_nil,
      ByteArray.append_empty] using hw
  | last hlast =>
    simp only [List.forM_eq_forM, List.forM_cons, List.forM_nil, ends_bind, ends_pure,
      Bytes.concat_cons, Bytes.concat_nil, ByteArray.append_empty]
    exact (hstage got w s _ hw (by omega)).imp (fun _ _ => And.left) fun _ _ => id
  | cons hpiece hrest ih =>
    simp only [List.forM_eq_forM, List.forM_cons, ends_bind, Bytes.concat_cons]
    refine (hstage got w s _ hw (by omega)).imp ?_ fun _ _ => id
    intro _ p hstaged
    obtain ⟨w', s'⟩ := p
    obtain ⟨hw', hsize⟩ := hstaged
    rw [if_pos (by omega)] at hsize
    have hsize : w'.staged.size = 0 := hsize
    rw [← ByteArray.append_assoc]
    exact ih hw' (by omega)

theorem ends_write
    (hstage : ∀ got w s piece, inv got (w, s) → w.staged.size + piece.size ≤ Grid.blockSize →
      Ends (stage sink piece) (w, s)
        (fun _ p => inv (got ++ piece) p ∧ p.1.staged.size =
          if w.staged.size + piece.size = Grid.blockSize then 0 else w.staged.size + piece.size)
        (fun _ _ => refused))
    (hw : inv got (w, s)) (hopen : w.settle.isSome = true) (hroom : w.staged.size < Grid.blockSize)
    (data : Bytes) :
    Ends (write sink data) (w, s) (fun _ => inv (got ++ data)) (fun _ _ => refused) := by
  obtain ⟨settle, hsettle⟩ := Option.isSome_iff_exists.mp hopen
  simp only [write, requireOpen, ends_bind, ends_get, hsettle, Option.isNone_some,
    Bool.false_eq_true, if_false, ends_pure, Nat.not_lt.mpr (Nat.le_of_lt hroom)]
  have hstaged := ends_stageAll hstage hw (by omega)
    (fills_cutAfter (Grid.blockSize - w.staged.size) data)
  rwa [concat_cutAfter] at hstaged

end Pieces

-- What a write is made of, where no part of it fails: staging bytes that leave room in the block under
-- way, and staging those that fill it, which hands the block on.
structure Flows (sink : Sink δ (Site β)) (inv : Bytes → CachedWriter δ (Site β) × Site β → Prop) :
    Prop where
  opened : ∀ got p, inv got p → p.1.settle.isSome = true
  room : ∀ got p, inv got p → p.1.staged.size < Grid.blockSize
  add : ∀ got w s data, inv got (w, s) → w.staged.size + data.size < Grid.blockSize →
    inv (got ++ data) ({ w with staged := w.staged ++ data }, s)
  turn : ∀ got w s data, inv got (w, s) → w.staged.size + data.size = Grid.blockSize →
    Ends (stage sink data) (w, s) (fun _ p => inv (got ++ data) p ∧ p.1.staged.size = 0)
      (fun _ _ => False)

namespace Flows

variable {inv : Bytes → CachedWriter δ (Site β) × Site β → Prop}

theorem stage_ends (h : Flows sink inv) (hw : inv got (w, s))
    (hroom : w.staged.size + data.size ≤ Grid.blockSize) :
    Ends (CachedWriter.stage sink data) (w, s)
      (fun _ p => inv (got ++ data) p ∧
        p.1.staged.size = if w.staged.size + data.size = Grid.blockSize then 0
          else w.staged.size + data.size)
      (fun _ _ => False) := by
  by_cases hfull : w.staged.size + data.size = Grid.blockSize
  · rw [if_pos hfull]
    exact h.turn got w s data hw hfull
  · simp only [CachedWriter.stage, ends_bind, ends_modifyWriter, ends_get, ByteArray.size_append, hfull,
      if_false, ends_pure]
    exact ⟨h.add got w s data hw (by omega), trivial⟩

theorem write_ends (h : Flows sink inv) (hw : inv got p) (data : Bytes) :
    Ends (CachedWriter.write sink data) p (fun _ => inv (got ++ data)) (fun _ _ => False) := by
  obtain ⟨w, s⟩ := p
  exact ends_write (fun _ _ _ _ hw hroom => h.stage_ends hw hroom) hw (h.opened got (w, s) hw)
    (h.room got (w, s) hw) data

theorem run_ends (h : Flows sink inv) {calls : List Call}
    (hcalls : ∀ call ∈ calls, call.WritesOrFlushes)
    (hflush : .flush ∈ calls → ∀ got p, inv got p →
      Ends (CachedWriter.flush sink) p (fun _ => inv got) (fun _ _ => False)) (hw : inv got p) :
    Ends (calls.forM (act sink)) p (fun _ => inv (got ++ written calls)) (fun _ _ => False) := by
  induction calls generalizing got p with
  | nil => exact (ByteArray.append_empty (b := got)).symm ▸ hw
  | cons call calls ih =>
    obtain ⟨hcall, hrest⟩ := List.forall_mem_cons.mp hcalls
    have hlater := fun hmem => hflush (List.mem_cons_of_mem call hmem)
    simp only [List.forM_eq_forM, List.forM_cons, ends_bind]
    cases call with
    | write data =>
      refine (h.write_ends hw data).imp ?_ fun _ _ => id
      intro _ q hq
      rw [written, ← ByteArray.append_assoc]
      exact ih hrest hlater hq
    | flush =>
      exact (hflush List.mem_cons_self got p hw).imp (fun _ _ hq => ih hrest hlater hq) fun _ _ => id
    | close => exact hcall.elim
    | aside a => exact hcall.elim

end Flows

-- The call that publishes a block of a file; the last block may be shorter.
def blockCall (location : String) (data : Bytes) (block : Nat) : CacheCall :=
  .update location block 0 (Bytes.slice data (Grid.start block) Grid.blockSize)

-- The call that is made when the staged block is handed on, if there is anything to hand on.
def pending (w : CachedWriter δ (Site β)) : List CacheCall :=
  if w.staged.size = w.flushed then [] else [.update w.location (Grid.block w.blockStart) 0 w.staged]

-- A writer that has lost nothing and that nothing has failed for. The cache shows what was handed on.
structure Unbroken (content : δ → β → Bytes) (calm : δ → β → Prop) (location : String)
    (resolver : Option (Act (Site β) String)) (got : Bytes)
    (p : CachedWriter δ (Site β) × Site β) : Prop where
  calm : calm p.1.below p.2.store
  staging : p.1.Staging (content p.1.below p.2.store)
  conserved : content p.1.below p.2.store ++ p.1.unhanded = got
  sound : p.2.tier.Sound
  shows : ∀ block, p.2.tier.Shows location (content p.1.below p.2.store) block
  mapped : p.2.tier.Mapped location ∨ content p.1.below p.2.store = ByteArray.empty
  located : p.1.location = location
  settled : p.1.settle = resolver

theorem Unbroken.staged (h : Unbroken content calm location resolver got (w, s))
    (hroom : w.staged.size + data.size ≤ Grid.blockSize) :
    Unbroken content calm location resolver (got ++ data) ({ w with staged := w.staged ++ data }, s) := by
  refine ⟨h.calm, h.staging.staged hroom, ?_, h.sound, h.shows, h.mapped, h.located, h.settled⟩
  rw [← h.conserved, ByteArray.append_assoc]
  exact congrArg _ (Bytes.slice_append_end h.staging.flushed_le data)

-- What is staged goes to the destination and to the cache.
theorem Unbroken.pass (h : Unbroken content calm location resolver got (w, s))
    (hsink : sink.Obliging content calm ready) :
    Ends (passStaged sink) (w, s)
      (fun _ p => Unbroken content calm location resolver got p ∧
        (∃ below, p.1 = { w with below, flushed := w.staged.size }) ∧
        p.2.tier.journal.toList = s.tier.journal.toList ++ w.pending)
      (fun _ _ => False) := by
  have hstaging : w.Staging (content w.below s.store) := h.staging
  have hflushed := hstaging.flushed_le
  have hstaged := hstaging.staged_le
  refine ends_passStaged hflushed (fun hsame => ⟨h, ⟨w.below, by rw [hsame]⟩, ?_⟩) fun hnew => ?_
  · rw [pending, if_pos hsame, List.append_nil]
  generalize hfresh : Bytes.slice w.staged w.flushed (w.staged.size - w.flushed) = fresh
  have hsize : fresh.size = w.staged.size - w.flushed := by
    rw [← hfresh, Bytes.size_slice_of_le (by omega)]
  refine (hsink.write fresh w.below s h.calm).imp ?_ fun _ _ => id
  intro _ q hwritten
  obtain ⟨below, s'⟩ := q
  obtain ⟨htier, hcalm, hcontent⟩ := hwritten
  obtain ⟨hpassed, hcover⟩ := hstaging.passed hfresh.symm below
  have hshown : Ends (Tier.update w.location (Grid.block w.blockStart) 0 w.staged) s.tier
      (fun _ t => t.Sound ∧ t.pools = s.tier.pools ∧ ∀ name data, name = w.location ∧
        data = content w.below s.store ++ fresh → ∀ block, t.Shows name data block)
      (fun _ t => t.Sound ∧ t.pools = s.tier.pools ∧ Grid.blockSize < w.staged.size ∧
        t.byteAt = s.tier.byteAt) := by
    apply Tier.update_shown h.sound
    · rintro name data ⟨rfl, rfl⟩ block hblock
      refine shows_of_grown hstaging (by omega) ?_ fun heq => hblock ⟨rfl, heq⟩
      have hshows := h.shows block
      rwa [← h.located] at hshows
    · rintro data ⟨_, rfl⟩ i hi y hy
      rw [hstaging.aligned] at hy
      exact hcover i hi y hy
  rw [htier]
  refine (hshown.and (Tier.update_mapped h.sound w.location (Grid.block w.blockStart)
    (by omega))).imp ?_ fun _ _ => And.right
  intro _ t hupdated
  obtain ⟨⟨hsound, _, hshows⟩, hjournal, hmapped⟩ := hupdated
  refine ⟨⟨hcalm, hcontent ▸ hpassed, ?_, hsound, fun block => ?_, ?_, h.located, h.settled⟩,
    ⟨below, rfl⟩, ?_⟩
  · show content below s'.store ++
      Bytes.slice w.staged w.staged.size (w.staged.size - w.staged.size) = got
    rw [Nat.sub_self, Bytes.slice_zero, ByteArray.append_empty, hcontent, ← hfresh]
    exact h.conserved
  · rw [← h.located, hcontent]
    exact hshows _ _ ⟨rfl, rfl⟩ block
  · exact .inl (h.located ▸ hmapped)
  · rw [hjournal, Array.toList_push, pending, if_neg hnew]

-- A block that is full is handed on, and the next one begins.
theorem Unbroken.turn (h : Unbroken content calm location resolver got (w, s))
    (hsink : sink.Obliging content calm ready) (hfull : w.staged.size + data.size = Grid.blockSize) :
    Ends (stage sink data) (w, s)
      (fun _ p => Unbroken content calm location resolver (got ++ data) p ∧
        p.1.staged = ByteArray.empty ∧ p.1.flushed = 0 ∧
        p.1.blockStart = w.blockStart + Grid.blockSize ∧ p.2.tier.journal.toList =
          s.tier.journal.toList ++ pending { w with staged := w.staged ++ data })
      (fun _ _ => False) := by
  simp only [stage, ends_bind, ends_modifyWriter, ends_get, ByteArray.size_append, hfull, if_true]
  refine ((h.staged (Nat.le_of_eq hfull)).pass hsink).imp ?_ fun _ _ => id
  intro _ p hpassed
  obtain ⟨w', s'⟩ := p
  obtain ⟨hpassed, ⟨below, rfl⟩, hjournal⟩ := hpassed
  rw [ends_modifyWriter]
  have hflushed : (w.staged ++ data).size = Grid.blockSize := ByteArray.size_append.trans hfull
  refine ⟨⟨hpassed.calm, hpassed.staging.advanced hflushed, ?_, hpassed.sound, hpassed.shows,
    hpassed.mapped, hpassed.located, hpassed.settled⟩, rfl, rfl, rfl, hjournal⟩
  have hconserved := hpassed.conserved
  simp only [unhanded, hflushed, Nat.sub_self, Bytes.slice_zero] at hconserved ⊢
  exact hconserved

-- A call to the destination that writes nothing.
theorem Unbroken.withBelow (h : Unbroken content calm location resolver got (w, s)) {q : δ × Site β}
    (hq : q.2.tier = s.tier ∧ calm q.1 q.2.store ∧
      content q.1 q.2.store = content w.below s.store) :
    Unbroken content calm location resolver got ({ w with below := q.1 }, q.2) := by
  obtain ⟨below, s'⟩ := q
  obtain ⟨htier, hcalm, hcontent⟩ := hq
  have htier : s'.tier = s.tier := htier
  have hcontent : content below s'.store = content w.below s.store := hcontent
  have hmapped : s.tier.Mapped location ∨ content w.below s.store = ByteArray.empty := h.mapped
  refine ⟨hcalm, ?_, ?_, htier ▸ h.sound, fun block => ?_, ?_, h.located, h.settled⟩
  · exact hcontent ▸ h.staging.withBelow below
  · exact (congrArg (· ++ w.unhanded) hcontent).trans h.conserved
  · rw [htier, hcontent]
    exact h.shows block
  · rwa [htier, hcontent]

theorem Unbroken.flush_ends (h : Unbroken content calm location (some settle) got p)
    (hsink : sink.Obliging content calm ready) (hroom : p.1.staged.size < Grid.blockSize) :
    Ends (flush sink) p
      (fun _ q => Unbroken content calm location (some settle) got q ∧
        q.1.staged.size < Grid.blockSize)
      (fun _ _ => False) := by
  obtain ⟨w, s⟩ := p
  have hsettled : w.settle = some settle := h.settled
  simp only [flush, requireOpen, ends_bind, ends_get, hsettled, Option.isNone_some, Bool.false_eq_true,
    if_false, ends_pure]
  refine (h.pass hsink).imp ?_ fun _ _ => id
  intro _ p hpassed
  obtain ⟨w', s'⟩ := p
  obtain ⟨hpassed, ⟨below, rfl⟩, _⟩ := hpassed
  rw [ends_onBelow]
  exact (hsink.flush below s' hpassed.calm).imp (fun _ _ hq => ⟨hpassed.withBelow hq, hroom⟩)
    fun _ _ => id

-- A resolver that finds the final name and changes nothing but its own.
def Resolves (content : δ → β → Bytes) (ready : β → Prop) (final : String)
    (settle : Act (Site β) String) : Prop :=
  ∀ s, ready s.store → Ends settle s
    (fun name s' => name = final ∧ s'.tier = s.tier ∧ ∀ out, content out s'.store = content out s.store)
    (fun _ _ => False)

theorem unbroken_closing (h : Unbroken content calm location resolver got p) :
    Unbroken content calm location none got (closing p) :=
  ⟨h.calm, ⟨h.staging.aligned, h.staging.flushed_le, h.staging.staged_le, h.staging.size,
    h.staging.handed⟩, h.conserved, h.sound, h.shows, h.mapped, h.located, rfl⟩

-- What a file leaves when it is closed: the destination has its bytes, and the cache has moved whatever
-- it has of them to the final name.
structure Left (content : δ → β → Bytes) (location final : String) (data : Bytes)
    (p : CachedWriter δ (Site β) × Site β) : Prop where
  content : content p.1.below p.2.store = data
  unmapped : p.2.tier.Unmapped location
  resident : ∀ block i, p.2.tier.Holds final block → i < Grid.blockSize →
    Grid.start block + i < data.size → p.2.tier.byteAt final block i = data[Grid.start block + i]?

theorem Unbroken.close_ends (h : Unbroken content calm location (some settle) got p)
    (hsink : sink.Obliging content calm ready) (hsettle : Resolves content ready final settle)
    (hne : location ≠ final) :
    Ends (close sink) p
      (fun _ q => Left content location final got q ∧ q.2.tier.journal.toList =
        p.2.tier.journal.toList ++ p.1.pending ++ [.rename location final])
      (fun _ _ => False) := by
  rw [ends_close h.settled]
  simp only [finish, ends_bind]
  refine ((unbroken_closing h).pass hsink).imp ?_ fun _ _ => id
  intro _ p' hpassed
  obtain ⟨w', s'⟩ := p'
  obtain ⟨hpassed, ⟨below, hw⟩, hjournal⟩ := hpassed
  dsimp only at hw
  subst hw
  rw [ends_onBelow]
  refine (hsink.close below s' hpassed.calm).imp ?_ fun _ _ => id
  intro _ q hclosed
  obtain ⟨below', s''⟩ := q
  obtain ⟨htier, hready, hcontent⟩ := hclosed
  simp only [settling, ends_bind, ends_onPart, ends_attempt]
  refine (hsettle s'' hready).imp ?_ fun _ _ => False.elim
  intro name s₃ hnamed
  obtain ⟨rfl, htier', hcontent'⟩ := hnamed
  have hall : content below s'.store = got := by
    have hconserved := hpassed.conserved
    simp only [unhanded, Nat.sub_self, Bytes.slice_zero, ByteArray.append_empty] at hconserved
    exact hconserved
  have hshows : ∀ block, s'.tier.Shows location got block := hall ▸ hpassed.shows
  have hmapped : s'.tier.Mapped location ∨ got = ByteArray.empty := hall ▸ hpassed.mapped
  simp only [settleName, ends_onTier, htier'.trans htier]
  refine (Tier.rename_shown hpassed.sound (h.located ▸ hne) (h.located ▸ hshows)
    (h.located ▸ hmapped)).imp ?_ fun _ _ => id
  intro _ t hrenamed
  obtain ⟨hrenamed, hunmapped, hshown⟩ := hrenamed
  refine ⟨⟨(hcontent' below').trans (hcontent.trans hall), h.located ▸ hunmapped, fun block i hheld hi hin =>
    hheld.byteAt_eq (hshown block) hi hin⟩, ?_⟩
  rw [hrenamed, Array.toList_push, hjournal, h.located]
  rfl

-- Without a flush, only full blocks are handed on before the close, each of them once.
structure Unflushed (content : δ → β → Bytes) (calm : δ → β → Prop) (location : String)
    (resolver : Option (Act (Site β) String)) (journal : List CacheCall) (got : Bytes)
    (p : CachedWriter δ (Site β) × Site β) : Prop where
  unbroken : Unbroken content calm location resolver got p
  room : p.1.staged.size < Grid.blockSize
  flushed : p.1.flushed = 0
  journal : p.2.tier.journal.toList =
    journal ++ (List.range (Grid.block p.1.blockStart)).map (blockCall location got)

theorem flows_unbroken (hsink : sink.Obliging content calm ready) :
    Flows sink fun got p => Unbroken content calm location (some settle) got p ∧
      p.1.staged.size < Grid.blockSize where
  opened got p h := by
    rw [h.1.settled]
    rfl
  room got p h := h.2
  add got w s data h hroom := by
    refine ⟨h.1.staged (Nat.le_of_lt hroom), ?_⟩
    rwa [ByteArray.size_append]
  turn got w s data h hfull := by
    refine (h.1.turn hsink hfull).imp ?_ fun _ _ => id
    intro _ p hturned
    obtain ⟨hturned, hstaged, _⟩ := hturned
    rw [hstaged]
    exact ⟨⟨hturned, Grid.blockSize_pos⟩, rfl⟩

-- A block that is complete is not changed by what comes after it.
theorem blockCall_append {block : Nat} (h : Grid.start (block + 1) ≤ got.size) (data : Bytes) :
    blockCall location (got ++ data) block = blockCall location got block := by
  rw [Grid.start_succ] at h
  rw [blockCall, blockCall]
  congr 1
  refine Bytes.ext_getElem? fun i => ?_
  rw [Bytes.getElem?_slice, Bytes.getElem?_slice]
  split
  · rw [Bytes.getElem?_append, if_pos (by omega)]
  · rfl

theorem map_blockCall_append {n : Nat} (h : Grid.start n ≤ got.size) (data : Bytes) :
    (List.range n).map (blockCall location (got ++ data)) =
      (List.range n).map (blockCall location got) := by
  refine List.map_congr_left fun block hblock => blockCall_append (Nat.le_trans ?_ h) data
  exact Nat.mul_le_mul_right Grid.blockSize (List.mem_range.mp hblock)

-- The block under way of a writer that has handed on nothing of it.
theorem Unbroken.under_way (h : Unbroken content calm location resolver got p)
    (hflushed : p.1.flushed = 0) :
    got.size = p.1.blockStart + p.1.staged.size ∧
      Bytes.slice got p.1.blockStart Grid.blockSize = p.1.staged := by
  obtain ⟨w, s⟩ := p
  have hflushed : w.flushed = 0 := hflushed
  have hcontent : (content w.below s.store).size = w.blockStart := by
    rw [h.staging.size, hflushed, Nat.add_zero]
  have hstaged : w.staged.size ≤ Grid.blockSize := h.staging.staged_le
  have hgot : content w.below s.store ++ w.staged = got := by
    have hconserved : content w.below s.store ++ w.unhanded = got := h.conserved
    rwa [unhanded, hflushed, Nat.sub_zero, Bytes.slice_whole] at hconserved
  show got.size = w.blockStart + w.staged.size ∧
    Bytes.slice got w.blockStart Grid.blockSize = w.staged
  rw [← hgot, ByteArray.size_append, hcontent]
  refine ⟨rfl, Bytes.ext_getElem? fun i => ?_⟩
  rw [Bytes.getElem?_slice, Bytes.getElem?_append, hcontent]
  split
  · rw [if_neg (by omega), Nat.add_sub_cancel_left]
  · exact (getElem?_neg w.staged i (by omega)).symm

theorem Unbroken.pending_eq (h : Unbroken content calm location resolver got p)
    (hflushed : p.1.flushed = 0) :
    p.1.pending = if p.1.staged.size = 0 then [] else
      [blockCall location got (Grid.block p.1.blockStart)] := by
  rw [pending, hflushed, blockCall, h.staging.aligned, (h.under_way hflushed).2, h.located]

theorem flows_unflushed (hsink : sink.Obliging content calm ready) (journal : List CacheCall) :
    Flows sink (Unflushed content calm location (some settle) journal) where
  opened got p h := by
    rw [h.unbroken.settled]
    rfl
  room got p h := h.room
  add got w s data h hroom := by
    have haligned : Grid.start (Grid.block w.blockStart) = w.blockStart := h.unbroken.staging.aligned
    have hsize : got.size = w.blockStart + w.staged.size := (h.unbroken.under_way h.flushed).1
    refine ⟨h.unbroken.staged (Nat.le_of_lt hroom), ?_, h.flushed, ?_⟩
    · rwa [ByteArray.size_append]
    · have hbefore : Grid.start (Grid.block w.blockStart) ≤ got.size := by omega
      exact h.journal.trans (congrArg _ (map_blockCall_append hbefore data).symm)
  turn got w s data h hfull := by
    have haligned : Grid.start (Grid.block w.blockStart) = w.blockStart := h.unbroken.staging.aligned
    have hsize : got.size = w.blockStart + w.staged.size := (h.unbroken.under_way h.flushed).1
    have hstaged := h.unbroken.staged (Nat.le_of_eq hfull)
    have hpending := hstaged.pending_eq h.flushed
    simp only [ByteArray.size_append, hfull] at hpending
    rw [if_neg (Nat.ne_of_gt Grid.blockSize_pos)] at hpending
    refine (h.unbroken.turn hsink hfull).imp ?_ fun _ _ => id
    intro _ p hturned
    obtain ⟨hturned, hempty, hflushed, hnext, hjournal⟩ := hturned
    refine ⟨⟨hturned, ?_, hflushed, ?_⟩, ?_⟩
    · rw [hempty]
      exact Grid.blockSize_pos
    · have hblock : Grid.block p.1.blockStart = Grid.block w.blockStart + 1 := by
        rw [hnext]
        exact Nat.add_div_right _ Grid.blockSize_pos
      rw [hjournal, hpending, hblock, List.range_succ, List.map_append,
        map_blockCall_append (by omega), ← List.append_assoc]
      exact congrArg (· ++ _) h.journal
    · rw [hempty]
      rfl

-- The last block is handed on by the close, unless it is empty.
theorem Unflushed.complete {journal : List CacheCall}
    (h : Unflushed content calm location resolver journal got p) :
    p.2.tier.journal.toList ++ p.1.pending =
      journal ++ (List.range (Grid.count got.size)).map (blockCall location got) := by
  obtain ⟨n, hn⟩ : ∃ n, Grid.block p.1.blockStart = n := ⟨_, rfl⟩
  have haligned := h.unbroken.staging.aligned
  have hsize := (h.unbroken.under_way h.flushed).1
  have hroom := h.room
  rw [h.journal, h.unbroken.pending_eq h.flushed, List.append_assoc, hn]
  rw [← haligned, hn] at hsize
  congr 1
  by_cases hnone : p.1.staged.size = 0
  · rw [if_pos hnone, List.append_nil, hsize, hnone, Nat.add_zero, Grid.count_start]
  · rw [if_neg hnone, hsize, Grid.count_add n (by omega) (by omega), List.range_succ, List.map_append]
    rfl

-- A writer over a calm and empty destination, of a file that the cache knows nothing of so far.
structure Opened (content : δ → β → Bytes) (calm : δ → β → Prop) (ready : β → Prop)
    (location final : String) (below : δ) (settle : Act (Site β) String) (s : Site β) : Prop where
  files : s.tier.Reached
  vacant : s.tier.Unmapped location
  calm : calm below s.store
  empty : content below s.store = ByteArray.empty
  resolves : Resolves content ready final settle

section Runs

variable {below below' : δ} {settle' : Act (Site β) String} {s' : Site β} {calls calls' : List Call}

theorem Opened.unbroken (h : Opened content calm ready location final below settle s) :
    Unbroken content calm location (some settle) ByteArray.empty (fresh below location settle, s) := by
  refine ⟨h.calm, ⟨?_, Nat.le_refl _, Nat.zero_le _, ?_, ?_⟩, ?_, ?_, fun block => ?_, .inr h.empty, rfl, rfl⟩
  · exact (by decide : Grid.start (Grid.block 0) = 0)
  · exact congrArg ByteArray.size h.empty
  · exact fun i hi => absurd hi (Nat.not_lt_zero i)
  · exact (congrArg (· ++ _) h.empty).trans rfl
  · exact fun c hc => (h.files.tidy c hc).sound
  · exact Tier.shows_of_none fun i => Tier.Unmapped.byteAt h.vacant block i

-- One call for each block of a file, in order, and then the rename.
def script (location final : String) (data : Bytes) : List CacheCall :=
  (List.range (Grid.count data.size)).map (blockCall location data) ++ [.rename location final]

-- All writes and flushes, and then the close.
def wholeRun (sink : Sink δ (Site β)) (calls : List Call) : Run δ β Unit := do
  calls.forM (act sink)
  close sink

theorem Opened.run_ends (h : Opened content calm ready location final below settle s)
    (hsink : sink.Obliging content calm ready) (hne : location ≠ final)
    (hcalls : ∀ call ∈ calls, call.WritesOrFlushes) :
    Ends (wholeRun sink calls) (fresh below location settle, s)
      (fun _ p => Left content location final (written calls) p) (fun _ _ => False) := by
  rw [wholeRun, ends_bind]
  refine ((flows_unbroken hsink).run_ends hcalls (fun _ got p hp => hp.1.flush_ends hsink hp.2)
    ⟨h.unbroken, Grid.blockSize_pos⟩).imp ?_ fun _ _ => id
  intro _ p hp
  rw [ByteArray.empty_append] at hp
  exact (hp.1.close_ends hsink h.resolves hne).imp (fun _ _ => And.left) fun _ _ => id

theorem Opened.run_unflushed (h : Opened content calm ready location final below settle s)
    (hsink : sink.Obliging content calm ready) (hne : location ≠ final)
    (hcalls : ∀ call ∈ calls, call.WritesOrFlushes) (hflush : .flush ∉ calls) :
    Ends (wholeRun sink calls) (fresh below location settle, s)
      (fun _ p => p.2.tier.journal.toList =
        s.tier.journal.toList ++ script location final (written calls))
      (fun _ _ => False) := by
  have hstart : Unflushed content calm location (some settle) s.tier.journal.toList ByteArray.empty
      (fresh below location settle, s) := by
    have hzero : Grid.block 0 = 0 := by decide
    refine ⟨h.unbroken, Grid.blockSize_pos, rfl, ?_⟩
    show _ = _ ++ (List.range (Grid.block 0)).map _
    rw [hzero, List.range_zero, List.map_nil, List.append_nil]
  rw [wholeRun, ends_bind]
  refine ((flows_unflushed hsink s.tier.journal.toList).run_ends hcalls
    (fun hmem => absurd hmem hflush) hstart).imp ?_ fun _ _ => id
  intro _ p hp
  rw [ByteArray.empty_append] at hp
  refine (hp.unbroken.close_ends hsink h.resolves hne).imp ?_ fun _ _ => id
  intro _ q hclosed
  rw [hclosed.2, hp.complete, script, List.append_assoc]

-- Two files of the same bytes, each written in any number of writes with any flushes between them and
-- then closed under the same final name, whatever else is cached. No call fails, and both leave the same:
-- the bytes in the destination, nothing under the location, and in every block that is cached under the
-- final name the bytes of the file, whatever was evicted on the way. The calls to the cache without a
-- flush are the same, too.
theorem chunks_alike (hsink : sink.Obliging content calm ready) (hne : location ≠ final)
    (h : Opened content calm ready location final below settle s)
    (h' : Opened content calm ready location final below' settle' s')
    (hcalls : ∀ call ∈ calls, call.WritesOrFlushes) (hcalls' : ∀ call ∈ calls', call.WritesOrFlushes)
    (hsame : written calls = written calls') :
    ∃ p p', wholeRun sink calls (fresh below location settle, s) = .ok () p ∧
      wholeRun sink calls' (fresh below' location settle', s') = .ok () p' ∧
      Left content location final (written calls) p ∧ Left content location final (written calls) p' ∧
      (.flush ∉ calls → p.2.tier.journal.toList =
        s.tier.journal.toList ++ script location final (written calls)) ∧
      (.flush ∉ calls' → p'.2.tier.journal.toList =
        s'.tier.journal.toList ++ script location final (written calls)) := by
  obtain ⟨_, p, hrun, hleft⟩ := (h.run_ends hsink hne hcalls).exists_ok
  obtain ⟨_, p', hrun', hleft'⟩ := (h'.run_ends hsink hne hcalls').exists_ok
  refine ⟨p, p', hrun, hrun', hleft, hsame ▸ hleft', fun hflush => ?_, fun hflush => ?_⟩
  · exact (h.run_unflushed hsink hne hcalls hflush).ok hrun
  · rw [hsame]
    exact (h'.run_unflushed hsink hne hcalls' hflush).ok hrun'

end Runs

end CachedWriter

namespace MemoryStore

-- What is in the output until it is closed, and from then on what readers find under its name.
def stored (out : MemoryOutput) (s : MemoryStore) : Bytes :=
  if out.closed then (s.files[out.name]?.map (·.data)).getD ByteArray.empty else out.buffer

-- An open output that has published all of its bytes, or will do so.
def Writable (out : MemoryOutput) (s : MemoryStore) : Prop :=
  out.closed = false ∧ (out.dirty = false → s.files[out.name]?.map (·.data) = some out.buffer)

theorem flush_stored {out : MemoryOutput} {s : MemoryStore} (h : Writable out s) :
    Ends flush (out, s) (fun _ q => q.1 = { out with dirty := false } ∧
      q.2.files[out.name]?.map (·.data) = some out.buffer) (fun _ _ => False) := by
  obtain ⟨name, buffer, dirty, closed⟩ := out
  cases dirty with
  | true =>
    refine ⟨rfl, ?_⟩
    show ((s.publish name buffer).files[name]?).map (·.data) = some buffer
    rw [publish, Maps.getElem?_insert, if_pos rfl, Option.map_some]
  | false => exact ⟨rfl, h.2 rfl⟩

theorem sink_obliging :
    (Output.plainSink MemoryStore.sink).Obliging stored Writable fun _ => True where
  write data out s h := by
    obtain ⟨hopen, _⟩ := h
    rw [Output.ends_plainSink_write]
    simp only [sink, ends_bind, ends_get, hopen, Bool.false_eq_true, if_false]
    refine ⟨trivial, ⟨rfl, fun hclean => ?_⟩, ?_⟩
    · cases hclean
    · simp only [stored, hopen, Bool.false_eq_true, if_false]
  flush out s h := by
    have hopen := h.1
    rw [Output.ends_plainSink_flush]
    refine (flush_stored h).imp ?_ fun _ _ => id
    intro _ q hflushed
    obtain ⟨out', t⟩ := q
    obtain ⟨hout, hfile⟩ := hflushed
    dsimp only at hout
    subst hout
    refine ⟨rfl, ⟨hopen, fun _ => hfile⟩, ?_⟩
    simp only [stored, hopen, Bool.false_eq_true, if_false]
  close out s h := by
    have hopen := h.1
    rw [Output.ends_plainSink_close]
    simp only [sink, ends_bind, ends_get, hopen, Bool.false_eq_true, if_false, ends_modify]
    refine (flush_stored h).imp ?_ fun _ _ => id
    intro _ q hflushed
    obtain ⟨out', t⟩ := q
    obtain ⟨hout, hfile⟩ := hflushed
    dsimp only at hout
    subst hout
    refine ⟨trivial, trivial, ?_⟩
    simp only [stored, hopen, if_true, Bool.false_eq_true, if_false]
    exact congrArg (Option.getD · ByteArray.empty) hfile

end MemoryStore

namespace CachedWriter

-- A file that goes on into a second block, in one write and in two with a flush between them.
theorem chunks_alike_split :
    ∃ c, FileCache.ofSizing (.ofLayout 1 8 8192) = .ok c ∧
    let first := Bytes.replicate 8190 1
    let second := Bytes.replicate 10 2
    let site : Site MemoryStore := ⟨{ files := some c }, ({} : MemoryStore).publish "f" ByteArray.empty⟩
    let start := (fresh { name := "f" } "d/f" (pure "d/f:1"), site)
    let sink := Output.plainSink MemoryStore.sink
    ∃ p p', wholeRun sink [.write (first ++ second)] start = .ok () p ∧
      wholeRun sink [.write first, .flush, .write second] start = .ok () p' ∧
      Left MemoryStore.stored "d/f" "d/f:1" (first ++ second) p ∧
      Left MemoryStore.stored "d/f" "d/f:1" (first ++ second) p' ∧
      p.2.tier.journal.toList = [blockCall "d/f" (first ++ second) 0, blockCall "d/f" (first ++ second) 1,
        .rename "d/f" "d/f:1"] := by
  refine ⟨_, rfl, ?_⟩
  intro first second site start sink
  have hfiles : site.tier.Reached :=
    Tier.reached_of_sizing (show FileCache.ofSizing (.ofLayout 1 8 8192) = _ from rfl) rfl
  have hopened : Opened MemoryStore.stored MemoryStore.Writable (fun _ => True) "d/f" "d/f:1"
      { name := "f" } (pure "d/f:1") site := by
    refine ⟨hfiles, ?_, ⟨rfl, fun _ => ?_⟩, rfl, fun _ _ => ⟨rfl, rfl, fun _ => rfl⟩⟩
    · intro c hc
      obtain rfl := Option.some.inj hc
      rfl
    · rfl
  have hsame : written [.write (first ++ second)] = written [.write first, .flush, .write second] := by
    simp only [written, ByteArray.append_empty]
  obtain ⟨p, p', hrun, hrun', hleft, hleft', hscript, _⟩ := chunks_alike MemoryStore.sink_obliging
    (by decide) hopened hopened (by simp [Call.WritesOrFlushes]) (by simp [Call.WritesOrFlushes]) hsame
  have hwritten : written [.write (first ++ second)] = first ++ second := ByteArray.append_empty
  rw [hwritten] at hleft hleft' hscript
  refine ⟨p, p', hrun, hrun', hleft, hleft', ?_⟩
  have hcount : Grid.count (first ++ second).size = 2 := by
    rw [ByteArray.size_append, Bytes.size_replicate, Bytes.size_replicate]
    rfl
  rw [hscript (by simp), script, hcount]
  rfl

end CachedWriter

end Blockwise
