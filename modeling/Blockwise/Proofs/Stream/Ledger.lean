import Blockwise.Proofs.Stream.Destination
import Blockwise.Proofs.Tier.Others

namespace Blockwise

open Act

namespace CachedWriter

-- A call on a writer, or something that others do in between.
inductive Call where
  | write (data : Bytes)
  | flush
  | close
  | aside (a : Aside)

section Runs

variable {δ β : Type} (sink : Sink δ (Site β))

def act : Call → Run δ β Unit
  | .write data => write sink data
  | .flush => flush sink
  | .close => close sink
  | .aside a => modify fun (w, s) => (w, a.on s)

-- What a call leaves, whether or not it fails.
def afterCall (p : CachedWriter δ (Site β) × Site β) (call : Call) :
    CachedWriter δ (Site β) × Site β := (outcome (act sink call) p).2

def after (p : CachedWriter δ (Site β) × Site β) (calls : List Call) :
    CachedWriter δ (Site β) × Site β := calls.foldl (afterCall sink) p

-- A write takes as much from the start of its bytes as the position goes up.
def taken (p : CachedWriter δ (Site β) × Site β) : Call → Bytes
  | .write data =>
    Bytes.slice data 0 ((afterCall sink p (.write data)).1.position - p.1.position)
  | .flush | .close | .aside _ => ByteArray.empty

def accepted (p : CachedWriter δ (Site β) × Site β) : List Call → Bytes
  | [] => ByteArray.empty
  | call :: calls => taken sink p call ++ accepted (afterCall sink p call) calls

-- Every write hands on bytes of a file from the position of the writer on.
def Resumes (file : Bytes) (p : CachedWriter δ (Site β) × Site β) : List Call → Prop
  | [] => True
  | call :: calls =>
    (∀ data, call = .write data → data = Bytes.slice file p.1.position data.size) ∧
    Resumes file (afterCall sink p call) calls

-- What a close has to do before it may settle the final name.
def finish : Run δ β Unit := do
  passStaged sink
  onBelow sink.close

-- A writer as its close finds it when it has to finish.
def closing (p : CachedWriter δ (Site β) × Site β) : CachedWriter δ (Site β) × Site β :=
  ({ p.1 with settle := none }, p.2)

-- No close of the writer was stopped by the destination.
def Through (p : CachedWriter δ (Site β) × Site β) : List Call → Prop
  | [] => True
  | call :: calls =>
    (call = .close → p.1.settle.isSome = true →
      (outcome (finish sink) (closing p)).1 = .ok ()) ∧
    Through (afterCall sink p call) calls

end Runs

variable {δ β : Type} {sink : Sink δ (Site β)} {pools : Nat} {shape : Option (Nat × Nat)}
  {store : Regime β} {sound : δ → Prop} {content : δ → β → Bytes} {closed calm : δ → β → Prop}
  {ready : β → Prop} {settle : Act (Site β) String} {resolver : Option (Act (Site β) String)}
  {base : Nat} {got data : Bytes} {w : CachedWriter δ (Site β)} {s : Site β}
  {p : CachedWriter δ (Site β) × Site β}

-- The staged bytes that the destination has not got yet.
def unhanded (w : CachedWriter δ (Site β)) : Bytes :=
  Bytes.slice w.staged w.flushed (w.staged.size - w.flushed)

-- The destination held so many bytes at first. With the unhanded bytes it has all that was taken.
structure Ledger (pools : Nat) (shape : Option (Nat × Nat)) (store : Regime β) (sound : δ → Prop)
    (content : δ → β → Bytes) (resolver : Option (Act (Site β) String)) (base : Nat) (got : Bytes)
    (p : CachedWriter δ (Site β) × Site β) : Prop where
  holds : (regime pools shape store sound).holds p
  settle : p.1.settle = resolver
  aligned : Grid.blockSize ∣ p.1.blockStart
  size : (content p.1.below p.2.store).size = base + p.1.blockStart + p.1.flushed
  conserved : content p.1.below p.2.store ++ p.1.unhanded = got

theorem Ledger.position (h : Ledger pools shape store sound content resolver base got p) :
    got.size = base + p.1.position := by
  have hflushed := h.holds.1.flushed_le
  have hunhanded : p.1.unhanded.size = p.1.staged.size - p.1.flushed :=
    Bytes.size_slice_of_le (by omega)
  rw [← h.conserved, ByteArray.size_append, h.size, hunhanded, CachedWriter.position]
  omega

-- The writer after some of the unhanded bytes went to the destination.
def Handed (content : δ → β → Bytes) (w : CachedWriter δ (Site β)) (s : Site β) (n : Nat)
    (p : CachedWriter δ (Site β) × Site β) : Prop :=
  ∃ below, p.1 = { w with below, flushed := n } ∧ content below p.2.store =
    content w.below s.store ++ Bytes.slice w.staged w.flushed (n - w.flushed)

theorem handed_refl (content : δ → β → Bytes) (w : CachedWriter δ (Site β)) {s s' : Site β} {below : δ}
    (hsame : content below s'.store = content w.below s.store) :
    Handed content w s w.flushed ({ w with below }, s') := by
  refine ⟨below, rfl, ?_⟩
  rw [Nat.sub_self, Bytes.slice_zero, ByteArray.append_empty, hsame]

-- Either all of the unhanded bytes go to the destination or none of them, also if the block cannot be
-- published.
theorem passStaged_handed
    (hconserves : sink.Conserves (Site.regime pools shape store) sound content closed)
    (hw : (regime pools shape store sound).holds (w, s)) :
    Ends (passStaged sink) (w, s) (fun _ => Handed content w s w.staged.size)
      (fun _ p => ∃ n, w.flushed ≤ n ∧ n ≤ w.staged.size ∧ Handed content w s n p) := by
  obtain ⟨⟨hbelow, hflushed, hstaged, _⟩, hs⟩ := hw
  refine ends_passStaged hflushed (fun hsame => ?_) fun _ => ?_
  · rw [hsame]
    exact handed_refl content w rfl
  refine (hconserves.write _ w.below s hbelow hs).imp ?_ ?_
  · intro _ q hdone
    have hhanded (t : Tier) : Handed content w s w.staged.size
        ({ w with below := q.1, flushed := w.staged.size }, { q.2 with tier := t }) :=
      ⟨q.1, rfl, hdone⟩
    exact .always (fun _ t => hhanded t)
      fun _ t => ⟨w.staged.size, hflushed, Nat.le_refl _, hhanded t⟩
  · intro _ q hfailed
    exact ⟨w.flushed, Nat.le_refl _, hflushed, handed_refl content w hfailed⟩

theorem Ledger.handed (h : Ledger pools shape store sound content resolver base got (w, s)) {n : Nat}
    (hlower : w.flushed ≤ n) (hupper : n ≤ w.staged.size)
    (hp : (regime pools shape store sound).holds p) (hhanded : Handed content w s n p) :
    Ledger pools shape store sound content resolver base got p := by
  obtain ⟨w', s'⟩ := p
  obtain ⟨below, hw', hcontent⟩ := hhanded
  dsimp only at hw' hcontent
  subst hw'
  refine ⟨hp, h.settle, h.aligned, ?_, ?_⟩
  · have hsize := h.size
    have hslice : (Bytes.slice w.staged w.flushed (n - w.flushed)).size = n - w.flushed :=
      Bytes.size_slice_of_le (by omega)
    simp only [hcontent, ByteArray.size_append, hslice] at hsize ⊢
    omega
  · have hjoin : Bytes.slice w.staged w.flushed (n - w.flushed) ++
        Bytes.slice w.staged n (w.staged.size - n) = w.unhanded := by
      have h : Bytes.slice w.staged w.flushed (n - w.flushed) ++
          Bytes.slice w.staged (w.flushed + (n - w.flushed))
            (w.staged.size - w.flushed - (n - w.flushed)) = w.unhanded :=
        Bytes.slice_append_slice (by omega) (by omega)
      rwa [Nat.add_sub_of_le hlower, Nat.sub_sub, Nat.add_sub_of_le hlower] at h
    rw [← h.conserved, ← hjoin, ← ByteArray.append_assoc, ← hcontent]
    rfl

theorem Ledger.pass (h : Ledger pools shape store sound content resolver base got (w, s))
    (hsafe : sink.Safe (Site.regime pools shape store) sound)
    (hconserves : sink.Conserves (Site.regime pools shape store) sound content closed) :
    Ends (passStaged sink) (w, s)
      (fun _ p => Ledger pools shape store sound content resolver base got p ∧
        p.1.staged = w.staged ∧ p.1.flushed = w.staged.size)
      (fun e p => Ledger pools shape store sound content resolver base got p ∧ e.Handled) := by
  refine ((safe_passStaged hsafe h.holds).and (passStaged_handed hconserves h.holds)).imp ?_ ?_
  · intro _ p hdone
    obtain ⟨⟨hleaves, hstaged, hflushed⟩, hhanded⟩ := hdone
    exact ⟨h.handed h.holds.1.flushed_le (Nat.le_refl _) hleaves.1 hhanded, hstaged, hflushed⟩
  · intro e p hfailed
    obtain ⟨⟨hleaves, hhandled⟩, n, hlower, hupper, hhanded⟩ := hfailed
    exact ⟨h.handed hlower hupper hleaves.1 hhanded, hhandled⟩

theorem takes_ledger (hsafe : sink.Safe (Site.regime pools shape store) sound)
    (hconserves : sink.Conserves (Site.regime pools shape store) sound content closed)
    (resolver : Option (Act (Site β) String)) (base : Nat) :
    Takes sink (Ledger pools shape store sound content resolver base) Failure.Handled where
  staged_le _ _ _ h := h.holds.1.staged_le
  stage got w s data h hroom := by
    have hkept := (keeps_sound hsafe (w, s)).stage w s data (.refl h.holds) hroom
    refine ⟨hkept.1, h.settle, h.aligned, h.size, ?_⟩
    rw [← h.conserved, ByteArray.append_assoc]
    exact congrArg _ (Bytes.slice_append_end h.holds.1.flushed_le data)
  pass _ _ _ h := h.pass hsafe hconserves
  advance got w s h hstaged hflushed := by
    have hkept := (keeps_sound hsafe (w, s)).advance w s (.refl h.holds) hstaged hflushed
    refine ⟨hkept.1, h.settle, Nat.dvd_add h.aligned (Nat.dvd_refl _), ?_, ?_⟩
    · have hsize := h.size
      simp only [hflushed] at hsize ⊢
      omega
    · have hgot := h.conserved
      simp only [unhanded, hflushed, hstaged, Nat.sub_self, Bytes.slice_zero] at hgot
      exact hgot
  refused _ := trivial

-- A write takes all of its bytes, or with a failure a part from their start.
theorem Ledger.write_ends (h : Ledger pools shape store sound content resolver base got p)
    (hsafe : sink.Safe (Site.regime pools shape store) sound)
    (hconserves : sink.Conserves (Site.regime pools shape store) sound content closed) (data : Bytes) :
    Ends (write sink data) p
      (fun _ p' => Ledger pools shape store sound content resolver base (got ++ data) p')
      (fun _ p' => ∃ first rest, first ++ rest = data ∧
        Ledger pools shape store sound content resolver base (got ++ first) p') :=
  ((takes_ledger hsafe hconserves resolver base).write_ends got h data).imp (fun _ _ => id)
    fun _ _ hfailed => hfailed.1

theorem Ledger.slice_eq {first rest : Bytes} {p' : CachedWriter δ (Site β) × Site β}
    (h : Ledger pools shape store sound content resolver base got p)
    (h' : Ledger pools shape store sound content resolver base (got ++ first) p') :
    Bytes.slice (first ++ rest) 0 (p'.1.position - p.1.position) = first := by
  have hsize := h.position
  have hsize' := h'.position
  rw [ByteArray.size_append] at hsize'
  have hlen : p'.1.position - p.1.position = first.size := by omega
  rw [hlen, Bytes.slice_append_left]

-- A call that leaves the content of the destination as it is.
theorem Ledger.below (h : Ledger pools shape store sound content resolver base got p)
    {x : Act (δ × Site β) Unit} (done : δ → β → Prop)
    (hsafe : Safe ((Site.regime pools shape store).withHandle sound) x fun _ => True)
    (hx : Ends x (p.1.below, p.2)
      (fun _ q => content q.1 q.2.store = content p.1.below p.2.store ∧ done q.1 q.2.store)
      (fun _ q => content q.1 q.2.store = content p.1.below p.2.store)) :
    Ends (onBelow x) p
      (fun _ p' => Ledger pools shape store sound content resolver base got p' ∧
        done p'.1.below p'.2.store)
      (fun _ => Ledger pools shape store sound content resolver base got) := by
  obtain ⟨w, s⟩ := p
  have hkept : ∀ q : δ × Site β, sound q.1 → (Site.regime pools shape store).holds q.2 →
      content q.1 q.2.store = content w.below s.store →
      Ledger pools shape store sound content resolver base got ({ w with below := q.1 }, q.2) := by
    intro q hbelow hsite hsame
    have hw := h.holds.1
    exact h.handed (Nat.le_refl _) hw.flushed_le
      ⟨⟨hbelow, hw.flushed_le, hw.staged_le, hw.settle⟩, hsite⟩ (handed_refl content w hsame)
  rw [ends_onBelow]
  refine ((hsafe (w.below, s) ⟨h.holds.1.below, h.holds.2⟩).and hx).imp ?_ ?_
  · intro _ q hdone
    obtain ⟨⟨hleaves, _⟩, hsame, hq⟩ := hdone
    exact ⟨hkept q hleaves.1.1 hleaves.1.2 hsame, hq⟩
  · intro _ q hfailed
    obtain ⟨⟨hleaves, _⟩, hsame⟩ := hfailed
    exact hkept q hleaves.1.1 hleaves.1.2 hsame

theorem Ledger.flush_ends (h : Ledger pools shape store sound content resolver base got p)
    (hsafe : sink.Safe (Site.regime pools shape store) sound)
    (hconserves : sink.Conserves (Site.regime pools shape store) sound content closed) :
    Ends (flush sink) p (fun _ => Ledger pools shape store sound content resolver base got)
      (fun _ => Ledger pools shape store sound content resolver base got) := by
  simp only [flush, ends_bind]
  refine ((takes_ledger hsafe hconserves resolver base).requireOpen_ends got h).imp ?_ fun _ _ h => h.1
  intro _ p' hsame
  subst hsame
  refine (h.pass hsafe hconserves).imp ?_ fun _ _ h => h.1
  intro _ p' hpassed
  have hkept := hconserves.flush _ _ hpassed.1.holds.1.below hpassed.1.holds.2
  exact (hpassed.1.below (fun _ _ => True) hsafe.flush
    (hkept.imp (fun _ _ hsame => ⟨hsame, trivial⟩) fun _ _ => id)).imp (fun _ _ h => h.1) fun _ _ => id

-- What others do to the tier is no matter of the destination.
theorem Ledger.aside (h : Ledger pools shape store sound content resolver base got p) (a : Aside) :
    Ledger pools shape store sound content resolver base got (p.1, a.on p.2) :=
  ⟨⟨h.holds.1, h.holds.2.1.aside a, h.holds.2.2⟩, h.settle, h.aligned, h.size, h.conserved⟩

-- Every call but a close keeps the books.
theorem Ledger.afterCall (h : Ledger pools shape store sound content resolver base got p)
    (hsafe : sink.Safe (Site.regime pools shape store) sound)
    (hconserves : sink.Conserves (Site.regime pools shape store) sound content closed) {call : Call}
    (hcall : call ≠ .close) :
    Ledger pools shape store sound content resolver base (got ++ taken sink p call)
      (CachedWriter.afterCall sink p call) := by
  cases call with
  | write data =>
    have hends : ∃ first rest, first ++ rest = data ∧
        Ledger pools shape store sound content resolver base (got ++ first)
          (CachedWriter.afterCall sink p (.write data)) := by
      refine ((h.write_ends hsafe hconserves data).imp (fun _ p' hdone => ?_) fun _ _ => id).outcome
      exact ⟨data, ByteArray.empty, ByteArray.append_empty, hdone⟩
    obtain ⟨first, rest, rfl, h'⟩ := hends
    rw [taken, h.slice_eq h']
    exact h'
  | flush =>
    rw [taken, ByteArray.append_empty]
    exact (h.flush_ends hsafe hconserves).outcome
  | close => exact absurd rfl hcall
  | aside a =>
    rw [taken, ByteArray.append_empty]
    exact h.aside a

theorem Ledger.after (h : Ledger pools shape store sound content resolver base got p)
    (hsafe : sink.Safe (Site.regime pools shape store) sound)
    (hconserves : sink.Conserves (Site.regime pools shape store) sound content closed)
    {calls : List Call} (hcalls : ∀ call ∈ calls, call ≠ .close) :
    Ledger pools shape store sound content resolver base (got ++ accepted sink p calls)
      (CachedWriter.after sink p calls) := by
  induction calls generalizing p got with
  | nil =>
    rw [accepted, ByteArray.append_empty]
    exact h
  | cons call calls ih =>
    obtain ⟨hcall, hrest⟩ := List.forall_mem_cons.mp hcalls
    rw [accepted, ← ByteArray.append_assoc]
    exact ih (h.afterCall hsafe hconserves hcall) hrest

-- Who goes on from the position of the writer after each call has handed on a start of the file.
theorem Ledger.resumed (h : Ledger pools shape store sound content resolver 0 got p)
    (hsafe : sink.Safe (Site.regime pools shape store) sound)
    (hconserves : sink.Conserves (Site.regime pools shape store) sound content closed) {file : Bytes}
    (hgot : got = Bytes.slice file 0 got.size) {calls : List Call}
    (hcalls : ∀ call ∈ calls, call ≠ .close) (hresumes : Resumes sink file p calls) :
    got ++ accepted sink p calls = Bytes.slice file 0 (got ++ accepted sink p calls).size := by
  induction calls generalizing p got with
  | nil =>
    rw [accepted, ByteArray.append_empty]
    exact hgot
  | cons call calls ih =>
    obtain ⟨hcall, hrest⟩ := List.forall_mem_cons.mp hcalls
    obtain ⟨hwrite, hresumes⟩ := hresumes
    rw [accepted, ← ByteArray.append_assoc]
    refine ih (h.afterCall hsafe hconserves hcall) ?_ hrest hresumes
    cases call with
    | write data =>
      have hdata := hwrite data rfl
      have hposition := h.position
      rw [Nat.zero_add] at hposition
      rw [← hposition] at hdata
      have hsplit := Bytes.slice_append_rest data
        ((CachedWriter.afterCall sink p (.write data)).1.position - p.1.position)
      exact Bytes.append_eq_slice hgot (hsplit.trans hdata) (congrArg ByteArray.size hsplit)
    | flush => rwa [taken, ByteArray.append_empty]
    | close => exact absurd rfl hcall
    | aside a => rwa [taken, ByteArray.append_empty]

-- Once all that was staged is handed on, the destination has all that was taken.
theorem Ledger.content_eq (h : Ledger pools shape store sound content resolver base got p)
    (hall : p.1.flushed = p.1.staged.size) : content p.1.below p.2.store = got := by
  rw [← h.conserved, unhanded, hall, Nat.sub_self, Bytes.slice_zero, ByteArray.append_empty]

theorem Ledger.finish_ends (h : Ledger pools shape store sound content resolver base got p)
    (hsafe : sink.Safe (Site.regime pools shape store) sound)
    (hconserves : sink.Conserves (Site.regime pools shape store) sound content closed) :
    Ends (finish sink) p
      (fun _ q => Ledger pools shape store sound content resolver base got q ∧
        content q.1.below q.2.store = got ∧ closed q.1.below q.2.store)
      (fun _ => Ledger pools shape store sound content resolver base got) := by
  simp only [finish, ends_bind]
  refine (h.pass hsafe hconserves).imp ?_ fun _ _ hfailed => hfailed.1
  intro _ q hpassed
  obtain ⟨hq, hstaged, hflushed⟩ := hpassed
  have hcontent := hq.content_eq (hflushed.trans (congrArg ByteArray.size hstaged).symm)
  refine hq.below (fun out st => content out st = got ∧ closed out st) hsafe.close ?_
  exact (hconserves.close _ _ hq.holds.1.below hq.holds.2).imp
    (fun _ _ hdone => ⟨hdone.1, hdone.1.trans hcontent, hdone.2⟩) fun _ _ => id

-- The writer is closed, and so is the destination, with all that was taken.
structure Shut (content : δ → β → Bytes) (closed : δ → β → Prop) (got : Bytes)
    (p : CachedWriter δ (Site β) × Site β) : Prop where
  settle : p.1.settle = none
  content : content p.1.below p.2.store = got
  closed : closed p.1.below p.2.store

-- Settling a final name changes nothing of what was written.
def Settles (g : Regime (Site β)) (content : δ → β → Bytes) (closed : δ → β → Prop)
    (settle : Act (Site β) String) : Prop :=
  ∀ out s, g.holds s → Ends settle s
    (fun _ s' => content out s'.store = content out s.store ∧
      (closed out s.store → closed out s'.store))
    (fun _ s' => content out s'.store = content out s.store ∧
      (closed out s.store → closed out s'.store))

theorem Shut.settleName_ends (h : Shut content closed got p) (location : String)
    (name : Except StorageError String) :
    Ends (settleName location name) p (fun _ => Shut content closed got)
      (fun _ => Shut content closed got) := by
  obtain ⟨w, s⟩ := p
  have hkept (t : Tier) : Shut content closed got (w, { s with tier := t }) :=
    ⟨h.settle, h.content, h.closed⟩
  cases name with
  | ok final =>
    simp only [settleName, ends_onTier]
    exact .always (fun _ t => hkept t) fun _ t => hkept t
  | error e =>
    simp only [settleName, ends_bind, ends_onTier, ends_fail]
    exact .always (fun _ t => hkept t) fun _ t => hkept t

-- The last part of a close.
def settling (location : String) (settle : Act (Site β) String) : Run δ β Unit := do
  let name ← Act.onPart Prod.snd (fun (w, _) s => (w, s)) (Act.attempt settle)
  settleName location name

theorem Shut.settling_ends (h : Shut content closed got p) {g : Regime (Site β)} (hp : g.holds p.2)
    (hsettles : Settles g content closed settle) (location : String) :
    Ends (settling location settle) p (fun _ => Shut content closed got)
      (fun _ => Shut content closed got) := by
  have hkept : ∀ s' : Site β, content p.1.below s'.store = content p.1.below p.2.store ∧
      (closed p.1.below p.2.store → closed p.1.below s'.store) →
      Shut content closed got (p.1, s') := fun s' hs' =>
    ⟨h.settle, hs'.1.trans h.content, hs'.2 h.closed⟩
  simp only [settling, ends_bind, ends_onPart, ends_attempt]
  refine (hsettles p.1.below p.2 hp).imp (fun name s' hs' => ?_) fun e s' hs' => ?_
  · exact (hkept s' hs').settleName_ends location (.ok name)
  · cases e with
    | error e => exact (hkept s' hs').settleName_ends location (.error e)
    | breach b => exact hkept s' hs'

theorem ends_close (hsettle : p.1.settle = some settle)
    {done : Unit → CachedWriter δ (Site β) × Site β → Prop}
    {failed : Failure → CachedWriter δ (Site β) × Site β → Prop} :
    Ends (close sink) p done failed ↔ Ends (finish sink) (closing p)
      (fun _ q => Ends (settling p.1.location settle) q done failed) failed := by
  obtain ⟨w, s⟩ := p
  have hsettle : w.settle = some settle := hsettle
  simp only [close, finish, settling, closing, ends_bind, ends_get, hsettle, ends_modifyWriter]

theorem ledger_closing (h : Ledger pools shape store sound content resolver base got p) :
    Ledger pools shape store sound content none base got (closing p) :=
  ⟨⟨⟨h.holds.1.below, h.holds.1.flushed_le, h.holds.1.staged_le,
    fun _ hx => absurd hx (Option.not_mem_none _)⟩, h.holds.2⟩, rfl, h.aligned, h.size, h.conserved⟩

-- A close that succeeds has got through to the destination.
theorem Ledger.close_ends (h : Ledger pools shape store sound content (some settle) base got p)
    (hsafe : sink.Safe (Site.regime pools shape store) sound)
    (hconserves : sink.Conserves (Site.regime pools shape store) sound content closed)
    (hsettles : Settles (Site.regime pools shape store) content closed settle) :
    Ends (close sink) p (fun _ => Shut content closed got) (fun _ p' =>
      (outcome (finish sink) (closing p)).1 = .ok () →
        Shut content closed got p') := by
  rw [ends_close h.settle]
  have hends := (ledger_closing h).finish_ends hsafe hconserves
  cases hrun : finish sink (closing p) with
  | ok _ q =>
    obtain ⟨hq, hcontent, hclosed⟩ := hends.ok hrun
    simp only [Ends, hrun]
    exact (Shut.settling_ends ⟨hq.settle, hcontent, hclosed⟩ hq.holds.2 hsettles p.1.location).imp
      (fun _ _ => id) fun _ _ hshut _ => hshut
  | error e q =>
    simp only [Ends, outcome, hrun]
    intro hfinished
    cases hfinished

-- A closed writer refuses every call but a close, which does nothing.
theorem Shut.write_ends (h : Shut content closed got p) (data : Bytes) :
    Ends (write sink data) p (fun _ p' => p' = p) (fun _ p' => p' = p) := by
  simp only [write, requireOpen, ends_bind, ends_get, h.settle, Option.isNone_none, if_true, ends_fail]

theorem Shut.flush_ends (h : Shut content closed got p) :
    Ends (flush sink) p (fun _ p' => p' = p) (fun _ p' => p' = p) := by
  simp only [flush, requireOpen, ends_bind, ends_get, h.settle, Option.isNone_none, if_true, ends_fail]

theorem Shut.close_ends (h : Shut content closed got p) :
    Ends (close sink) p (fun _ p' => p' = p) (fun _ _ => False) := by
  simp only [close, ends_bind, ends_get, h.settle, ends_pure]

theorem Shut.afterCall (h : Shut content closed got p) (call : Call) :
    Shut content closed (got ++ taken sink p call) (CachedWriter.afterCall sink p call) := by
  cases call with
  | write data =>
    have hsame : CachedWriter.afterCall sink p (.write data) = p := (h.write_ends data).outcome
    rwa [taken, hsame, Nat.sub_self, Bytes.slice_zero, ByteArray.append_empty]
  | flush =>
    have hsame : CachedWriter.afterCall sink p .flush = p := h.flush_ends.outcome
    rwa [taken, hsame, ByteArray.append_empty]
  | close =>
    have hsame : CachedWriter.afterCall sink p .close = p :=
      (h.close_ends.imp (fun _ _ => id) fun _ _ => False.elim).outcome
    rwa [taken, hsame, ByteArray.append_empty]
  | aside a =>
    rw [taken, ByteArray.append_empty]
    exact ⟨h.settle, h.content, h.closed⟩

-- As long as no close is stopped by the destination, the writer is open and its books are right, or
-- it is closed with nothing left in it.
theorem booked_after (hsafe : sink.Safe (Site.regime pools shape store) sound)
    (hconserves : sink.Conserves (Site.regime pools shape store) sound content closed)
    (hsettles : Settles (Site.regime pools shape store) content closed settle) {calls : List Call}
    (h : Ledger pools shape store sound content (some settle) base got p ∨
      Shut content closed got p) (hthrough : Through sink p calls) :
    Ledger pools shape store sound content (some settle) base (got ++ accepted sink p calls)
        (after sink p calls) ∨
      Shut content closed (got ++ accepted sink p calls) (after sink p calls) := by
  induction calls generalizing p got with
  | nil =>
    rw [accepted, ByteArray.append_empty]
    exact h
  | cons call calls ih =>
    obtain ⟨hfirst, hrest⟩ := hthrough
    rw [accepted, ← ByteArray.append_assoc]
    refine ih ?_ hrest
    rcases h with h | h
    · by_cases hclose : call = .close
      · subst hclose
        right
        rw [taken, ByteArray.append_empty]
        have hopen : p.1.settle.isSome = true := by rw [h.settle, Option.isSome_some]
        exact ((h.close_ends hsafe hconserves hsettles).imp (fun _ _ => id)
          fun _ _ hfailed => hfailed (hfirst rfl hopen)).outcome
      · exact .inl (h.afterCall hsafe hconserves hclose)
    · exact .inr (h.afterCall call)

-- A destination that is calm takes what is left, and stays calm.
theorem passStaged_calm (hsafe : sink.Safe (Site.regime pools shape store) sound)
    (hfaultless : sink.Faultless (Site.regime pools shape store) sound calm ready)
    (hw : (regime pools shape store sound).holds (w, s)) (hcalm : calm w.below s.store) :
    Ends (passStaged sink) (w, s) (fun _ p => calm p.1.below p.2.store) (fun _ _ => False) := by
  obtain ⟨⟨hbelow, hflushed, hstaged, _⟩, hs⟩ := hw
  refine ends_passStaged hflushed (fun _ => hcalm) fun _ => ?_
  refine ((hsafe.write _ (w.below, s) ⟨hbelow, hs⟩).and
    (hfaultless.write _ w.below s hbelow hs hcalm)).imp ?_ fun _ _ hfailed => hfailed.2
  intro _ q hdone
  obtain ⟨⟨hleaves, _⟩, hstill⟩ := hdone
  have hblock : 0 + w.staged.size ≤ Grid.blockSize := (Nat.zero_add _).symm ▸ hstaged
  exact (Tier.update_done hleaves.1.2.1 _ _ (hleaves.1.2.1.fits hblock)).imp (fun _ _ _ => hstill)
    fun _ _ => id

theorem Ledger.finish_calm (h : Ledger pools shape store sound content resolver base got p)
    (hsafe : sink.Safe (Site.regime pools shape store) sound)
    (hconserves : sink.Conserves (Site.regime pools shape store) sound content closed)
    (hfaultless : sink.Faultless (Site.regime pools shape store) sound calm ready)
    (hcalm : calm p.1.below p.2.store) :
    Ends (finish sink) p (fun _ q => ready q.2.store) (fun _ _ => False) := by
  simp only [finish, ends_bind]
  refine ((h.pass hsafe hconserves).and (passStaged_calm hsafe hfaultless h.holds hcalm)).imp ?_
    fun _ _ hfailed => hfailed.2
  intro _ q hpassed
  obtain ⟨⟨hq, _⟩, hstill⟩ := hpassed
  rw [ends_onBelow]
  exact hfaultless.close _ _ hq.holds.1.below hq.holds.2 hstill

theorem Ledger.close_calm (h : Ledger pools shape store sound content (some settle) base got p)
    (hsafe : sink.Safe (Site.regime pools shape store) sound)
    (hconserves : sink.Conserves (Site.regime pools shape store) sound content closed)
    (hfaultless : sink.Faultless (Site.regime pools shape store) sound calm ready)
    (hsettle : Safe (Site.regime pools shape store) settle fun _ => True)
    (hnamed : ∀ s, (Site.regime pools shape store).holds s → ready s.store →
      Ends settle s (fun _ _ => True) (fun _ _ => False))
    (hcalm : calm p.1.below p.2.store) :
    Ends (close sink) p (fun _ _ => True) (fun _ _ => False) := by
  rw [ends_close h.settle]
  refine (((ledger_closing h).finish_ends hsafe hconserves).and
    ((ledger_closing h).finish_calm hsafe hconserves hfaultless hcalm)).imp ?_
      fun _ _ hfailed => hfailed.2
  intro _ q hdone
  obtain ⟨⟨hq, _⟩, hready⟩ := hdone
  simp only [settling, ends_bind, ends_onPart, ends_attempt]
  refine ((hsettle q.2 hq.holds.2).and (hnamed q.2 hq.holds.2 hready)).imp ?_
    fun _ _ hfailed => hfailed.2.elim
  intro final s' hdone
  simp only [settleName, ends_onTier]
  exact (Tier.rename_done hdone.1.1.1.1 _ _).imp (fun _ _ _ => trivial) fun _ _ => id

-- What is true of a writer and the bytes it has taken, whichever calls have failed.
structure Conserved (content : δ → β → Bytes) (all : Bytes) (p : CachedWriter δ (Site β) × Site β) :
    Prop where
  flushed_le : p.1.flushed ≤ p.1.staged.size
  staged_le : p.1.staged.size ≤ Grid.blockSize
  aligned : Grid.blockSize ∣ p.1.blockStart
  size : (content p.1.below p.2.store).size = p.1.blockStart + p.1.flushed
  position : p.1.position = all.size
  conserved : content p.1.below p.2.store ++ p.1.unhanded = all

section Fresh

variable {below : δ} {location : String}

-- With the pools and the layout of a site as they are.
abbrev regimeOf (store : Regime β) (s : Site β) : Regime (Site β) :=
  Site.regime s.tier.pools.size s.tier.layout store

-- A writer as it is made.
def fresh (below : δ) (location : String) (settle : Act (Site β) String) :
    CachedWriter δ (Site β) := { below, location, settle := some settle }

theorem ledger_fresh (hfiles : s.tier.Reached) (hpools : ∀ q ∈ s.tier.pools, q.Sound)
    (hsettle : Safe (regimeOf store s) settle fun _ => True)
    (hbelow : sound below) (hst : store.holds s.store) :
    Ledger s.tier.pools.size s.tier.layout store sound content (some settle)
      (content below s.store).size (content below s.store) (fresh below location settle, s) := by
  refine ⟨⟨⟨hbelow, Nat.le_refl _, Nat.zero_le _, fun x hx => Option.some.inj hx ▸ hsettle⟩,
    hfiles.intact hpools, hst⟩, rfl, Nat.dvd_zero _, rfl, ?_⟩
  rw [unhanded]
  exact (congrArg _ (Bytes.slice_zero _ _)).trans ByteArray.append_empty

-- A writer over an empty destination, which may refuse any calls, while others use the cache: what the
-- destination has and what is still unhanded are all that was taken. Who goes on from the position after
-- a failure has handed on the start of the file, and a close that is not refused hands on the rest.
theorem conserved_after (below : δ) (location : String) (settle : Act (Site β) String) (s : Site β)
    (hfiles : s.tier.Reached) (hpools : ∀ q ∈ s.tier.pools, q.Sound)
    (hsafe : sink.Safe (regimeOf store s) sound)
    (hconserves : sink.Conserves (regimeOf store s) sound content closed)
    (hfaultless : sink.Faultless (regimeOf store s) sound calm ready)
    (hsettle : Safe (regimeOf store s) settle fun _ => True)
    (hsettles : Settles (regimeOf store s) content closed settle)
    (hnamed : ∀ s', (regimeOf store s).holds s' → ready s'.store →
      Ends settle s' (fun _ _ => True) (fun _ _ => False))
    (hbelow : sound below) (hst : store.holds s.store)
    (hempty : content below s.store = ByteArray.empty) (calls : List Call)
    (hcalls : ∀ call ∈ calls, call ≠ .close) :
    let start : CachedWriter δ (Site β) × Site β := (fresh below location settle, s)
    let all := accepted sink start calls
    let p := after sink start calls
    Conserved content all p ∧
      (∀ data, Ends (write sink data) p
        (fun _ p' => p'.1.position = p.1.position + data.size)
        (fun _ p' => p.1.position ≤ p'.1.position ∧ p'.1.position ≤ p.1.position + data.size)) ∧
      (∀ file, Resumes sink file start calls → all = Bytes.slice file 0 p.1.position) ∧
      Ends (close sink) p
        (fun _ p' => content p'.1.below p'.2.store = all ∧ closed p'.1.below p'.2.store)
        (fun _ _ => ¬calm p.1.below p.2.store) := by
  intro start all p
  have hstart : Ledger s.tier.pools.size s.tier.layout store sound content (some settle)
      (content below s.store).size (content below s.store) start :=
    ledger_fresh hfiles hpools hsettle hbelow hst
  rw [hempty, ByteArray.size_empty] at hstart
  have h := hstart.after hsafe hconserves hcalls
  rw [ByteArray.empty_append] at h
  have hposition : all.size = p.1.position := h.position.trans (Nat.zero_add _)
  refine ⟨⟨h.holds.1.flushed_le, h.holds.1.staged_le, h.aligned, ?_, hposition.symm, h.conserved⟩,
    fun data => ?_, fun file hresumes => ?_, ?_⟩
  · exact h.size.trans (congrArg (· + p.1.flushed) (Nat.zero_add _))
  · refine (h.write_ends hsafe hconserves data).imp ?_ ?_
    · intro _ p' h'
      have hposition' : all.size + data.size = p'.1.position :=
        ByteArray.size_append.symm.trans (h'.position.trans (Nat.zero_add _))
      omega
    · rintro _ p' ⟨first, rest, rfl, h'⟩
      have hposition' : all.size + first.size = p'.1.position :=
        ByteArray.size_append.symm.trans (h'.position.trans (Nat.zero_add _))
      have hsplit : (first ++ rest).size = first.size + rest.size := ByteArray.size_append
      omega
  · have hresumed := hstart.resumed hsafe hconserves (Bytes.slice_zero file 0).symm hcalls hresumes
    rwa [ByteArray.empty_append, hposition] at hresumed
  · have hclose := h.close_ends hsafe hconserves hsettles
    by_cases hcalm : calm p.1.below p.2.store
    · have hdone := h.close_calm hsafe hconserves hfaultless hsettle hnamed hcalm
      exact (hclose.and hdone).imp (fun _ _ hshut => ⟨hshut.1.content, hshut.1.closed⟩)
        fun _ _ hfailed => hfailed.2.elim
    · exact hclose.imp (fun _ _ hshut => ⟨hshut.content, hshut.closed⟩) fun _ _ _ => hcalm

-- The first flush is refused, and what it could not hand on goes to the destination with the close.
theorem conserved_after_refusal :
    ∃ c, FileCache.ofSizing (.ofLayout 1 8 8192) = .ok c ∧
    let sink := MemoryStore.guarded .script
    let site : Site (Guarded (List Bool) MemoryStore) := ⟨{ files := some c }, ⟨[true], {}⟩⟩
    let start := (fresh { name := "f" } "d/f" (pure "d/f:1"), site)
    let calls : List Call :=
      [.write ⟨#[1, 2]⟩, .flush, .aside (.call (.update "d/g" 0 0 ⟨#[9]⟩)), .write ⟨#[3]⟩]
    let all := accepted sink start calls
    all = ⟨#[1, 2, 3]⟩ ∧
      ∃ p, p = after sink start calls ∧ Conserved (fun out _ => out.buffer) all p ∧ p.1.flushed = 0 ∧
        Ends (close sink) p (fun _ p' => p'.1.below.buffer = all ∧ p'.1.below.closed = true)
          (fun _ _ => False) := by
  refine ⟨_, rfl, ?_⟩
  intro sink site start calls all
  have hfiles : site.tier.Reached :=
    Tier.reached_of_sizing (show FileCache.ofSizing (.ofLayout 1 8 8192) = _ from rfl) rfl
  have hstore : (Guarded.regime MemoryStore.regime).holds site.store := MemoryStore.holds_empty
  obtain ⟨hconserved, _, _, hclose⟩ := conserved_after { name := "f" } "d/f" (pure "d/f:1") site hfiles
    (fun q hq => absurd hq (Array.not_mem_empty q)) (MemoryStore.guarded_safe .script _ _)
    (MemoryStore.guarded_conserves .script _) (MemoryStore.scripted_faultless _) (.pure trivial)
    (fun _ _ _ => ⟨rfl, id⟩) (fun _ _ _ => trivial) trivial hstore rfl calls (by simp [calls])
  have hcalm : (after sink start calls).2.store.guard = [] ∧
      (after sink start calls).1.below.closed = false := by decide +kernel
  exact ⟨by decide +kernel, _, rfl, hconserved, by decide +kernel,
    hclose.imp (fun _ _ => id) fun _ _ hstopped => hstopped hcalm⟩

-- A close that succeeds, the first or a later one, means that the destination has all that was taken
-- and is closed, as long as no close before it was stopped by the destination.
theorem delivered_of_close (below : δ) (location : String) (settle : Act (Site β) String) (s : Site β)
    (hfiles : s.tier.Reached) (hpools : ∀ q ∈ s.tier.pools, q.Sound)
    (hsafe : sink.Safe (regimeOf store s) sound)
    (hconserves : sink.Conserves (regimeOf store s) sound content closed)
    (hsettle : Safe (regimeOf store s) settle fun _ => True)
    (hsettles : Settles (regimeOf store s) content closed settle)
    (hbelow : sound below) (hst : store.holds s.store) (calls : List Call) :
    let start : CachedWriter δ (Site β) × Site β := (fresh below location settle, s)
    let p := after sink start calls
    Through sink start calls → ∀ p', close sink p = .ok () p' →
      content p'.1.below p'.2.store = content below s.store ++ accepted sink start calls ∧
        closed p'.1.below p'.2.store := by
  intro start p hthrough p' hclose
  have hstart : Ledger s.tier.pools.size s.tier.layout store sound content (some settle)
      (content below s.store).size (content below s.store) start :=
    ledger_fresh hfiles hpools hsettle hbelow hst
  rcases booked_after hsafe hconserves hsettles (.inl hstart) hthrough with h | h
  · have hshut := (h.close_ends hsafe hconserves hsettles).ok hclose
    exact ⟨hshut.content, hshut.closed⟩
  · obtain rfl := h.close_ends.ok hclose
    exact ⟨h.content, h.closed⟩

-- The first flush is refused. The close gets through to the destination but finds no final name, and
-- closing again succeeds.
theorem delivered_of_close_unnamed :
    ∃ c, FileCache.ofSizing (.ofLayout 1 8 8192) = .ok c ∧
    let sink := MemoryStore.guarded .script
    let site : Site (Guarded (List Bool) MemoryStore) := ⟨{ files := some c }, ⟨[true], {}⟩⟩
    let start := (fresh { name := "f" } "d/f" (Act.fail (.fileNotFound "f")), site)
    let calls : List Call := [.write ⟨#[1]⟩, .flush, .write ⟨#[2]⟩, .close]
    Through sink start calls ∧ accepted sink start calls = ⟨#[1, 2]⟩ ∧
      ∃ p', close sink (after sink start calls) = .ok () p' ∧ p'.1.below.buffer = ⟨#[1, 2]⟩ ∧
        p'.1.below.closed = true := by
  refine ⟨_, rfl, ?_⟩
  intro sink site start calls
  have hfiles : site.tier.Reached :=
    Tier.reached_of_sizing (show FileCache.ofSizing (.ofLayout 1 8 8192) = _ from rfl) rfl
  have hstore : (Guarded.regime MemoryStore.regime).holds site.store := MemoryStore.holds_empty
  have hthrough : Through sink start calls :=
    ⟨nofun, nofun, nofun, fun _ _ => by decide +kernel, trivial⟩
  have hall : accepted sink start calls = ⟨#[1, 2]⟩ := by decide +kernel
  obtain ⟨p', hp'⟩ : ∃ p', close sink (after sink start calls) = .ok () p' :=
    ⟨_, eq_ok_of_outcome (by decide +kernel)⟩
  have hclose := delivered_of_close { name := "f" } "d/f" (Act.fail (.fileNotFound "f")) site hfiles
    (fun q hq => absurd hq (Array.not_mem_empty q)) (MemoryStore.guarded_safe .script _ _)
    (MemoryStore.guarded_conserves .script _) (.fail _) (fun _ _ _ => ⟨rfl, id⟩) trivial hstore calls
  obtain ⟨hcontent, hclosed⟩ := hclose hthrough p' hp'
  exact ⟨hthrough, hall, p', hp', hcontent.trans (ByteArray.empty_append.trans hall), hclosed⟩

-- The close is refused by the destination and has given up its byte: closing again succeeds, although
-- the destination has nothing and is open.
theorem close_ok_undelivered :
    ∃ c, FileCache.ofSizing (.ofLayout 1 8 8192) = .ok c ∧
    let sink := MemoryStore.guarded .script
    let site : Site (Guarded (List Bool) MemoryStore) := ⟨{ files := some c }, ⟨[true], {}⟩⟩
    let start := (fresh { name := "f" } "d/f" (pure "d/f:1"), site)
    let written := after sink start [.write ⟨#[120]⟩]
    let failed := after sink start [.write ⟨#[120]⟩, .close]
    let again := after sink start [.write ⟨#[120]⟩, .close, .close]
    (outcome (close sink) written).1 = .error (.error (.io (.other "refused"))) ∧
      (outcome (close sink) failed).1 = .ok () ∧
      accepted sink start [.write ⟨#[120]⟩, .close] = ⟨#[120]⟩ ∧
      again.1.below.buffer = ByteArray.empty ∧ again.1.below.closed = false :=
  ⟨_, rfl, by decide +kernel, by decide +kernel, by decide +kernel, by decide +kernel,
    by decide +kernel⟩

end Fresh

end CachedWriter

end Blockwise
