import Blockwise.Proofs.Session.Inputs
import Blockwise.Proofs.Session.Outputs

namespace Blockwise

open Act

namespace Session

variable {scope : Scope} {d : Directory} {seen : String → Option Bytes} {history : Nat → Bytes}
  {sh sh' : Shelf} {x : Session} {s : Step} {name handle : String} {out : AnyOutput}
  {outputs outputs' : Std.TreeMap String AnyOutput}

def draftOf (x : Session) (handle : String) :
    Option (CachedWriter World.Out (Site World) × MemoryOutput) :=
  x.outputs[handle]?.bind draft

-- Staged bytes of a trusted output are handed on only while it is alone on its file.
def PassesAlone (scope : Scope) (x : Session) (handle : String) : Prop :=
  ∀ w o, x.draftOf handle = some (w, o) → scope.trusted o.name → w.staged.size ≠ w.flushed →
    x.Alone handle o.name

-- An output that has nothing left to publish is the file, if there is one.
def Settled (scope : Scope) (x : Session) (handle : String) : Prop :=
  ∀ w o, x.draftOf handle = some (w, o) → scope.trusted o.name → w.staged.size = w.flushed →
    o.dirty = false → ∀ data, x.current o.name = some data → data = o.buffer

-- The steps of users of the directory, and of others past it. Calls of the store may be refused at
-- any time.
def Careful (scope : Scope) (x : Session) : Step → Prop
  | .openInput on _ _ _ => on = .directory 0
  | .create on name _ _ => on = .directory 0 ∧ scope.names name
  | .delete on _ => on = .directory 0
  | .put i name _ => i = 0 ∧ scope.names name
  | .setFault i _ => i = 0
  | .clearFault i _ => i = 0
  | .write handle data => ∀ w o, x.draftOf handle = some (w, o) → scope.trusted o.name →
    Grid.blockSize ≤ w.staged.size + data.size → x.Alone handle o.name
  | .flush handle => x.PassesAlone scope handle
  | .closeOutput handle => x.PassesAlone scope handle ∧ x.Settled scope handle
  | .seek _ _ | .read _ _ | .clone _ _ | .drop _ => True
  | _ => False

def seenAfter (x : Session) (seen : String → Option Bytes) (s : Step) : String → Option Bytes :=
  match s with
  | .openInput _ name _ handle => noted seen handle (x.current name) (x.step s).1.answer
  | .clone handle copy => noted seen copy (seen handle) (x.step s).1.answer
  | _ => seen

-- The outputs with another one, or none, under a handle.
def Becomes (outputs : Std.TreeMap String AnyOutput) (handle : String) (out : Option AnyOutput)
    (outputs' : Std.TreeMap String AnyOutput) : Prop :=
  ∀ other : String, outputs'[other]? = if handle = other then out else outputs[other]?

-- The output that a step calls.
def Step.calls : Step → Option String
  | .write handle _ => some handle
  | .flush handle => some handle
  | .closeOutput handle => some handle
  | _ => none

def Step.setsFaults : Step → Bool
  | .setFault _ _ => true
  | .clearFault _ _ => true
  | _ => false

-- What a step does to the shelf and the outputs, if it does anything to them.
inductive Effect (sh : Shelf) (outputs : Std.TreeMap String AnyOutput) :
    Step → Shelf → Std.TreeMap String AnyOutput → Prop
  | none (s : Step) : Effect sh outputs s sh outputs
  | put (i : Nat) (name : String) (data : Bytes) :
      Effect sh outputs (.put i name data) (sh.publish name data) outputs
  | create (on : Target) (name : String) (purpose : Purpose) (handle : String) (out : AnyOutput)
      (outputs' : Std.TreeMap String AnyOutput) (hname : sink.name out = name)
      (hclean : Clean (sh.publish name ByteArray.empty) out)
      (hbecomes : Becomes outputs handle (some out) outputs') :
      Effect sh outputs (.create on name purpose handle) (sh.publish name ByteArray.empty) outputs'
  | delete (on : Target) (name : String) :
      Effect sh outputs (.delete on name) (sh.erase name) outputs
  | call (s : Step) (handle : String) (hcalls : s.calls = some handle) (out out' : AnyOutput)
      (hout : outputs[handle]? = some out) (sh' : Shelf) (hadvances : Advances sh sh' out out')
      (outputs' : Std.TreeMap String AnyOutput)
      (hbecomes : Becomes outputs handle (some out') outputs') : Effect sh outputs s sh' outputs'
  | drop (handle : String) (outputs' : Std.TreeMap String AnyOutput)
      (hbecomes : Becomes outputs handle none outputs') : Effect sh outputs (.drop handle) sh outputs'
  | faults (s : Step) (hs : s.setsFaults = true) (calm : Bool) :
      Effect sh outputs s { sh with calm } outputs

theorem becomes_insert (outputs : Std.TreeMap String AnyOutput) (handle : String)
    (out : AnyOutput) : Becomes outputs handle (some out) (outputs.insert handle out) :=
  fun other => Maps.getElem?_insert outputs handle other out

theorem becomes_dropOutput (x : Session) (handle : String) :
    Becomes x.outputs handle none (x.dropOutput handle).outputs := by
  intro other
  unfold dropOutput
  split
  · next hnone =>
    split
    · next heq => rw [← heq, hnone]
    · rfl
  · exact Maps.getElem?_erase x.outputs handle other

theorem becomes_keepOutput (x : Session) (handle : String) (out : AnyOutput) :
    Becomes x.outputs handle (some out) (x.keepOutput handle out).outputs := by
  intro other
  rw [keepOutput, Maps.getElem?_insert]
  split
  · rfl
  · next hne => rw [becomes_dropOutput x handle other, if_neg hne]

namespace Tracked

theorem create (h : Tracked scope d seen history sh x) (hname : scope.names name)
    (purpose : Purpose) (handle : String) :
    ∃ history' sh',
      Tracked scope d seen history' sh' (x.create (.directory 0) name purpose handle).2 ∧
      Effect sh x.outputs (.create (.directory 0) name purpose handle) sh'
        (x.create (.directory 0) name purpose handle).2.outputs := by
  have hends := Directory.create_ends h.onShelf d name purpose
  unfold Session.create
  simp only [h.volume_eq, Directory.volume]
  cases hrun : d.create (World.cellar 0) name purpose x.site with
  | error e site =>
    obtain ⟨htier, hshelf⟩ := hends.error hrun
    exact ⟨history, sh, h.withSite hshelf (htier ▸ h.honest), .none _⟩
  | ok out site =>
    obtain ⟨tier, store⟩ := site
    obtain ⟨⟨rfl, hshelf⟩, hout⟩ := hends.ok hrun
    obtain ⟨history', h'⟩ := h.publish hname ByteArray.empty hshelf
    have hnew : Penned scope d out ∧ sink.name out = name ∧ ∀ w o, draft out = some (w, o) →
        o = ({ name } : MemoryOutput) := by
      rcases hout with rfl | rfl
      · refine ⟨.plain { name } hname (fun hclosed => absurd hclosed Bool.false_ne_true), rfl,
          fun _ _ hdraft => ?_⟩
        cases hdraft
      · refine ⟨.cached _ _ (drafting_new hname d), rfl, fun _ _ hdraft => ?_⟩
        cases hdraft
        rfl
    obtain ⟨hpenned, hsink, hdraft⟩ := hnew
    refine ⟨history', sh.publish name ByteArray.empty, h'.keepNew hpenned (fun w o ho => ?_) handle,
      .create _ _ _ _ out _ hsink (fun w o ho _ file hfile => ?_)
        (becomes_keepOutput { x with site := ⟨x.site.tier, store⟩ } handle out)⟩
    · rw [hdraft w o ho]
    · rw [hdraft w o ho, Shelf.publish, Maps.getElem?_insert, if_pos rfl] at hfile
      rw [hdraft w o ho, ← Option.some.inj hfile]

theorem delete (h : Tracked scope d seen history sh x) (name : String) :
    ∃ sh', Tracked scope d seen history sh'
        (x.onVolume (.directory 0) (·.delete name) fun _ => .done).2 ∧
      Effect sh x.outputs (.delete (.directory 0) name) sh'
        (x.onVolume (.directory 0) (·.delete name) fun _ => .done).2.outputs := by
  have hends := Directory.delete_ends h.onShelf h.honest d name
  simp only [onVolume, h.volume_eq, Directory.volume, answering]
  cases hrun : d.delete (World.cellar 0) name x.site with
  | ok a site =>
    obtain ⟨tier, ⟨rfl, hshelf⟩, hhonest⟩ := hends.ok hrun
    exact ⟨_, h.advance (h.filed.erase name) ⟨Nat.le_refl _, fun _ _ => rfl⟩ hshelf hhonest,
      .delete _ _⟩
  | error e site =>
    obtain ⟨tier, ⟨rfl, hshelf⟩, hhonest⟩ := hends.error hrun
    exact ⟨sh, h.withSite hshelf hhonest, .none _⟩

theorem put (h : Tracked scope d seen history sh x) (hname : scope.names name) (data : Bytes) :
    ∃ history' sh', Tracked scope d seen history' sh'
        (x.onBackend 0 (fun s => { s with inner := s.inner.publish name data }) id .done).2 ∧
      Effect sh x.outputs (.put 0 name data) sh'
        (x.onBackend 0 (fun s => { s with inner := s.inner.publish name data }) id
          .done).2.outputs := by
  simp only [onBackend, h.backend_eq]
  obtain ⟨t, ht, rfl⟩ := World.exists_of_shelf h.shelf
  have hshelf :
      (World.dropHandle (fun (_ : Unit) s => { s with inner := s.inner.publish name data })
        (fun (_ : Unit) => id) (.memory 0 ()) x.site.store).shelf 0 =
          some (t.shelf.publish name data) := by
    rw [World.dropHandle, World.shelf_modify, ht]
    rfl
  obtain ⟨history', h'⟩ := h.publish hname data hshelf
  exact ⟨history', _, h', .put 0 name data⟩

theorem guard (h : Tracked scope d seen history sh x) (f : Faults → Faults)
    (g : Guarded Faults DiskStore → Guarded Faults DiskStore) (hs : s.setsFaults = true) :
    ∃ history' sh', Tracked scope d seen history' sh'
        (x.onBackend 0 (fun s => { s with guard := f s.guard }) g .done).2 ∧
      Effect sh x.outputs s sh'
        (x.onBackend 0 (fun s => { s with guard := f s.guard }) g .done).2.outputs := by
  simp only [onBackend, h.backend_eq]
  obtain ⟨t, ht, rfl⟩ := World.exists_of_shelf h.shelf
  refine ⟨history, { t.shelf with calm := (Guarded.shelf { t with guard := f t.guard }).calm },
    h.advance h.filed ⟨Nat.le_refl _, fun _ _ => rfl⟩ ?_ h.honest, .faults s hs _⟩
  rw [World.dropHandle, World.shelf_modify, ht]
  rfl

theorem drop (h : Tracked scope d seen history sh x) (handle : String) :
    Tracked scope d seen history sh (x.drop handle).2 ∧
      Becomes x.outputs handle none (x.drop handle).2.outputs := by
  have herased : Tracked scope d seen history sh { x with inputs := x.inputs.erase handle } :=
    { h with
      inputs := fun other r hr => by
        rw [Maps.getElem?_erase] at hr
        split at hr
        · cases hr
        · exact h.inputs other r hr }
  have hdropped := herased.dropOutput handle
  simp only [Session.drop, dropLock, hdropped.locks, Std.TreeMap.getElem?_emptyc]
  exact ⟨hdropped, becomes_dropOutput { x with inputs := x.inputs.erase handle } handle⟩

theorem onOutput {act : Act (AnyOutput × Site World) Unit}
    (h : Tracked scope d seen history sh x) (hcalls : s.calls = some handle)
    (hact : ∀ out, x.outputs[handle]? = some out → Ends act (out, x.site)
      (fun _ => Left scope d seen x sh handle out) (fun _ => Left scope d seen x sh handle out)) :
    ∃ history' sh', Tracked scope d seen history' sh' (x.onOutput handle act).2 ∧
      Effect sh x.outputs s sh' (x.onOutput handle act).2.outputs := by
  unfold Session.onOutput
  cases hout : x.outputs[handle]? with
  | none => exact ⟨history, sh, h, .none _⟩
  | some out =>
    have hends := hact out hout
    have hleft (p : AnyOutput × Site World) (hp : Left scope d seen x sh handle out p) :
        ∃ history' sh', Tracked scope d seen history' sh'
            { x with site := p.2, outputs := x.outputs.insert handle p.1 } ∧
          Effect sh x.outputs s sh' (x.outputs.insert handle p.1) := by
      obtain ⟨history', sh', htracked, hadvances⟩ := hp
      exact ⟨history', sh', htracked,
        .call s handle hcalls out p.1 hout sh' hadvances _ (becomes_insert _ _ _)⟩
    cases hrun : act (out, x.site) with
    | ok a p =>
      simp only [hrun]
      exact hleft p (hends.ok hrun)
    | error e p =>
      simp only [hrun]
      exact hleft p (hends.error hrun)

theorem draftOf_eq {w : CachedWriter World.Out (Site World)} {o : MemoryOutput}
    (hout : x.outputs[handle]? = some out) (hdraft : draft out = some (w, o)) :
    x.draftOf handle = some (w, o) := by
  rw [draftOf, hout, Option.bind_some, hdraft]

-- One careful step keeps the session tracked, with what it opened taken down.
theorem step (h : Tracked scope d seen history sh x) (hs : x.Careful scope s) :
    ∃ history' sh', Tracked scope d (x.seenAfter seen s) history' sh' (x.step s).2 ∧
      Effect sh x.outputs s sh' (x.step s).2.outputs := by
  have hfresh := h.fresh
  have hsame (x' : Session) (hx' : x'.outputs = x.outputs) : Effect sh x.outputs s sh x'.outputs :=
    hx' ▸ .none s
  cases s with
  | openInput on name purpose handle =>
    obtain rfl := hs
    exact ⟨history, sh, hfresh.openInput name purpose handle, hsame _ (outputs_openInput _ _ _)⟩
  | create on name purpose handle =>
    obtain ⟨rfl, hname⟩ := hs
    exact hfresh.create hname purpose handle
  | delete on name =>
    obtain rfl := hs
    obtain ⟨sh', hdeleted⟩ := hfresh.delete name
    exact ⟨history, sh', hdeleted⟩
  | put i name data =>
    obtain ⟨rfl, hname⟩ := hs
    exact hfresh.put hname data
  | setFault i fault =>
    obtain rfl := hs
    exact hfresh.guard (·.put fault) (fun s => { s with guard := s.guard.put fault }) rfl
  | clearFault i kind =>
    obtain rfl := hs
    exact hfresh.guard (·.clear kind) (fun s => { s with guard := s.guard.clear kind }) rfl
  | seek handle position =>
    exact ⟨history, sh, hfresh.seek handle position, hsame _ (outputs_seek _)⟩
  | read handle len => exact ⟨history, sh, hfresh.read handle len, hsame _ (outputs_read _)⟩
  | clone handle copy => exact ⟨history, sh, hfresh.clone handle copy, hsame _ (outputs_clone _)⟩
  | write handle data =>
    refine hfresh.onOutput rfl fun out hout => hfresh.write_ends hout data fun w o hdraft => ?_
    exact hs w o (draftOf_eq hout hdraft)
  | flush handle =>
    refine hfresh.onOutput rfl fun out hout => hfresh.flush_ends hout fun w o hdraft => ?_
    exact hs w o (draftOf_eq hout hdraft)
  | closeOutput handle =>
    refine hfresh.onOutput rfl fun out hout => hfresh.close_ends hout (fun w o hdraft => ?_)
      fun w o hdraft htrusted hidle hdirty file hfile => ?_
    · exact hs.1 w o (draftOf_eq hout hdraft)
    · refine hs.2 w o (draftOf_eq hout hdraft) htrusted hidle hdirty file.data ?_
      rw [h.current_eq, hfile]
      rfl
  | drop handle =>
    obtain ⟨hdropped, hbecomes⟩ := hfresh.drop handle
    exact ⟨history, sh, hdropped, .drop handle _ hbecomes⟩
  | _ => exact hs.elim

end Tracked

-- The sessions that steps of a kind lead to, and what each input was opened on.
inductive Reached (allowed : Session → Step → Prop) (start : Session) :
    Session → (String → Option Bytes) → Prop
  | start : Reached allowed start start fun _ => none
  | step {x : Session} {seen : String → Option Bytes} (h : Reached allowed start x seen) (s : Step)
      (hs : allowed x s) : Reached allowed start (x.step s).2 (x.seenAfter seen s)

theorem Reached.tracked {start : Session} (hrun : Reached (Careful scope) start x seen)
    (h : Tracked scope d (fun _ => none) history sh start) :
    ∃ history' sh', Tracked scope d seen history' sh' x := by
  induction hrun with
  | start => exact ⟨history, sh, h⟩
  | step hrun s hs ih =>
    obtain ⟨_, _, h'⟩ := ih
    obtain ⟨history', sh', hstep, _⟩ := h'.step hs
    exact ⟨history', sh', hstep⟩

theorem pool_new {policy : Policy} {pool : Nat} {below : AnyVolume}
    (h : Directory.new name policy pool below = .ok d) : d.pool = pool := by
  unfold Directory.new at h
  simp only at h
  split at h
  · cases h
  · exact (congrArg Directory.pool (Except.ok.inj h)).symm

-- A new session has an empty store behind an empty cache, and one directory over the store, with a
-- pool to take buffers from.
theorem new_ok {sizing : Sizing} {memory : Memory} {depth : Nat} {policy : Policy}
    {ownBuffers : Bool} {start : Session}
    (h : new (some sizing) depth [.memory] [⟨name, .backend 0, policy, ownBuffers⟩] memory =
      .ok start) :
    ∃ c d pools, FileCache.ofSizing sizing memory = .ok c ∧
      (d.pool < pools.size ∧ ∀ p ∈ pools, p.Sound) ∧ start =
      { site := { tier := { files := some c, pools }, store := { memories := #[⟨[], {}⟩] } }
        backends := #[⟨.memory 0 (), World.cellar 0⟩]
        directories := #[⟨d, World.cellar 0, d.volume World.feed (World.cellar 0)⟩] } := by
  unfold new at h
  obtain ⟨files, hfiles, h⟩ := ok_of_bind h
  obtain ⟨pool, hpool, h⟩ := ok_of_bind h
  obtain ⟨mounted, hmounted, h⟩ := ok_of_bind h
  obtain ⟨start', h, hstart⟩ := ok_of_bind h
  obtain ⟨below, hbelow, h⟩ := ok_of_bind h
  obtain ⟨d, hd, h⟩ := ok_of_bind h
  cases hmounted
  cases hbelow
  cases h
  cases hstart
  cases hc : FileCache.ofSizing sizing memory with
  | error e =>
    rw [hc] at hfiles
    cases hfiles
  | ok c =>
    rw [hc] at hfiles
    cases hfiles
    refine ⟨c, d, _, rfl, ⟨?_, ?_⟩, rfl⟩
    · rw [pool_new (ok_of_mapError hd)]
      cases ownBuffers with
      | false => exact Nat.lt_succ_self 0
      | true => exact Nat.lt_succ_self 1
    · have hsound := ScratchPool.sound_new (ok_of_mapError hpool)
      cases ownBuffers <;> simp [hsound, ScratchPool.sound_ofDepth]

theorem start_tracked {sizing : Sizing} {memory : Memory} {depth : Nat} {policy : Policy}
    {ownBuffers : Bool} {start : Session} (scope : Scope)
    (h : new (some sizing) depth [.memory] [⟨name, .backend 0, policy, ownBuffers⟩] memory =
      .ok start) :
    ∃ d, Tracked scope d (fun _ => none) (fun _ => ByteArray.empty) {} start ∧
      ∀ handle : String, start.outputs[handle]? = none := by
  obtain ⟨c, d, pools, hc, ⟨hpool, hpools⟩, rfl⟩ := new_ok h
  obtain ⟨hsound, hbytes⟩ := FileCache.ofSizing_sound hc
  refine ⟨d, ⟨rfl, rfl, rfl, rfl, ?_, ⟨?_, ⟨hpool, hpools⟩, ?_⟩, ?_, ?_⟩, ?_⟩
  · exact fun name file hfile => absurd hfile (Maps.getElem?_empty_ne name file)
  · intro _ hfiles
    cases hfiles
    exact hsound
  · exact fun name data _ block => Tier.shows_of_none (hbytes name block)
  · exact fun handle r hr => absurd hr (Maps.getElem?_empty_ne handle r)
  · exact fun handle out hout => absurd hout (Maps.getElem?_empty_ne handle out)
  · exact fun handle => Std.TreeMap.getElem?_emptyc

end Session

end Blockwise
