import Blockwise.Proofs.Session.Tracked

namespace Blockwise

open Act

namespace Shelf

variable {sh : Shelf} {o : MemoryOutput} {name : String}

theorem flush_other (h : o.dirty = true → name ≠ o.name) :
    (sh.flush o).files[name]? = sh.files[name]? := by
  unfold flush
  split
  · next hdirty => rw [publish, Maps.getElem?_insert, if_neg (Ne.symm (h hdirty))]
  · rfl

@[simp] theorem flush_calm (sh : Shelf) (o : MemoryOutput) : (sh.flush o).calm = sh.calm := by
  unfold flush
  split <;> rfl

-- After a flush the file is what was written, unless it was deleted before.
theorem flush_self
    (h : o.dirty = false → ∀ file, sh.files[o.name]? = some file → file.data = o.buffer)
    {file : MemoryFile} (hfile : (sh.flush o).files[o.name]? = some file) :
    file.data = o.buffer := by
  unfold flush at hfile
  split at hfile
  · rw [publish, Maps.getElem?_insert, if_pos rfl] at hfile
    obtain rfl := Option.some.inj hfile
    rfl
  · next hdirty => exact h (Bool.eq_false_iff.mpr hdirty) file hfile

end Shelf

namespace Output

variable {ο β α : Type} {n : Nat} {stream : Layered ο (Site β) n} {s : Site β}

@[simp] theorem ends_onStream {x : (n : Nat) → Act (Layered ο (Site β) n × Site β) α}
    {done : α → Output ο β × Site β → Prop} {failed : Failure → Output ο β × Site β → Prop} :
    Ends (onStream x) (⟨n, stream⟩, s) done failed ↔ Ends (x n) (stream, s)
      (fun a p => done a (⟨n, p.1⟩, p.2)) (fun e p => failed e (⟨n, p.1⟩, p.2)) := by
  simp only [Ends, onStream]
  cases x n (stream, s) <;> rfl

end Output

namespace Session

variable {scope : Scope} {d : Directory} {seen : String → Option Bytes}
  {history history' : Nat → Bytes} {sh sh' : Shelf} {x : Session} {site : Site World}
  {name handle location : String} {out out' : AnyOutput}
  {w w' : CachedWriter World.Out (Site World)} {o o' : MemoryOutput} {data : Bytes}

-- The bytes that an output of the store was given.
def handed : World.Out → World → Bytes
  | .memory _ o, _ => o.buffer
  | .disk _ o, _ => o.buffer

-- The output has something to publish.
def Dirty : World.Out → Prop
  | .memory _ o => o.dirty = true
  | .disk _ _ => True

-- An output without anything to publish is the file, if there is one.
def Published (sh : Shelf) (o : MemoryOutput) : Prop :=
  o.dirty = false → ∀ file, sh.files[o.name]? = some file → file.data = o.buffer

-- An open output on a file of the shelf. If it was the file when it had nothing to publish, it
-- still is.
def Pending (sh : Shelf) (name : String) (clean : Prop) (out : World.Out) (w : World) : Prop :=
  ∃ o : MemoryOutput, out = .memory 0 o ∧ o.name = name ∧ o.closed = false ∧
    (clean → Published sh o) ∧ w.shelf 0 = some sh

theorem appends (sh : Shelf) (name : String) (clean : Prop) :
    World.sink.Appends handed (Pending sh name clean) Dirty where
  write data out w h := by
    obtain ⟨o, rfl, hname, hopen, hclean, hshelf⟩ := h
    refine (World.write_ends hshelf o data).imp ?_ ?_
    · intro _ p hdone
      obtain ⟨out, w'⟩ := p
      obtain ⟨hshelf', _, rfl⟩ := hdone
      exact ⟨⟨_, rfl, hname, hopen, (fun _ hdirty => nomatch hdirty), hshelf'⟩, rfl, rfl⟩
    · intro _ p hfailed
      obtain ⟨out, w'⟩ := p
      obtain ⟨hshelf', rfl⟩ := hfailed
      exact ⟨⟨o, rfl, hname, hopen, hclean, hshelf'⟩, rfl⟩

theorem draft_plain (o : World.Out) : draft (.plain o) = none := by
  cases o <;> rfl

theorem draft_retired (hretired : w.settle = none) : draft ⟨1, w⟩ = none := by
  rw [draft, hretired]
  cases w.below <;> rfl

theorem not_underway_retired (hretired : w.settle = none) : ¬Underway ⟨1, w⟩ := by
  intro hunderway
  have hopen : w.settle.isSome = true := hunderway
  rw [hretired] at hopen
  cases hopen

theorem Claims.of_insert_undrafted {outputs : Std.TreeMap String AnyOutput} (hout : draft out = none)
    (h : Claims scope d history sh (outputs.insert handle out) name data) :
    Claims scope d history sh (outputs.erase handle) name data := by
  refine h.of_insert.resolve_left fun hdraft => ?_
  obtain ⟨w, o, hdraft, _⟩ := hdraft
  rw [hout] at hdraft
  cases hdraft

-- Dropping an output changes neither the cache nor any shelf.
theorem drop_spec (out : AnyOutput) (s : Site World) :
    (sink.drop out s).tier = s.tier ∧ ∀ i, (sink.drop out s).store.shelf i = s.store.shelf i := by
  obtain ⟨n, stream⟩ := out
  show ((Output.layeredSink World.sink n).drop stream s).tier = s.tier ∧
    ∀ i, ((Output.layeredSink World.sink n).drop stream s).store.shelf i = s.store.shelf i
  induction n with
  | zero =>
    refine ⟨rfl, fun i => ?_⟩
    show (World.sink.drop stream s.store).shelf i = s.store.shelf i
    exact World.shelf_drop stream s.store i
  | succ n ih => exact ih stream.below

-- If the output has nothing to publish, the file is what it published last.
def Clean (sh : Shelf) (out : AnyOutput) : Prop :=
  ∀ (w : CachedWriter World.Out (Site World)) (o : MemoryOutput), draft out = some (w, o) →
    Published sh o

theorem Clean.of_undrafted (hout : draft out = none) (sh : Shelf) : Clean sh out := by
  intro w o hdraft
  rw [hout] at hdraft
  cases hdraft

theorem Drafting.clean_iff (h : Drafting scope d w o) : Clean sh ⟨1, w⟩ ↔ Published sh o := by
  refine ⟨fun hclean => hclean w o h.draft_eq, fun hpublished w' o' hdraft => ?_⟩
  obtain ⟨-, rfl⟩ := Prod.mk.inj (Option.some.inj (h.draft_eq.symm.trans hdraft))
  exact hpublished

-- What a call of an output does to the shelf: it can change the file of the output, as long as the
-- output is under way, and nothing else.
structure Advances (sh sh' : Shelf) (out out' : AnyOutput) : Prop where
  underway : Underway out' → Underway out ∧ sink.name out' = sink.name out
  files : ∀ name, (Underway out → name ≠ sink.name out) → sh'.files[name]? = sh.files[name]?
  clean : Clean sh out → Clean sh' out'
  calm : sh'.calm = sh.calm

theorem Advances.refl (sh : Shelf) (out : AnyOutput) : Advances sh sh out out :=
  ⟨fun h => ⟨h, rfl⟩, fun _ _ => rfl, id, rfl⟩

-- The session as an action of an output leaves it.
def Left (scope : Scope) (d : Directory) (seen : String → Option Bytes) (x : Session) (sh : Shelf)
    (handle : String) (out : AnyOutput) (p : AnyOutput × Site World) : Prop :=
  ∃ history' sh', Tracked scope d seen history' sh'
    { x with site := p.2, outputs := x.outputs.insert handle p.1 } ∧ Advances sh sh' out p.1

def LeftBy (scope : Scope) (d : Directory) (seen : String → Option Bytes) (x : Session) (sh : Shelf)
    (handle : String) (w : CachedWriter World.Out (Site World))
    (p : CachedWriter World.Out (Site World) × Site World) : Prop :=
  Left scope d seen x sh handle ⟨1, w⟩ (⟨1, p.1⟩, p.2)

namespace Tracked

theorem plain_done (h : Tracked scope d seen history sh x)
    (hout : x.outputs[handle]? = some (.plain (.memory 0 o))) :
    o.closed = true → o.dirty = false := by
  cases h.outputs handle _ hout with
  | plain _ _ hdone => exact hdone

-- A plain output as any of its calls leaves it. Without anything to publish the shelf is the same.
theorem keepPlain (h : Tracked scope d seen history sh x)
    (hout : x.outputs[handle]? = some (.plain (.memory 0 o))) (hname' : o'.name = o.name)
    (hopen : o'.closed = false → o.closed = false) (hdone : o'.closed = true → o'.dirty = false)
    {p : MemoryOutput} (hname : p.name = o.name) (hdirty : p.dirty = true → o.dirty = true)
    (htier : site.tier = x.site.tier) (hshelf : site.store.shelf 0 = some (sh.flush p)) :
    Left scope d seen x sh handle (.plain (.memory 0 o)) (.plain (.memory 0 o'), site) := by
  have hnames : scope.names o.name := by
    cases h.outputs handle _ hout with
    | plain _ hnames _ => exact hnames
  obtain ⟨history', hfiled, hfollows⟩ := h.filed.flush (hname ▸ hnames)
  refine ⟨history', _, h.putOutput hfiled hfollows hshelf ?_ (.plain o' (hname' ▸ hnames) hdone), ?_⟩
  · rw [htier]
    refine h.honest.mono fun name data hclaim => ?_
    exact (hclaim.of_insert_undrafted (draft_plain _)).of_erase.of_follows hfollows
  · refine ⟨fun hunderway => ⟨hopen hunderway, hname'⟩, fun name hother => ?_,
      fun _ => .of_undrafted (draft_plain _) _, Shelf.flush_calm _ _⟩
    refine Shelf.flush_other fun hp => ?_
    rw [hname]
    refine hother (Bool.eq_false_iff.mpr fun hclosed => ?_)
    have hclean := h.plain_done hout hclosed
    rw [hdirty hp] at hclean
    cases hclean

-- A call that fails leaves a plain output and the shelf as they were.
theorem keepRefused (h : Tracked scope d seen history sh x)
    (hout : x.outputs[handle]? = some (.plain (.memory 0 o))) {q : World.Out × World}
    (hfailed : q.2.shelf 0 = some sh ∧ q.1 = .memory 0 o) :
    Left scope d seen x sh handle (.plain (.memory 0 o))
      (.plain q.1, { x.site with store := q.2 }) := by
  obtain ⟨_, store⟩ := q
  obtain ⟨hshelf, rfl⟩ := hfailed
  exact h.keepPlain hout rfl id (h.plain_done hout) (p := { o with dirty := false })
    rfl (fun hdirty => nomatch hdirty) rfl hshelf

theorem plain_write (h : Tracked scope d seen history sh x)
    (hout : x.outputs[handle]? = some (.plain (.memory 0 o))) (data : Bytes) :
    Ends (sink.write data) (.plain (.memory 0 o), x.site)
      (fun _ => Left scope d seen x sh handle (.plain (.memory 0 o)))
      (fun _ => Left scope d seen x sh handle (.plain (.memory 0 o))) := by
  refine (@Output.ends_onStream _ _ _ 0 (.memory 0 o) x.site
    (fun n => (Output.layeredSink World.sink n).write data) _ _).mpr ?_
  refine Output.ends_plainSink_write.mpr ?_
  refine (World.write_ends h.shelf o data).imp ?_ ?_
  · intro _ p hdone
    obtain ⟨_, store⟩ := p
    obtain ⟨hshelf, hopen, rfl⟩ := hdone
    refine h.keepPlain hout rfl (fun _ => hopen) (fun hclosed => ?_) (p := { o with dirty := false })
      rfl (fun hdirty => nomatch hdirty) rfl hshelf
    exact absurd hclosed (Bool.eq_false_iff.mp hopen)
  · exact fun _ p hfailed => h.keepRefused hout hfailed

theorem plain_flush (h : Tracked scope d seen history sh x)
    (hout : x.outputs[handle]? = some (.plain (.memory 0 o))) :
    Ends sink.flush (.plain (.memory 0 o), x.site)
      (fun _ => Left scope d seen x sh handle (.plain (.memory 0 o)))
      (fun _ => Left scope d seen x sh handle (.plain (.memory 0 o))) := by
  refine (@Output.ends_onStream _ _ _ 0 (.memory 0 o) x.site
    (fun n => (Output.layeredSink World.sink n).flush) _ _).mpr ?_
  refine Output.ends_plainSink_flush.mpr ?_
  refine (World.flush_ends h.shelf o).imp ?_ ?_
  · intro _ p hdone
    obtain ⟨_, store⟩ := p
    obtain ⟨hshelf, rfl⟩ := hdone
    exact h.keepPlain hout rfl id (fun _ => rfl) rfl id rfl hshelf
  · exact fun _ p hfailed => h.keepRefused hout hfailed

theorem plain_close (h : Tracked scope d seen history sh x)
    (hout : x.outputs[handle]? = some (.plain (.memory 0 o))) :
    Ends sink.close (.plain (.memory 0 o), x.site)
      (fun _ => Left scope d seen x sh handle (.plain (.memory 0 o)))
      (fun _ => Left scope d seen x sh handle (.plain (.memory 0 o))) := by
  refine (@Output.ends_onStream _ _ _ 0 (.memory 0 o) x.site
    (fun n => (Output.layeredSink World.sink n).close) _ _).mpr ?_
  refine Output.ends_plainSink_close.mpr ?_
  refine (World.close_ends h.shelf (h.plain_done hout)).imp ?_ ?_
  · intro _ p hdone
    obtain ⟨_, store⟩ := p
    obtain ⟨hshelf, rfl⟩ := hdone
    exact h.keepPlain hout rfl (fun hopen => nomatch hopen) (fun _ => rfl) rfl id rfl hshelf
  · exact fun _ p hfailed => h.keepRefused hout hfailed

-- Others have nothing under the location of a writer that is alone. If its file is not trusted,
-- nothing is claimed there.
theorem vacant (h : Tracked scope d seen history sh x) (hw : Drafting scope d w o)
    (halone : scope.trusted o.name → x.Alone handle o.name) :
    CachedWriter.Vacant (Claims scope d history sh (x.outputs.erase handle)) w.location := by
  rintro data (⟨file, stamp, htrusted, hlocation, _⟩ | ⟨other, out, hout, hdraft⟩)
  · rw [hw.location] at hlocation
    exact absurd hlocation (scope.apart o.name file hw.name htrusted).location_ne_version
  · rw [Maps.getElem?_erase] at hout
    split at hout
    · cases hout
    · next hne =>
      obtain ⟨w', o', hdraft, htrusted, hlocation, rfl⟩ := hdraft
      obtain ⟨_, hw'⟩ := (h.outputs other out hout).drafting hdraft
      rw [hw.location, hw'.location] at hlocation
      have hname := Directory.location_inj hlocation
      exact halone (hname ▸ htrusted) other out w' o' hne hout hdraft hname.symm

theorem writing (h : Tracked scope d seen history sh x)
    (hout : x.outputs[handle]? = some ⟨1, w⟩) (hw : Drafting scope d w o) {clean : Prop}
    (hclean : clean → Published sh o) :
    CachedWriter.Writing d.pool (Claims scope d history sh (x.outputs.erase handle))
      (scope.trusted o.name) (Pending sh o.name clean) handed w x.site where
  staging := by
    rw [hw.below]
    exact hw.staging
  states := ⟨o, hw.below, rfl, hw.closed, hclean, h.shelf⟩
  honest := by
    refine h.honest.mono fun name data hclaim => ?_
    rcases hclaim with hclaim | ⟨htrusted, hname, hdata⟩
    · exact hclaim.of_erase
    · rw [hw.below] at hdata
      exact .inr ⟨handle, _, hout, w, o, hw.draft_eq, htrusted, hname, hdata⟩

-- A writer that is still open, over a shelf that differs at most at its own file.
theorem keepDraft (h : Tracked scope d seen history sh x) (hw : Drafting scope d w o)
    (hstays : CachedWriter.Stays w w')
    (hwriting : CachedWriter.Writing d.pool (Claims scope d history sh (x.outputs.erase handle))
      (scope.trusted o.name) (Pending sh' o.name (Clean sh ⟨1, w⟩)) handed w' site)
    (hfiled : Filed scope history' sh') (hfollows : Follows history sh history' sh')
    (hfiles : ∀ name ≠ o.name, sh'.files[name]? = sh.files[name]?) (hcalm : sh'.calm = sh.calm) :
    LeftBy scope d seen x sh handle w (w', site) := by
  obtain ⟨hstaging, ⟨o', hbelow, hname, hopen, hclean, hshelf⟩, hhonest⟩ := hwriting
  rw [hbelow] at hstaging hhonest
  have hw' : Drafting scope d w' o' :=
    { below := hbelow
      name := hname ▸ hw.name
      location := by rw [hstays.location, hw.location, hname]
      settle := by rw [hstays.settle, hw.settle, hname]
      staging := hstaging
      closed := hopen }
  refine ⟨history', sh', h.putOutput hfiled hfollows hshelf ?_ (.cached w' o' hw'), ?_⟩
  · refine hhonest.mono fun name data hclaim => ?_
    rcases hclaim.of_insert with ⟨_, _, hdraft, htrusted, hlocation, hdata⟩ | hclaim
    · obtain ⟨rfl, rfl⟩ := Prod.mk.inj (Option.some.inj (hw'.draft_eq.symm.trans hdraft))
      exact .inr ⟨hname ▸ htrusted, hlocation, hdata⟩
    · exact .inl (hclaim.of_follows hfollows)
  · refine ⟨fun _ => ⟨hw.underway, ?_⟩, fun name hother => hfiles name ?_,
      fun hbefore => hw'.clean_iff.mpr (hclean hbefore), hcalm⟩
    · rw [hw'.name_eq, hw.name_eq, hname]
    · rw [← hw.name_eq]
      exact hother hw.underway

-- A writer that is closed, whatever it left under its location.
theorem retire (h : Tracked scope d seen history sh x) (hw : Drafting scope d w o)
    (hretired : w'.settle = none) (hfiled : Filed scope history' sh')
    (hfollows : Follows history sh history' sh') (hshelf : site.store.shelf 0 = some sh')
    (hfiles : ∀ name ≠ o.name, sh'.files[name]? = sh.files[name]?) (hcalm : sh'.calm = sh.calm)
    (hhonest : site.tier.Honest d.pool
      (Claims scope d history' sh' (x.outputs.erase handle))) :
    LeftBy scope d seen x sh handle w (w', site) := by
  refine ⟨history', sh', h.putOutput hfiled hfollows hshelf ?_ (.retired w' hretired), ?_⟩
  · exact hhonest.mono fun _ _ hclaim => hclaim.of_insert_undrafted (draft_retired hretired)
  · refine ⟨fun hunderway => absurd hunderway (not_underway_retired hretired),
      fun name hother => hfiles name ?_, fun _ => .of_undrafted (draft_retired hretired) _, hcalm⟩
    rw [← hw.name_eq]
    exact hother hw.underway

-- The claim at the location of a writer can be given up.
theorem disclaim {trusted : Prop} (hfollows : Follows history sh history' sh') {t : Tier}
    {outputs : Std.TreeMap String AnyOutput}
    (hhonest : t.Honest d.pool
      (CachedWriter.Beside (Claims scope d history sh outputs) trusted location data)) :
    t.Honest d.pool (Claims scope d history' sh' outputs) :=
  hhonest.mono fun _ _ hclaim => .inl (hclaim.of_follows hfollows)

theorem cached_write (h : Tracked scope d seen history sh x)
    (hout : x.outputs[handle]? = some ⟨1, w⟩) (hw : Drafting scope d w o) (data : Bytes)
    (halone : scope.trusted o.name → Grid.blockSize ≤ w.staged.size + data.size →
      x.Alone handle o.name) :
    Ends (CachedWriter.write (Output.plainSink World.sink) data) (w, x.site)
      (fun _ => LeftBy scope d seen x sh handle w)
      (fun _ => LeftBy scope d seen x sh handle w) := by
  have hkeep (p : CachedWriter World.Out (Site World) × Site World)
      (hleft : CachedWriter.Stays w p.1 ∧
        CachedWriter.Writing d.pool (Claims scope d history sh (x.outputs.erase handle))
          (scope.trusted o.name) (Pending sh o.name (Clean sh ⟨1, w⟩)) handed p.1 p.2) :
      LeftBy scope d seen x sh handle w p :=
    h.keepDraft hw hleft.1 hleft.2 h.filed (.refl _ _) (fun _ _ => rfl) rfl
  exact (CachedWriter.write_ends (appends sh o.name _) (h.writing hout hw hw.clean_iff.mp)
    hw.underway data fun hfull => h.vacant hw fun htrusted => halone htrusted hfull).imp
    (fun _ => hkeep) fun _ => hkeep

theorem cached_flush (h : Tracked scope d seen history sh x)
    (hout : x.outputs[handle]? = some ⟨1, w⟩) (hw : Drafting scope d w o)
    (halone : scope.trusted o.name → w.staged.size ≠ w.flushed → x.Alone handle o.name) :
    Ends (CachedWriter.flush (Output.plainSink World.sink)) (w, x.site)
      (fun _ => LeftBy scope d seen x sh handle w)
      (fun _ => LeftBy scope d seen x sh handle w) := by
  simp only [CachedWriter.flush, ends_bind]
  refine CachedWriter.ends_requireOpen hw.underway ?_
  refine (CachedWriter.passStaged_ends (appends sh o.name _) (h.writing hout hw hw.clean_iff.mp)
    fun hfresh => h.vacant hw fun htrusted => halone htrusted hfresh).imp ?_ ?_
  · intro _ p hdone
    obtain ⟨_, site⟩ := p
    obtain ⟨_, rfl, ⟨hstaging, ⟨o', rfl, hname, hopen, hclean, hshelf⟩, hhonest⟩, _⟩ := hdone
    simp only [CachedWriter.ends_onBelow, Output.ends_plainSink_flush]
    refine (World.flush_ends hshelf o').imp ?_ ?_
    · intro _ p hdone
      obtain ⟨_, store⟩ := p
      obtain ⟨hshelf', rfl⟩ := hdone
      obtain ⟨history', hfiled, hfollows⟩ := h.filed.flush (hname ▸ hw.name)
      refine h.keepDraft hw ⟨rfl, rfl⟩ ⟨hstaging.withBelow _, ?_, hhonest⟩ hfiled hfollows ?_
        (Shelf.flush_calm _ _)
      · exact ⟨_, rfl, hname, hopen, fun hbefore _ _ hfile =>
          Shelf.flush_self (hclean hbefore) hfile, hshelf'⟩
      · exact fun name hne => Shelf.flush_other fun _ => hname ▸ hne
    · intro _ p hfailed
      obtain ⟨_, store⟩ := p
      obtain ⟨hshelf', rfl⟩ := hfailed
      exact h.keepDraft hw ⟨rfl, rfl⟩
        ⟨hstaging, ⟨o', rfl, hname, hopen, hclean, hshelf'⟩, hhonest⟩ h.filed (.refl _ _)
        (fun _ _ => rfl) rfl
  · intro _ p hfailed
    obtain ⟨_, site⟩ := p
    obtain ⟨below, rfl, hwriting⟩ := hfailed
    exact h.keepDraft hw ⟨rfl, rfl⟩ hwriting h.filed (.refl _ _) (fun _ _ => rfl) rfl

-- The blocks of a closed writer become those of the version that is the file now, or are dropped.
theorem settle_ends (h : Tracked scope d seen history sh x) (hw : Drafting scope d w o)
    (hretired : w'.settle = none) (hfiled : Filed scope history' sh')
    (hfollows : Follows history sh history' sh') (hshelf : site.store.shelf 0 = some sh')
    (hfiles : ∀ name ≠ o.name, sh'.files[name]? = sh.files[name]?) (hcalm : sh'.calm = sh.calm)
    (hhonest : site.tier.Honest d.pool
      (CachedWriter.Beside (Claims scope d history sh (x.outputs.erase handle))
        (scope.trusted o.name) w.location data))
    (hdata : scope.trusted o.name → ∀ file, sh'.files[o.name]? = some file → file.data = data) :
    Ends (Act.onPart Prod.snd (fun (w, _) s => (w, s))
        (Act.attempt (d.cacheName (World.cellar 0) o.name)) >>= CachedWriter.settleName w.location)
      (w', site) (fun _ => LeftBy scope d seen x sh handle w)
      (fun _ => LeftBy scope d seen x sh handle w) := by
  have hretire (s : Site World) (hs : s.store.shelf 0 = some sh')
      (hclaims : s.tier.Honest d.pool (Claims scope d history' sh' (x.outputs.erase handle))) :
      LeftBy scope d seen x sh handle w (w', s) :=
    h.retire hw hretired hfiled hfollows hs hfiles hcalm hclaims
  have hshelved : OnShelf 0 site.tier sh' site := ⟨rfl, hshelf⟩
  simp only [ends_bind, ends_onPart, ends_attempt]
  refine (hshelved.cacheName_ends d o.name).imp ?_ ?_
  · intro _ s hdone
    obtain ⟨⟨htier, hs⟩, file, hfile, rfl⟩ := hdone
    simp only [CachedWriter.settleName, CachedWriter.ends_onTier, htier]
    have hne : w.location ≠ d.version o.name file.stamp := by
      rw [hw.location]
      exact (Directory.apart_self o.name).location_ne_version
    have hrenamed : Ends (Tier.rename w.location (d.version o.name file.stamp)) site.tier
        (fun _ t => t.Honest d.pool (Claims scope d history' sh' (x.outputs.erase handle)))
        (fun _ _ => False) := by
      refine Tier.rename_ends hhonest hne fun name other hclaim => ?_
      refine .inr ⟨.inl (hclaim.of_follows hfollows), ?_⟩
      rintro rfl
      obtain ⟨_, hstamp, hversion⟩ := hfiled o.name file hfile
      obtain ⟨htrusted, hother⟩ := h.of_version hw.name hclaim.of_erase
      exact .inr ⟨htrusted, rfl, by rw [hother hstamp, hversion, hdata htrusted file hfile]⟩
    exact hrenamed.imp (fun _ t ht => hretire _ hs ht) fun _ _ => False.elim
  · rintro (e | b) s ⟨⟨htier, hs⟩, _⟩
    · simp only [CachedWriter.settleName, ends_bind, CachedWriter.ends_onTier, ends_fail, htier]
      refine (Tier.delete_ends (disclaim hfollows hhonest) _).imp ?_ fun _ _ => False.elim
      intro _ t hdeleted
      obtain ⟨ht, _⟩ := hdeleted
      exact hretire _ hs ht
    · exact hretire s hs (htier ▸ disclaim hfollows hhonest)

-- A close publishes what is left. If nothing is, the file has to be what was published last.
theorem cached_close (h : Tracked scope d seen history sh x)
    (hout : x.outputs[handle]? = some ⟨1, w⟩) (hw : Drafting scope d w o)
    (halone : scope.trusted o.name → w.staged.size ≠ w.flushed → x.Alone handle o.name)
    (hpublished : scope.trusted o.name → w.staged.size = w.flushed → Published sh o) :
    Ends (CachedWriter.close (Output.plainSink World.sink)) (w, x.site)
      (fun _ => LeftBy scope d seen x sh handle w)
      (fun _ => LeftBy scope d seen x sh handle w) := by
  have hidle (hclean : scope.trusted o.name ∧ w.staged.size = w.flushed) : Published sh o :=
    hpublished hclean.1 hclean.2
  have hvacant (hfresh : w.staged.size ≠ w.flushed) :
      CachedWriter.Vacant (Claims scope d history sh (x.outputs.erase handle)) w.location :=
    h.vacant hw fun htrusted => halone htrusted hfresh
  obtain ⟨hstaging, hstates, hhonest⟩ := h.writing hout hw hidle
  have hwriting : CachedWriter.Writing d.pool (Claims scope d history sh (x.outputs.erase handle))
      (scope.trusted o.name) (Pending sh o.name (scope.trusted o.name ∧ w.staged.size = w.flushed))
      handed { w with settle := none } x.site :=
    ⟨⟨hstaging.aligned, hstaging.flushed_le, hstaging.staged_le, hstaging.size, hstaging.handed⟩,
      hstates, hhonest⟩
  simp only [CachedWriter.close, ends_bind, ends_get, hw.settle,
    CachedWriter.ends_modifyWriter]
  refine (CachedWriter.passStaged_ends (appends sh o.name _) hwriting hvacant).imp ?_ ?_
  · intro _ p hdone
    obtain ⟨_, site⟩ := p
    obtain ⟨_, rfl, ⟨_, ⟨o', rfl, hname, hopen, hclean, hshelf⟩, hhonest⟩, hwritten⟩ := hdone
    have hdone : o'.closed = true → o'.dirty = false := fun hclosed =>
      absurd hclosed (Bool.eq_false_iff.mp hopen)
    rw [CachedWriter.ends_onBelow, Output.ends_plainSink_close]
    refine (World.close_ends hshelf hdone).imp ?_ ?_
    · intro _ p hdone
      obtain ⟨_, store⟩ := p
      obtain ⟨hshelf', rfl⟩ := hdone
      obtain ⟨history', hfiled, hfollows⟩ := h.filed.flush (hname ▸ hw.name)
      rw [← ends_bind]
      refine h.settle_ends hw rfl hfiled hfollows hshelf' ?_ (Shelf.flush_calm _ _) hhonest ?_
      · exact fun name hne => Shelf.flush_other fun _ => hname ▸ hne
      · intro htrusted file hfile
        refine Shelf.flush_self (fun hdirty => ?_) (hname ▸ hfile)
        by_cases hfresh : w.staged.size = w.flushed
        · exact hclean ⟨htrusted, hfresh⟩ hdirty
        · exact absurd (hwritten hfresh) (Bool.eq_false_iff.mp hdirty)
    · intro _ p hfailed
      obtain ⟨_, store⟩ := p
      obtain ⟨hshelf', rfl⟩ := hfailed
      exact h.retire hw rfl h.filed (.refl _ _) hshelf' (fun _ _ => rfl) rfl
        (disclaim (.refl _ _) hhonest)
  · intro _ p hfailed
    obtain ⟨_, site⟩ := p
    obtain ⟨_, rfl, _, ⟨o', rfl, _, _, _, hshelf⟩, hhonest⟩ := hfailed
    exact h.retire hw rfl h.filed (.refl _ _) hshelf (fun _ _ => rfl) rfl
      (disclaim (.refl _ _) hhonest)

theorem retired_stays (h : Tracked scope d seen history sh x) (hretired : w.settle = none) :
    LeftBy scope d seen x sh handle w (w, x.site) := by
  refine ⟨history, sh, h.putOutput h.filed (.refl _ _) h.shelf ?_ (.retired w hretired),
    .refl sh _⟩
  exact h.honest.mono fun _ _ hclaim =>
    (hclaim.of_insert_undrafted (draft_retired hretired)).of_erase

-- An output hands on bytes only while it is alone on its file.
theorem write_ends (h : Tracked scope d seen history sh x) (hout : x.outputs[handle]? = some out)
    (data : Bytes)
    (halone : ∀ w o, draft out = some (w, o) → scope.trusted o.name →
      Grid.blockSize ≤ w.staged.size + data.size → x.Alone handle o.name) :
    Ends (sink.write data) (out, x.site) (fun _ => Left scope d seen x sh handle out)
      (fun _ => Left scope d seen x sh handle out) := by
  cases h.outputs handle out hout with
  | plain o => exact h.plain_write hout data
  | cached w o hw =>
    exact (@Output.ends_onStream _ _ _ 1 w x.site
      (fun n => (Output.layeredSink World.sink n).write data) _ _).mpr
        (h.cached_write hout hw data (halone w o hw.draft_eq))
  | retired w hretired =>
    refine (@Output.ends_onStream _ _ _ 1 w x.site
      (fun n => (Output.layeredSink World.sink n).write data) _ _).mpr ?_
    have hrefused : Ends (CachedWriter.write (Output.plainSink World.sink) data) (w, x.site)
        (fun _ => LeftBy scope d seen x sh handle w)
        (fun _ => LeftBy scope d seen x sh handle w) := by
      rw [CachedWriter.write, ends_bind]
      exact CachedWriter.ends_requireOpen_closed hretired fun _ => h.retired_stays hretired
    exact hrefused

theorem flush_ends (h : Tracked scope d seen history sh x) (hout : x.outputs[handle]? = some out)
    (halone : ∀ w o, draft out = some (w, o) → scope.trusted o.name →
      w.staged.size ≠ w.flushed → x.Alone handle o.name) :
    Ends sink.flush (out, x.site) (fun _ => Left scope d seen x sh handle out)
      (fun _ => Left scope d seen x sh handle out) := by
  cases h.outputs handle out hout with
  | plain o => exact h.plain_flush hout
  | cached w o hw =>
    exact (@Output.ends_onStream _ _ _ 1 w x.site
      (fun n => (Output.layeredSink World.sink n).flush) _ _).mpr
        (h.cached_flush hout hw (halone w o hw.draft_eq))
  | retired w hretired =>
    refine (@Output.ends_onStream _ _ _ 1 w x.site
      (fun n => (Output.layeredSink World.sink n).flush) _ _).mpr ?_
    have hrefused : Ends (CachedWriter.flush (Output.plainSink World.sink)) (w, x.site)
        (fun _ => LeftBy scope d seen x sh handle w)
        (fun _ => LeftBy scope d seen x sh handle w) := by
      rw [CachedWriter.flush, ends_bind]
      exact CachedWriter.ends_requireOpen_closed hretired fun _ => h.retired_stays hretired
    exact hrefused

theorem close_ends (h : Tracked scope d seen history sh x) (hout : x.outputs[handle]? = some out)
    (halone : ∀ w o, draft out = some (w, o) → scope.trusted o.name →
      w.staged.size ≠ w.flushed → x.Alone handle o.name)
    (hpublished : ∀ w o, draft out = some (w, o) → scope.trusted o.name →
      w.staged.size = w.flushed → Published sh o) :
    Ends sink.close (out, x.site) (fun _ => Left scope d seen x sh handle out)
      (fun _ => Left scope d seen x sh handle out) := by
  cases h.outputs handle out hout with
  | plain o => exact h.plain_close hout
  | cached w o hw =>
    exact (@Output.ends_onStream _ _ _ 1 w x.site
      (fun n => (Output.layeredSink World.sink n).close) _ _).mpr
        (h.cached_close hout hw (halone w o hw.draft_eq) (hpublished w o hw.draft_eq))
  | retired w hretired =>
    refine (@Output.ends_onStream _ _ _ 1 w x.site
      (fun n => (Output.layeredSink World.sink n).close) _ _).mpr ?_
    have hrefused : Ends (CachedWriter.close (Output.plainSink World.sink)) (w, x.site)
        (fun _ => LeftBy scope d seen x sh handle w)
        (fun _ => LeftBy scope d seen x sh handle w) := by
      simp only [CachedWriter.close, ends_bind, ends_get, hretired, ends_pure]
      exact h.retired_stays hretired
    exact hrefused

theorem dropOutput (h : Tracked scope d seen history sh x) (handle : String) :
    Tracked scope d seen history sh (x.dropOutput handle) := by
  unfold Session.dropOutput
  cases hout : x.outputs[handle]? with
  | none => exact h
  | some out =>
    obtain ⟨htier, hshelf⟩ := drop_spec out x.site
    exact
      { h with
        shelf := (hshelf 0).trans h.shelf
        honest := by
          rw [htier]
          exact h.honest.mono fun _ _ => Claims.of_erase
        outputs := fun other out' hout' => by
          rw [Maps.getElem?_erase] at hout'
          split at hout'
          · cases hout'
          · exact h.outputs other out' hout' }

-- A writer that was just made has an empty file below and an empty block.
theorem drafting_new (hname : scope.names name) (d : Directory) :
    Drafting scope d
      { below := .memory 0 { name }, location := d.location name
        settle := some (d.cacheName (World.cellar 0) name) } { name } where
  below := rfl
  name := hname
  location := rfl
  settle := rfl
  staging :=
    { aligned := (by decide : Grid.start (Grid.block 0) = 0)
      flushed_le := Nat.le_refl _
      staged_le := Nat.zero_le _
      size := rfl
      handed := fun i hi => absurd hi (Nat.not_lt_zero i) }
  closed := rfl

-- A new output takes the place of one that is dropped for it.
theorem keepNew (h : Tracked scope d seen history sh x) (hpenned : Penned scope d out)
    (hdraft : ∀ w o, draft out = some (w, o) → o.buffer = ByteArray.empty) (handle : String) :
    Tracked scope d seen history sh (x.keepOutput handle out) := by
  have hdropped := h.dropOutput handle
  refine hdropped.putOutput hdropped.filed (.refl _ _) hdropped.shelf ?_ hpenned
  refine hdropped.honest.of_empty fun name data hclaim => ?_
  refine hclaim.of_insert.imp (fun hdraft' => ?_) Claims.of_erase
  obtain ⟨w, o, hdraft', _, _, rfl⟩ := hdraft'
  exact hdraft w o hdraft'

end Tracked

end Session

end Blockwise
