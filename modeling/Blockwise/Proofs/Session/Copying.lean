import Blockwise.Proofs.Session.Transparency
import Blockwise.Proofs.Stream.Pouring
import Blockwise.Proofs.Volume.Copying

namespace Blockwise

open Act

namespace Session

variable {d : Directory} {seen : String → Option Bytes} {history : Nat → Bytes} {sh : Shelf}
  {x : Session} {name destName : String} {data got : Bytes} {source : AnyInput} {out : AnyOutput}
  {p : AnyOutput × Site World} {outputs : Std.TreeMap String AnyOutput} {site : Site World}
  {purpose : Purpose} {sure : Prop}

-- An output on a file of a shelf, past the cache or through it, and all that it was given.
inductive Given (d : Directory) (sh : Shelf) (name : String) :
    Bytes → AnyOutput × Site World → Prop
  | plain (o : MemoryOutput) (s : Site World) (h : sh.Gathers name o)
      (hshelf : s.store.shelf 0 = some sh) : Given d sh name o.buffer (.plain (.memory 0 o), s)
  | cached (got : Bytes) (w : CachedWriter World.Out (Site World)) (s : Site World)
      (h : CachedWriter.Filling d.pool sh d name got (w, s)) : Given d sh name got (⟨1, w⟩, s)

theorem Given.shelf (h : Given d sh name got p) : p.2.store.shelf 0 = some sh := by
  cases h with
  | plain o s h hshelf => exact hshelf
  | cached got w s h => exact h.pouring.shelf

-- Whatever is read meanwhile, the output keeps what it was given.
theorem Given.withSite (h : Given d sh name got (out, site)) {site' : Site World}
    (hshelf : site'.store.shelf 0 = some sh) (hhonest : site'.tier.Honest d.pool fun _ _ => False) :
    Given d sh name got (out, site') := by
  cases h with
  | plain o s h => exact .plain o site' h hshelf
  | cached got w s h =>
    exact .cached got w site' ⟨⟨h.pouring.below, hshelf, hhonest⟩, h.room, h.settle, h.location⟩

theorem Given.write_ends (h : Given d sh name got p) (part : Bytes) :
    Ends (sink.write part) p (fun _ => Given d sh name (got ++ part))
      (fun _ _ => ¬sh.calm = true) := by
  cases h with
  | plain o s h hshelf =>
    refine (@Output.ends_onStream _ _ _ 0 (.memory 0 o) s
      (fun n => (Output.layeredSink World.sink n).write part) _ _).mpr ?_
    refine Output.ends_plainSink_write.mpr ?_
    refine (World.write_gathered hshelf h.opened part).imp ?_ fun _ _ => id
    intro _ q hwritten
    obtain ⟨below, store⟩ := q
    obtain ⟨hshelf', rfl⟩ := hwritten
    exact .plain _ _ (h.write part) hshelf'
  | cached got w s h =>
    refine (@Output.ends_onStream _ _ _ 1 w s
      (fun n => (Output.layeredSink World.sink n).write part) _ _).mpr ?_
    exact (h.write_ends part).imp (fun _ q hq => .cached _ q.1 q.2 hq) fun _ _ => id

theorem Given.close_ends (h : Given d sh name got p) :
    Ends sink.close p (fun _ q => ∃ sh', q.2.store.shelf 0 = some sh' ∧ sh'.calm = sh.calm ∧
      sh'.files[name]?.map (·.data) = some got) (fun _ _ => ¬sh.calm = true) := by
  cases h with
  | plain o s h hshelf =>
    refine (@Output.ends_onStream _ _ _ 0 (.memory 0 o) s
      (fun n => (Output.layeredSink World.sink n).close) _ _).mpr ?_
    refine Output.ends_plainSink_close.mpr ?_
    refine (World.close_gathered hshelf h.opened).imp ?_ fun _ _ => id
    exact fun _ q hclosed => ⟨_, hclosed.1, h.flushed⟩
  | cached got w s h =>
    exact (@Output.ends_onStream _ _ _ 1 w s
      (fun n => (Output.layeredSink World.sink n).close) _ _).mpr h.close_ends

-- A tracked session of a single output, under a handle that nothing depends on, and what the output was
-- given.
structure Deposit (d : Directory) (seen : String → Option Bytes) (x : Session) (name : String)
    (sure : Prop) (history : Nat → Bytes) (sh : Shelf) (outputs : Std.TreeMap String AnyOutput)
    (got : Bytes) (p : AnyOutput × Site World) : Prop where
  tracked : Tracked .plain d seen history sh { x with site := p.2, outputs }
  only : Becomes ∅ "" (some p.1) outputs
  clean : Clean sh p.1
  given : Given d sh name got p
  calm : sure → sh.calm = true

def Depositing (d : Directory) (seen : String → Option Bytes) (x : Session) (name : String)
    (sure : Prop) (got : Bytes) (p : AnyOutput × Site World) : Prop :=
  ∃ history sh outputs, Deposit d seen x name sure history sh outputs got p

-- A session whose store has a file.
def Deposited (d : Directory) (seen : String → Option Bytes) (x : Session) (name : String)
    (sure : Prop) (data : Bytes) (site : Site World) : Prop :=
  ∃ history sh outputs, Tracked .plain d seen history sh { x with site, outputs } ∧
    (sure → sh.calm = true) ∧ sh.files[name]?.map (·.data) = some data

namespace Deposit

theorem output_eq (h : Deposit d seen x name sure history sh outputs got p) :
    outputs[""]? = some p.1 := (h.only "").trans (if_pos rfl)

theorem alone (h : Deposit d seen x name sure history sh outputs got p) (file : String) :
    Alone { x with site := p.2, outputs } "" file := by
  intro other out' _ _ hne hout'
  have hnone : outputs[other]? = none :=
    (h.only other).trans ((if_neg hne).trans Std.TreeMap.getElem?_emptyc)
  exact nomatch hnone.symm.trans hout'

theorem write_ends (h : Deposit d seen x name sure history sh outputs got p) (part : Bytes) :
    Ends (sink.write part) p (fun _ => Depositing d seen x name sure (got ++ part))
      (fun _ _ => ¬sure) := by
  have hleft := h.tracked.write_ends h.output_eq part fun _ o _ _ _ => h.alone o.name
  refine (Ends.and hleft (h.given.write_ends part)).imp ?_ fun _ _ hfailed hsure =>
    hfailed.2 (h.calm hsure)
  intro _ q hwritten
  obtain ⟨⟨history', sh', htracked, hadvances⟩, hgiven⟩ := hwritten
  obtain rfl := Option.some.inj (htracked.shelf.symm.trans hgiven.shelf)
  refine ⟨history', _, outputs.insert "" q.1, htracked, fun other => ?_,
    hadvances.clean h.clean, hgiven, h.calm⟩
  rw [Maps.getElem?_insert]
  split
  · rfl
  · next hne => rw [h.only other, if_neg hne]

theorem close_ends (h : Deposit d seen x name sure history sh outputs got p) :
    Ends sink.close p (fun _ q => Deposited d seen x name sure got (sink.drop q.1 q.2))
      (fun _ _ => ¬sure) := by
  have hleft := h.tracked.close_ends h.output_eq (fun _ o _ _ _ => h.alone o.name)
    fun w o hdraft _ _ => h.clean w o hdraft
  refine (Ends.and hleft h.given.close_ends).imp ?_ fun _ _ hfailed hsure =>
    hfailed.2 (h.calm hsure)
  intro _ q hclosed
  obtain ⟨⟨history', sh', htracked, _⟩, sh'', hshelf, hcalm, hfile⟩ := hclosed
  obtain rfl := Option.some.inj (htracked.shelf.symm.trans hshelf)
  obtain ⟨htier, hshelves⟩ := drop_spec q.1 q.2
  exact ⟨history', _, _, htracked.withSite ((hshelves 0).trans hshelf) (htier ▸ htracked.honest),
    fun hsure => hcalm.trans (h.calm hsure), hfile⟩

end Deposit

theorem sink_collects (d : Directory) (seen : String → Option Bytes) (x : Session) (name : String)
    (sure : Prop) :
    sink.Collects (Depositing d seen x name sure) (Deposited d seen x name sure) sure where
  write got part p hp := by
    obtain ⟨_, _, _, hdeposit⟩ := hp
    exact hdeposit.write_ends part
  close got p hp := by
    obtain ⟨_, _, _, hdeposit⟩ := hp
    exact hdeposit.close_ends

namespace Tracked

-- The outputs of a session may be forgotten.
theorem undrafted (h : Tracked .plain d seen history sh x) :
    Tracked .plain d seen history sh { x with outputs := ∅ } :=
  { h with
    honest := by
      refine h.honest.mono fun name data hclaim => hclaim.imp_right fun hdraft => ?_
      obtain ⟨handle, out, hout, _⟩ := hdraft
      exact absurd hout (Maps.getElem?_empty_ne handle out)
    outputs := fun handle out hout => absurd hout (Maps.getElem?_empty_ne handle out) }

theorem create_ends (h : Tracked .plain d seen history sh x) (hsure : sure → sh.calm = true)
    (hname : Directory.Plain name) (purpose : Purpose) :
    Ends (d.create (World.cellar 0) name purpose) x.site
      (fun out s => Depositing d seen x name sure ByteArray.empty (out, s)) (fun _ _ => ¬sure) := by
  refine (Directory.create_gathered h.onShelf d name purpose).imp ?_ fun _ _ hfailed hcalm =>
    hfailed (hsure hcalm)
  intro out s hcreated
  obtain ⟨tier, store⟩ := s
  obtain ⟨⟨htier, hshelf⟩, hout⟩ := hcreated
  obtain rfl : tier = x.site.tier := htier
  obtain ⟨history', h'⟩ := h.undrafted.publish hname ByteArray.empty hshelf
  have hgathers := Shelf.gathers_new sh name
  have hpublished : Published (sh.publish name ByteArray.empty) { name } := by
    intro hclean file hfile
    have hsame := hgathers.published hclean
    rw [hfile] at hsame
    exact Option.some.inj hsame
  have hnew : Penned .plain d out ∧ Clean (sh.publish name ByteArray.empty) out ∧
      (∀ w o, draft out = some (w, o) → o.buffer = ByteArray.empty) ∧
      Given d (sh.publish name ByteArray.empty) name ByteArray.empty
        (out, ⟨x.site.tier, store⟩) := by
    rcases hout with rfl | rfl
    · refine ⟨.plain { name } hname (fun hclosed => absurd hclosed Bool.false_ne_true),
        .of_undrafted (draft_plain _) _, fun w o hdraft => ?_, .plain { name } _ hgathers hshelf⟩
      cases hdraft
    · have hdrafting : Drafting .plain d _ { name } := drafting_new hname d
      refine ⟨.cached _ _ hdrafting, hdrafting.clean_iff.mpr hpublished, fun w o hdraft => ?_,
        .cached _ _ _ ⟨⟨⟨{ name }, rfl, hgathers, hdrafting.staging, rfl⟩, hshelf, ?_⟩,
          Grid.blockSize_pos, rfl, rfl⟩⟩
      · cases hdraft
        rfl
      · exact h'.honest.mono fun _ _ => False.elim
  obtain ⟨hpenned, hclean, hdraft, hgiven⟩ := hnew
  have hkept := h'.keepNew hpenned hdraft ""
  exact ⟨history', _, _, hkept, becomes_insert ∅ "" out, hclean, hgiven, hsure⟩

-- An input that no output is kept beside.
theorem yields_alone (h : Tracked .plain d seen history sh x) (hsure : sure → sh.calm = true)
    (hopened : Opened .plain d history sh source name data) :
    feed.Yields source name data (Rest .plain d history sh x.outputs) sure where
  length := hopened.length_eq
  read position len s hs := by
    obtain ⟨hrest, hread⟩ := (h.of_rest hs).read_spec hopened position len
    exact ⟨hrest, fun hcase => hread hopened.names (hcase.imp_right hsure)⟩

-- At a calm store every file that is there opens, and a file that is not there changes nothing.
theorem finds (h : Tracked .plain d seen history sh x) (hsure : sure → sh.calm = true)
    (name : String) (purpose : Purpose) :
    Volume.Finds (x.current name) name
      (d.openInput World.feed (World.cellar 0) name purpose) x.site sure
      fun data input s => Rest .plain d history sh x.outputs s ∧
        Opened .plain d history sh input name data := by
  have hends := h.openInput_ends name purpose
  by_cases hcalm : sh.calm = true
  · cases hfile : sh.files[name]? with
    | none =>
      rw [Volume.Finds, h.current_eq, hfile]
      exact (Directory.openInput_missing h.onShelf hcalm hfile d purpose).imp
        (fun _ _ => False.elim) fun _ _ hfailed _ => ⟨rfl, hfailed⟩
    | some file =>
      refine Ends.imp hends ?_ fun e s hfailed => ?_
      · rintro input s ⟨hrest, data, hcurrent, hopened⟩
        exact ⟨data, hcurrent, hrest, hopened⟩
      · exact absurd (hfile.symm.trans (hfailed.2 hcalm).1) (Option.some_ne_none file)
  · refine Ends.imp hends ?_ fun e s hfailed hs => absurd (hsure hs) hcalm
    rintro input s ⟨hrest, data, hcurrent, hopened⟩
    exact ⟨data, hcurrent, hrest, hopened⟩

end Tracked

-- An input of the session that the output is in. Its file may be the one that is written: the input
-- is still what it was opened on.
theorem yields_beside {r : Reader AnyInput} (hr : x.inputs[""]? = some r) (hseen : seen "" = some data)
    (hname : feed.name r.source = name) (hlength : feed.length r.source = data.size) (got : Bytes)
    (out : AnyOutput) :
    feed.Yields r.source name data (fun s => Depositing d seen x destName sure got (out, s)) sure where
  length := hlength
  read position len s hs := by
    obtain ⟨history, sh, outputs, hdeposit⟩ := hs
    obtain ⟨name', data', hseen', hopened⟩ := hdeposit.tracked.inputs "" r hr
    obtain rfl := Option.some.inj (hseen.symm.trans hseen')
    obtain rfl := hname.symm.trans hopened.name_eq
    obtain ⟨hrest, hread⟩ := hdeposit.tracked.read_spec hopened position len
    refine ⟨⟨history, sh, outputs, hdeposit.tracked.of_rest hrest, hdeposit.only, hdeposit.clean,
      hdeposit.given.withSite hrest.states ?_, hdeposit.calm⟩,
      fun hcase => hread hopened.names (hcase.imp_right hdeposit.calm)⟩
    exact hrest.honest.mono fun _ _ => False.elim

-- The file is in the store, and it is what a read of it through the directory delivers.
theorem Deposited.delivers (h : Deposited d seen x name sure data site) :
    { x with site }.current name = some data ∧
      (d.volume World.feed (World.cellar 0)).Delivers feed name data site sure := by
  obtain ⟨history, sh, outputs, htracked, hsure, hfile⟩ := h
  have hcurrent : { x with site, outputs }.current name = some data :=
    (htracked.current_eq name).trans hfile
  refine ⟨hcurrent, fun purpose => Ends.imp (htracked.finds hsure name purpose) ?_ ?_⟩
  · rintro input s ⟨data', hfound, hrest, hopened⟩
    obtain rfl := Option.some.inj (hcurrent.symm.trans hfound)
    have hyields := htracked.yields_alone hsure hopened
    exact ⟨hyields.length, fun position len => (hyields.read position len s hrest).2⟩
  · intro e s hfailed hs
    exact absurd (hcurrent.symm.trans (hfailed hs).1) (Option.some_ne_none data)

namespace Tracked

-- A copy to any volume of another world, whose outputs take what they are given.
theorem copy_across {τ ι δ κ : Type} {dest : Volume τ ι δ κ} {destSink : Sink δ τ}
    {holds : Bytes → δ × τ → Prop} {left : Bytes → τ → Prop} {t : τ} {sure' : Prop}
    (h : Tracked .plain d seen history sh x) (hsure : sure → sh.calm = true)
    (hcollects : destSink.Collects holds left sure')
    (hcreate : Ends (dest.create destName purpose) t
      (fun out t' => holds ByteArray.empty (out, t')) (fun _ _ => ¬sure')) :
    Volume.Copied (x.current name) name
      (Beside.copy (d.volume World.feed (World.cellar 0)) feed dest destSink name destName purpose)
      (x.site, t) (sure ∧ sure') fun data p => left data p.2 := by
  refine Beside.copied (Ends.imp (h.finds hsure name purpose) ?_ fun _ _ => id) hcreate hcollects
  rintro input s ⟨data, hfound, hrest, hopened⟩
  exact ⟨data, hfound, _, hrest, h.yields_alone hsure hopened⟩

-- A copy within the directory. The input is kept under a handle, so that it is known to be what it was
-- opened on whatever becomes of its file.
theorem copy_within (h : Tracked .plain d seen history sh x) (hsure : sure → sh.calm = true)
    (hdest : Directory.Plain destName) :
    Volume.Copied (x.current name) name
      ((d.volume World.feed (World.cellar 0)).copy feed (d.volume World.feed (World.cellar 0)) sink
        name destName purpose) x.site sure
      fun data s => { x with site := s }.current destName = some data ∧
        (d.volume World.feed (World.cellar 0)).Delivers feed destName data s sure := by
  refine Volume.copied_of_opened (h.finds hsure name purpose) ?_
  rintro data input s _ ⟨hrest, hopened⟩
  have hkept := (h.of_rest hrest).keepInput (r := { source := input }) hopened ""
  have hheld : (Session.keepInput { x with site := s } "" { source := input }).inputs[""]? =
      some { source := input } := (Maps.getElem?_insert _ _ _ _).trans (if_pos rfl)
  refine ends_bind.mpr ((hkept.create_ends hsure hdest purpose).imp ?_ fun _ _ => id)
  intro out s' hdeposit
  exact (Volume.carry_ends (fun got out => yields_beside hheld (if_pos rfl) hopened.name_eq
    hopened.length_eq got out) (sink_collects d _ _ destName sure) hdeposit).imp
    (fun _ _ hleft => hleft.delivers) fun _ _ => id

end Tracked

-- After any runs of two sessions, each of a directory over a store of its own, a copy of a file of the
-- first directory that ends well leaves the file as it was when the copy began: in another store, in the
-- store of the other directory, or in the store of the same directory, even over the file that is copied.
-- Reads of it through the volume that it was copied to deliver it as well. Where the stores refuse nothing,
-- the copy does end well, unless there is no file to copy; then it says so and nothing has changed.
theorem copy_exact {sizing sizing' : Sizing} {memory memory' : Memory} {depth depth' : Nat}
    {policy policy' : Policy} {ownBuffers ownBuffers' : Bool} {dirName dirName' : String}
    {start start' x y : Session} {seen seen' : String → Option Bytes}
    (hnew : new (some sizing) depth [.memory] [⟨dirName, .backend 0, policy, ownBuffers⟩] memory =
      .ok start)
    (hrun : Run start x seen)
    (hnew' : new (some sizing') depth' [.memory]
      [⟨dirName', .backend 0, policy', ownBuffers'⟩] memory' = .ok start')
    (hrun' : Run start' y seen') (hdest : Directory.Plain destName) (name : String)
    (purpose : Purpose) :
    ∃ v u, x.volume (.directory 0) = .ok v ∧ y.volume (.directory 0) = .ok u ∧
      (∀ stamped t, t.closed = false →
        Volume.Copied (x.current name) name
          (Beside.copy v feed (MemoryStore.volume stamped) MemoryStore.sink name destName purpose)
          (x.site, t) x.Calm fun data p => p.2.files[destName]?.map (·.data) = some data ∧
            (MemoryStore.volume stamped).Delivers MemoryStore.feed destName data p.2 True) ∧
      Volume.Copied (x.current name) name (Beside.copy v feed u sink name destName purpose)
        (x.site, y.site) (x.Calm ∧ y.Calm) (fun data p =>
          { y with site := p.2 }.current destName = some data ∧
            u.Delivers feed destName data p.2 y.Calm) ∧
      Volume.Copied (x.current name) name (v.copy feed v sink name destName purpose) x.site x.Calm
        fun data s => { x with site := s }.current destName = some data ∧
          v.Delivers feed destName data s x.Calm := by
  obtain ⟨d, hstart⟩ := start_coherent hnew
  obtain ⟨history, sh, h, _⟩ := hrun.coherent hstart
  obtain ⟨d', hstart'⟩ := start_coherent hnew'
  obtain ⟨history', sh', h', _⟩ := hrun'.coherent hstart'
  refine ⟨_, _, h.volume_eq, h'.volume_eq, fun stamped t hopen => ?_, ?_, h.copy_within h.calm hdest⟩
  · refine (h.copy_across h.calm (MemoryStore.sink_collects destName)
      (MemoryStore.create_receiving hopen stamped destName purpose)).imp (⟨·, trivial⟩) ?_
    exact fun data p hkeeps => ⟨hkeeps.2, hkeeps.delivers stamped⟩
  · refine (h.copy_across h.calm (sink_collects d' seen' y destName y.Calm)
      (h'.create_ends h'.calm hdest purpose)).imp id ?_
    exact fun data p hleft => hleft.delivers

-- A file that was written through the cache is copied over itself.
theorem copy_exact_itself : ∃ start x seen v s,
    new (some (.ofLayout 1 2 8192)) 1 [.memory] [⟨"d", .backend 0, {}, false⟩] = .ok start ∧
      Run start x seen ∧ x.Calm ∧ x.volume (.directory 0) = .ok v ∧
      v.copy feed v sink "f" "f" .general x.site = .ok () s ∧
      { x with site := s }.current "f" = some ⟨#[1, 2, 3]⟩ ∧
      v.Delivers feed "f" ⟨#[1, 2, 3]⟩ s x.Calm := by
  have hnew : new (some (.ofLayout 1 2 8192)) 1 [.memory] [⟨"d", .backend 0, {}, false⟩] = .ok _ :=
    rfl
  have hstart : ∀ {y}, new (some (.ofLayout 1 2 8192)) 1 [.memory]
      [⟨"d", .backend 0, {}, false⟩] = .ok y → Run y y fun _ => none := fun _ => .start
  have hcopied : ∀ {start x seen}, new (some (.ofLayout 1 2 8192)) 1 [.memory]
      [⟨"d", .backend 0, {}, false⟩] = .ok start → Run start x seen → x.Calm →
      x.current "f" = some ⟨#[1, 2, 3]⟩ → ∃ v s, x.volume (.directory 0) = .ok v ∧
        v.copy feed v sink "f" "f" .general x.site = .ok () s ∧
        { x with site := s }.current "f" = some ⟨#[1, 2, 3]⟩ ∧
        v.Delivers feed "f" ⟨#[1, 2, 3]⟩ s x.Calm := by
    intro start x seen hnew hrun hcalm hcurrent
    obtain ⟨v, _, hv, _, _, _, hcopied⟩ :=
      copy_exact hnew hrun hnew .start (by decide : Directory.Plain "f") "f" .general
    rw [hcurrent] at hcopied
    obtain ⟨_, s, hdone, hreceived⟩ :=
      (Ends.imp hcopied (fun _ _ => id) fun _ _ hrefused => hrefused hcalm).exists_ok
    exact ⟨v, s, hv, hdone, hreceived⟩
  have hrun := (((hstart hnew).step (.create (.directory 0) "f" .general "o")
    ⟨rfl, by decide, .of_isEmpty rfl _⟩).step (.write "o" ⟨#[1, 2, 3]⟩) trivial).step
    (.closeOutput "o") trivial
  obtain ⟨v, s, hv, hdone⟩ := hcopied hnew hrun (by decide +kernel) (by decide +kernel)
  exact ⟨_, _, _, v, s, hnew, hrun, by decide +kernel, hv, hdone⟩

end Session

end Blockwise
