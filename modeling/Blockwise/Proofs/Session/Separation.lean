import Blockwise.Proofs.Session.Replacement

namespace Blockwise

open Act

namespace Session

variable {d : Directory} {seen : String → Option Bytes} {history : Nat → Bytes} {sh sh' : Shelf}
  {start x : Session} {file name handle : String} {mine : String → Bool} {s : Step}
  {held : Option Bytes} {outputs outputs' : Std.TreeMap String AnyOutput} {source : AnyInput}
  {data : Bytes} {scope : Scope}

-- The input that a step reads, positions, copies or makes.
def Step.input : Step → Option String
  | .openInput _ _ _ handle => some handle
  | .seek handle _ => some handle
  | .read handle _ => some handle
  | .clone handle _ => some handle
  | _ => none

-- The steps on one output.
def Step.usesOutput (output : String) : Step → Bool
  | .create _ _ _ handle => handle == output
  | .write handle _ => handle == output
  | .flush handle => handle == output
  | .closeOutput handle => handle == output
  | .drop handle => handle == output
  | _ => false

-- The answers to the steps on some of the inputs.
def replies (mine : String → Bool) (x : Session) : List Step → List Answer
  | [] => []
  | s :: rest =>
    let after := (x.step s).2.replies mine rest
    if s.input.any mine then (x.step s).1.answer :: after else after

-- An output that is under way on a file.
def Writes (outputs : Std.TreeMap String AnyOutput) (handle file : String) : Prop :=
  ∃ out, outputs[handle]? = some out ∧ Underway out ∧ sink.name out = file

-- Steps that leave a file alone, from a session on: they make no new content for it and call none
-- of its outputs. Other files are apart from it, and some inputs are kept for it.
def Spares (start : Session) (file : String) (mine : String → Bool) : Step → Prop
  | .openInput on name _ handle => on = .directory 0 ∧ (mine handle = true → name = file)
  | .create on name _ _ => on = .directory 0 ∧ name ≠ file ∧ Directory.Apart file name
  | .delete on name => on = .directory 0 ∧ name ≠ file
  | .put i name _ => i = 0 ∧ name ≠ file ∧ Directory.Apart file name
  | .write handle _ | .flush handle | .closeOutput handle => ¬Writes start.outputs handle file
  | .clone handle copy => mine copy = true → mine handle = true
  | .seek _ _ | .read _ _ | .drop _ => True
  | _ => False

-- What a reader of a plain file holds.
structure Mark where
  data : Bytes
  position : Nat

namespace Mark

def read (m : Mark) (file : String) (len : Nat) : Delivery := .ofFile file m.data m.position len

def moved (m : Mark) (len : Nat) : Mark :=
  if m.position + len ≤ m.data.size then { m with position := m.position + len } else m

end Mark

-- Readers of one file that does not change.
abbrev Marks := String → Option Mark

namespace Marks

variable {marks : Marks}

def set (marks : Marks) (handle : String) (m : Option Mark) : Marks :=
  fun other => if handle = other then m else marks other

theorem set_self (marks : Marks) (handle : String) : marks.set handle (marks handle) = marks := by
  funext other
  unfold set
  split
  · next heq => rw [heq]
  · rfl

def reply (file : String) (held : Option Bytes) (marks : Marks) : Step → Answer
  | .openInput _ _ _ _ =>
    match held with
    | none => .failed (.error (.fileNotFound file))
    | some data => .opened file data.size 0
  | .seek handle position =>
    match marks handle with
    | none => .noHandle
    | some _ => .moved none position
  | .read handle len =>
    match marks handle with
    | none => .noHandle
    | some m => .delivered (m.read file len) len (m.moved len).position
  | .clone handle _ =>
    match marks handle with
    | none => .noHandle
    | some m => .opened file m.data.size m.position
  | _ => .done

def next (held : Option Bytes) (mine : String → Bool) (marks : Marks) : Step → Marks
  | .openInput _ _ _ handle =>
    if mine handle && held.isSome then marks.set handle (held.map fun data => ⟨data, 0⟩) else marks
  | .seek handle position =>
    marks.set handle ((marks handle).map fun m => { m with position })
  | .read handle len => marks.set handle ((marks handle).map (·.moved len))
  | .clone handle copy =>
    if mine copy && (marks handle).isSome then marks.set copy (marks handle) else marks
  | .drop handle => if mine handle then marks.set handle none else marks
  | _ => marks

def replies (file : String) (held : Option Bytes) (mine : String → Bool) (marks : Marks) :
    List Step → List Answer
  | [] => []
  | s :: rest =>
    let after := (marks.next held mine s).replies file held mine rest
    if s.input.any mine then marks.reply file held s :: after else after

-- Readers of a plain file do not notice the steps on an output.
theorem replies_filter (file : String) (held : Option Bytes) (marks : Marks) {output : String}
    (houtput : mine output = false) (steps : List Step) :
    marks.replies file held mine (steps.filter fun s => !s.usesOutput output) =
      marks.replies file held mine steps := by
  induction steps generalizing marks with
  | nil => rfl
  | cons s rest ih =>
    by_cases huses : s.usesOutput output = true
    · have hidle : s.input.any mine = false ∧ marks.next held mine s = marks := by
        cases s with
        | drop handle =>
          obtain rfl : handle = output := beq_iff_eq.mp huses
          exact ⟨rfl, if_neg (by rw [houtput]; exact Bool.false_ne_true)⟩
        | create | write | flush | closeOutput => exact ⟨rfl, rfl⟩
        | _ => cases huses
      rw [List.filter_cons_of_neg (by rw [huses]; exact Bool.false_ne_true), ih, replies, hidle.1,
        hidle.2]
      rfl
    · rw [List.filter_cons_of_pos (by rw [Bool.eq_false_iff.mpr huses]; rfl), replies, replies, ih]

end Marks

-- The bytes that an input was opened on.
def contentOf : AnyInput → Bytes
  | .plain (.memory _ input) => input.data
  | .plain (.disk _ _) => ByteArray.empty
  | .cached below _ => contentOf below

-- What some of the inputs hold.
def marksOf (mine : String → Bool) (x : Session) : Marks :=
  fun handle => if mine handle then x.inputs[handle]?.map fun r => ⟨contentOf r.source, r.position⟩
    else none

theorem Opened.contentOf_eq (h : Opened scope d history sh source name data) :
    contentOf source = data := by
  cases h <;> rfl

theorem marksOf_congr {x' : Session} (h : x'.inputs = x.inputs) :
    x'.marksOf mine = x.marksOf mine := by
  unfold marksOf
  rw [h]

theorem marksOf_withSite (site : Site World) : ({ x with site }).marksOf mine = x.marksOf mine :=
  marksOf_congr rfl

theorem marksOf_of_not_mine (h : ¬mine handle = true) : x.marksOf mine handle = none :=
  if_neg h

theorem marksOf_of_mine (h : mine handle = true) :
    x.marksOf mine handle = x.inputs[handle]?.map fun r => ⟨contentOf r.source, r.position⟩ :=
  if_pos h

theorem marksOf_keepInput (mine : String → Bool) (x : Session) (handle : String)
    (r : Reader AnyInput) :
    (x.keepInput handle r).marksOf mine = if mine handle
      then (x.marksOf mine).set handle (some ⟨contentOf r.source, r.position⟩)
      else x.marksOf mine := by
  funext other
  by_cases hmine : mine handle = true
  · rw [if_pos hmine, Marks.set]
    split
    · next heq =>
      rw [← heq, marksOf_of_mine hmine, keepInput, Maps.getElem?_insert, if_pos rfl]
      rfl
    · next hne => rw [marksOf, keepInput, Maps.getElem?_insert, if_neg hne, marksOf]
  · rw [if_neg hmine]
    by_cases heq : handle = other
    · rw [← heq, marksOf_of_not_mine hmine, marksOf_of_not_mine hmine]
    · rw [marksOf, keepInput, Maps.getElem?_insert, if_neg heq, marksOf]

theorem marksOf_of_none (h : x.inputs[handle]? = none) : x.marksOf mine handle = none := by
  unfold marksOf
  split
  · rw [h]
    rfl
  · rfl

-- An input that goes on from another mark.
theorem marksOf_moveInput {r r' : Reader AnyInput} (hr : x.inputs[handle]? = some r)
    (site : Site World) (f : Mark → Mark) (hmoved : mine handle = true →
      (⟨contentOf r'.source, r'.position⟩ : Mark) = f ⟨contentOf r.source, r.position⟩) :
    ({ x with site }.keepInput handle r').marksOf mine =
      (x.marksOf mine).set handle ((x.marksOf mine handle).map f) := by
  rw [marksOf_keepInput, marksOf_withSite]
  by_cases hmine : mine handle = true
  · rw [if_pos hmine, marksOf_of_mine hmine, hr, hmoved hmine]
    rfl
  · rw [if_neg hmine, marksOf_of_not_mine hmine, Option.map_none,
      ← marksOf_of_not_mine (x := x) hmine, Marks.set_self]

-- All these inputs are of one file.
def Kept (file : String) (mine : String → Bool) (x : Session) : Prop :=
  ∀ (handle : String) (r : Reader AnyInput), mine handle = true → x.inputs[handle]? = some r →
    feed.name r.source = file

theorem Kept.keepInput (h : Kept file mine x) {r : Reader AnyInput}
    (hr : mine handle = true → feed.name r.source = file) :
    Kept file mine (x.keepInput handle r) := by
  intro other r' hmine hr'
  rw [Session.keepInput, Maps.getElem?_insert] at hr'
  split at hr'
  · next heq =>
    obtain rfl := Option.some.inj hr'
    exact hr (heq ▸ hmine)
  · exact h other r' hmine hr'

-- A step is answered as readers of a plain file answer it.
structure PlainStep (file : String) (held : Option Bytes) (mine : String → Bool) (x : Session)
    (s : Step) (result : Answer × Session) : Prop where
  reply : s.input.any mine = true → result.1 = (x.marksOf mine).reply file held s
  next : result.2.marksOf mine = (x.marksOf mine).next held mine s
  kept : Kept file mine result.2

theorem inputs_dropOutput (x : Session) (handle : String) :
    (x.dropOutput handle).inputs = x.inputs := by
  unfold Session.dropOutput
  split <;> rfl

theorem inputs_drop (x : Session) (handle : String) :
    (x.drop handle).2.inputs = x.inputs.erase handle := by
  unfold Session.drop dropLock
  simp only
  split
  · rw [inputs_dropOutput]
  · simp only [inputs_dropOutput]

theorem inputs_create (x : Session) (on : Target) (name : String) (purpose : Purpose)
    (handle : String) : (x.create on name purpose handle).2.inputs = x.inputs := by
  unfold Session.create
  split
  · rfl
  · split
    · rfl
    · exact inputs_dropOutput _ _

theorem inputs_onVolume {α : Type} (x : Session) (on : Target)
    (act : AnyVolume → Act (Site World) α) (answer : α → Answer) :
    (x.onVolume on act answer).2.inputs = x.inputs := by
  unfold onVolume answering
  split
  · rfl
  · split <;> rfl

theorem inputs_onBackend (x : Session) (i : Nat)
    (f : Guarded Faults MemoryStore → Guarded Faults MemoryStore)
    (g : Guarded Faults DiskStore → Guarded Faults DiskStore) (answer : Answer) :
    (x.onBackend i f g answer).2.inputs = x.inputs := by
  unfold onBackend
  split <;> rfl

theorem inputs_onOutput (x : Session) (handle : String)
    (act : Act (AnyOutput × Site World) Unit) :
    (x.onOutput handle act).2.inputs = x.inputs := by
  unfold onOutput
  split
  · rfl
  · simp only
    split <;> rfl

namespace Tracked

theorem plain_seek (h : Tracked scope d seen history sh x) (hcalm : sh.calm = true)
    (hkept : Kept file mine x) (held : Option Bytes) (handle : String) (position : Nat) :
    PlainStep file held mine x (.seek handle position) (x.seek handle position) := by
  unfold Session.seek onInput
  cases hr : x.inputs[handle]? with
  | none =>
    refine ⟨fun _ => ?_, ?_, hkept⟩
    · rw [Marks.reply, marksOf_of_none hr]
    · rw [Marks.next, marksOf_of_none hr, Option.map_none, ← marksOf_of_none hr, Marks.set_self]
  | some r =>
    obtain ⟨name, data, _, hopened⟩ := h.inputs handle r hr
    have hends := h.seek_ends hopened position
    simp only [Reader.seek]
    cases hrun : feed.seek r.source position x.site with
    | error e site => exact absurd hcalm (hends.error hrun).2
    | ok a site =>
      refine ⟨fun hmine => ?_, ?_, ?_⟩
      · rw [Marks.reply, marksOf_of_mine hmine, hr]
        rfl
      · exact marksOf_moveInput hr site _ fun _ => rfl
      · exact Kept.keepInput (x := { x with site }) hkept fun hmine => hkept handle r hmine hr

theorem plain_read (h : Tracked (.around file) d seen history sh x) (hcalm : sh.calm = true)
    (hkept : Kept file mine x) (held : Option Bytes) (handle : String) (len : Nat) :
    PlainStep file held mine x (.read handle len) (x.read handle len) := by
  unfold Session.read onInput
  cases hr : x.inputs[handle]? with
  | none =>
    refine ⟨fun _ => ?_, ?_, hkept⟩
    · rw [Marks.reply, marksOf_of_none hr]
    · rw [Marks.next, marksOf_of_none hr, Option.map_none, ← marksOf_of_none hr, Marks.set_self]
  | some r =>
    obtain ⟨name, data, _, hopened⟩ := h.inputs handle r hr
    have hdelivered (hmine : mine handle = true) :
        (feed.read r.source r.position len x.site).1 =
          .ofFile file (contentOf r.source) r.position len := by
      obtain rfl : name = file := hopened.name_eq.symm.trans (hkept handle r hmine hr)
      rw [hopened.contentOf_eq]
      exact (h.read_spec hopened r.position len).2 rfl (.inr hcalm)
    simp only [Reader.read]
    rcases hrun : feed.read r.source r.position len x.site with ⟨⟨bytes, failure⟩, site⟩
    rw [hrun] at hdelivered
    cases failure with
    | none =>
      have hin (hmine : mine handle = true) := (Delivery.eq_of_ofFile (hdelivered hmine)).1
      refine ⟨fun hmine => ?_, ?_, ?_⟩
      · rw [Marks.reply, marksOf_of_mine hmine, hr]
        simp only [Option.map_some, Mark.read, Mark.moved, if_pos (hin hmine), ← hdelivered hmine]
      · exact marksOf_moveInput hr site (·.moved len) fun hmine => (if_pos (hin hmine)).symm
      · exact Kept.keepInput (x := { x with site }) hkept fun hmine => hkept handle r hmine hr
    | some e =>
      have hout (hmine : mine handle = true) :
          ¬r.position + len ≤ (contentOf r.source).size := by
        intro hin
        have hread := hdelivered hmine
        rw [Delivery.ofFile_of_le file hin] at hread
        cases hread
      refine ⟨fun hmine => ?_, ?_, ?_⟩
      · rw [Marks.reply, marksOf_of_mine hmine, hr]
        simp only [Option.map_some, Mark.read, Mark.moved, if_neg (hout hmine), ← hdelivered hmine]
      · exact marksOf_moveInput hr site (·.moved len) fun hmine => (if_neg (hout hmine)).symm
      · exact Kept.keepInput (x := { x with site }) hkept fun hmine => hkept handle r hmine hr

theorem plain_clone (h : Tracked scope d seen history sh x) (hcalm : sh.calm = true)
    (hkept : Kept file mine x) (held : Option Bytes) {handle copy : String}
    (hmine : mine copy = true → mine handle = true) :
    PlainStep file held mine x (.clone handle copy) (x.clone handle copy) := by
  unfold Session.clone onInput
  cases hr : x.inputs[handle]? with
  | none =>
    refine ⟨fun _ => ?_, ?_, hkept⟩
    · rw [Marks.reply, marksOf_of_none hr]
    · rw [Marks.next, marksOf_of_none hr, Option.isSome_none, Bool.and_false,
        if_neg Bool.false_ne_true]
  | some r =>
    obtain ⟨name, data, _, hopened⟩ := h.inputs handle r hr
    have hends := h.copy_ends hopened
    cases hrun : r.clone feed x.site with
    | error e site => exact absurd hcalm (hends.error hrun).2
    | ok r' site =>
      obtain ⟨_, rfl⟩ := hends.ok hrun
      simp only [hrun]
      refine ⟨fun hmine => ?_, ?_, ?_⟩
      · rw [Marks.reply, marksOf_of_mine hmine, hr, openedAnswer, hkept handle r' hmine hr,
          hopened.length_eq, hopened.contentOf_eq.symm]
        rfl
      · rw [Marks.next, marksOf_keepInput, marksOf_withSite]
        by_cases hcopy : mine copy = true
        · rw [hcopy, marksOf_of_mine (hmine hcopy), hr]
          rfl
        · rw [Bool.eq_false_iff.mpr hcopy]
          rfl
      · exact Kept.keepInput (x := { x with site }) hkept fun hcopy =>
          hkept handle r' (hmine hcopy) hr

theorem plain_openInput (h : Tracked scope d seen history sh x) (hcalm : sh.calm = true)
    (hkept : Kept file mine x) {name handle : String} (purpose : Purpose)
    (hname : mine handle = true → name = file) :
    PlainStep file (x.current file) mine x (.openInput (.directory 0) name purpose handle)
      (x.openInput (.directory 0) name purpose handle) := by
  have hends := h.openInput_ends name purpose
  unfold Session.openInput
  simp only [h.volume_eq, Directory.volume]
  cases hrun : d.openInput World.feed (World.cellar 0) name purpose x.site with
  | error e site =>
    obtain ⟨hnone, rfl⟩ := (hends.error hrun).2 hcalm
    have hheld : mine handle = true → x.current file = none := by
      intro hmine
      rw [← hname hmine, h.current_eq, hnone]
      rfl
    simp only
    refine ⟨fun hmine => ?_, ?_, hkept⟩
    · rw [hheld hmine, hname hmine]
      rfl
    · rw [marksOf_withSite, Marks.next]
      by_cases hmine : mine handle = true
      · rw [hheld hmine, Option.isSome_none, Bool.and_false, if_neg Bool.false_ne_true]
      · rw [Bool.eq_false_iff.mpr hmine]
        rfl
  | ok source site =>
    obtain ⟨_, data, hcurrent, hopened⟩ := hends.ok hrun
    have hheld (hmine : mine handle = true) : x.current file = some data := hname hmine ▸ hcurrent
    simp only
    refine ⟨fun hmine => ?_, ?_, ?_⟩
    · rw [hheld hmine, openedAnswer, hopened.name_eq, hopened.length_eq, hname hmine]
      rfl
    · rw [marksOf_keepInput, marksOf_withSite, Marks.next]
      by_cases hmine : mine handle = true
      · rw [hmine, hheld hmine, hopened.contentOf_eq]
        rfl
      · rw [Bool.eq_false_iff.mpr hmine]
        rfl
    · exact Kept.keepInput (x := { x with site }) hkept fun hmine =>
        hopened.name_eq.trans (hname hmine)

theorem plain_drop (hkept : Kept file mine x) (held : Option Bytes) (handle : String) :
    PlainStep file held mine x (.drop handle) (x.drop handle) := by
  refine ⟨(fun hmine => nomatch hmine), ?_, fun other r hmine hr => ?_⟩
  · funext other
    rw [Marks.next, marksOf, inputs_drop, Maps.getElem?_erase]
    by_cases heq : handle = other
    · subst heq
      by_cases hmine : mine handle = true
      · rw [if_pos rfl, if_pos hmine, if_pos hmine, Marks.set, if_pos rfl]
        rfl
      · rw [if_neg hmine, if_neg hmine, marksOf_of_not_mine hmine]
    · rw [if_neg heq]
      by_cases hmine : mine handle = true
      · rw [if_pos hmine, Marks.set, if_neg heq, marksOf]
      · rw [if_neg hmine, marksOf]
  · rw [inputs_drop, Maps.getElem?_erase] at hr
    split at hr
    · cases hr
    · exact hkept other r hmine hr

-- A step without an input leaves all marks.
theorem plain_idle {result : Answer × Session} (hkept : Kept file mine x) (held : Option Bytes)
    (hinput : s.input = none) (hnext : ∀ marks, Marks.next held mine marks s = marks)
    (hinputs : result.2.inputs = x.inputs) : PlainStep file held mine x s result := by
  refine ⟨fun hmine => ?_, ?_, fun handle r hmine hr => ?_⟩
  · rw [hinput] at hmine
    cases hmine
  · rw [hnext, marksOf_congr hinputs]
  · rw [hinputs] at hr
    exact hkept handle r hmine hr

theorem plain_perform (h : Tracked (.around file) d seen history sh x) (hcalm : sh.calm = true)
    (hkept : Kept file mine x) (hs : start.Spares file mine s) :
    PlainStep file (x.current file) mine x s (x.perform s) := by
  cases s with
  | openInput on name purpose handle =>
    obtain ⟨rfl, hname⟩ := hs
    exact h.plain_openInput hcalm hkept purpose hname
  | seek handle position => exact h.plain_seek hcalm hkept _ handle position
  | read handle len => exact h.plain_read hcalm hkept _ handle len
  | clone handle copy => exact h.plain_clone hcalm hkept _ hs
  | drop handle => exact plain_drop hkept _ handle
  | create on name purpose handle =>
    exact plain_idle hkept _ rfl (fun _ => rfl) (inputs_create _ _ _ _ _)
  | delete on name => exact plain_idle hkept _ rfl (fun _ => rfl) (inputs_onVolume _ _ _ _)
  | put i name data => exact plain_idle hkept _ rfl (fun _ => rfl) (inputs_onBackend _ _ _ _ _)
  | write handle data => exact plain_idle hkept _ rfl (fun _ => rfl) (inputs_onOutput _ _ _)
  | flush handle => exact plain_idle hkept _ rfl (fun _ => rfl) (inputs_onOutput _ _ _)
  | closeOutput handle => exact plain_idle hkept _ rfl (fun _ => rfl) (inputs_onOutput _ _ _)
  | _ => exact hs.elim

theorem plain_step (h : Tracked (.around file) d seen history sh x) (hcalm : sh.calm = true)
    (hkept : Kept file mine x) (hs : start.Spares file mine s) :
    PlainStep file (x.current file) mine x s ((x.step s).1.answer, (x.step s).2) := by
  obtain ⟨hreply, hnext, hkept'⟩ := h.fresh.plain_perform hcalm hkept hs
  exact ⟨hreply, hnext, hkept'⟩

end Tracked

-- What a step that spares a file does to the shelf and the outputs is not done to the file.
theorem Effect.spared (heffect : Effect sh outputs s sh' outputs')
    (hs : start.Spares file mine s)
    (hwriters : ∀ handle, Writes outputs handle file → Writes start.outputs handle file) :
    sh'.calm = sh.calm ∧ sh'.files[file]? = sh.files[file]? ∧
      ∀ handle, Writes outputs' handle file → Writes start.outputs handle file := by
  cases heffect with
  | none => exact ⟨rfl, rfl, hwriters⟩
  | put i name data =>
    obtain ⟨_, hne, _⟩ := hs
    refine ⟨rfl, ?_, hwriters⟩
    rw [Shelf.publish, Maps.getElem?_insert, if_neg hne]
  | create on name purpose handle out _ hname _ hbecomes =>
    obtain ⟨_, hne, _⟩ := hs
    refine ⟨rfl, ?_, fun other hwrites => ?_⟩
    · rw [Shelf.publish, Maps.getElem?_insert, if_neg hne]
    · obtain ⟨out', hout', hunderway, hfile⟩ := hwrites
      rw [hbecomes] at hout'
      split at hout'
      · obtain rfl := Option.some.inj hout'
        exact absurd (hname.symm.trans hfile) hne
      · exact hwriters other ⟨out', hout', hunderway, hfile⟩
  | delete on name =>
    obtain ⟨_, hne⟩ := hs
    refine ⟨rfl, ?_, hwriters⟩
    rw [Shelf.erase, Maps.getElem?_erase, if_neg hne]
  | call _ handle hcalls out out' hout _ hadvances _ hbecomes =>
    have hother : ¬Writes start.outputs handle file := by
      cases s with
      | write | flush | closeOutput =>
        cases hcalls
        exact hs
      | _ => cases hcalls
    have hidle : ¬(Underway out ∧ sink.name out = file) := fun hwrites =>
      hother (hwriters handle ⟨out, hout, hwrites⟩)
    refine ⟨hadvances.calm, hadvances.files file fun hunderway hfile => ?_, fun other hwrites => ?_⟩
    · exact hidle ⟨hunderway, hfile.symm⟩
    · obtain ⟨out₂, hout₂, hunderway, hfile⟩ := hwrites
      rw [hbecomes] at hout₂
      split at hout₂
      · obtain rfl := Option.some.inj hout₂
        obtain ⟨hbefore, hname⟩ := hadvances.underway hunderway
        exact absurd ⟨hbefore, hname.symm.trans hfile⟩ hidle
      · exact hwriters other ⟨out₂, hout₂, hunderway, hfile⟩
  | drop handle _ hbecomes =>
    refine ⟨rfl, rfl, fun other hwrites => ?_⟩
    obtain ⟨out, hout, hwrites⟩ := hwrites
    rw [hbecomes] at hout
    split at hout
    · cases hout
    · exact hwriters other ⟨out, hout, hwrites⟩
  | faults _ hfaults =>
    cases s with
    | setFault | clearFault => exact hs.elim
    | _ => cases hfaults

-- No care is needed for a file that is left alone.
theorem Tracked.careful_of_spares (h : Tracked (.around file) d seen history sh x)
    (hwriters : ∀ handle, Writes x.outputs handle file → Writes start.outputs handle file)
    (hs : start.Spares file mine s) : x.Careful (.around file) s := by
  have hother (handle : String) (hidle : ¬Writes start.outputs handle file)
      {w : CachedWriter World.Out (Site World)} {o : MemoryOutput}
      (hdraft : x.draftOf handle = some (w, o)) : ¬(Scope.around file).trusted o.name := by
    intro hfile
    obtain ⟨out, hout, hdraft⟩ := Option.bind_eq_some_iff.mp hdraft
    obtain ⟨rfl, hw⟩ := (h.outputs handle out hout).drafting hdraft
    exact hidle (hwriters handle ⟨_, hout, hw.underway, hw.name_eq.trans hfile⟩)
  cases s with
  | openInput on name purpose handle => exact hs.1
  | create on name purpose handle => exact ⟨hs.1, hs.2.2⟩
  | delete on name => exact hs.1
  | put i name data => exact ⟨hs.1, hs.2.2⟩
  | write handle data => exact fun w o hdraft hfile => absurd hfile (hother handle hs hdraft)
  | flush handle => exact fun w o hdraft hfile => absurd hfile (hother handle hs hdraft)
  | closeOutput handle =>
    exact ⟨fun w o hdraft hfile => absurd hfile (hother handle hs hdraft),
      fun w o hdraft hfile => absurd hfile (hother handle hs hdraft)⟩
  | seek | read | clone | drop => trivial
  | _ => exact hs.elim

-- As long as a file is left alone, its inputs answer like readers of a plain file.
theorem Tracked.replies_eq (h : Tracked (.around file) d seen history sh x) (hcalm : sh.calm = true)
    (hkept : Kept file mine x)
    (hwriters : ∀ handle, Writes x.outputs handle file → Writes start.outputs handle file)
    (steps : List Step) (hspares : ∀ s ∈ steps, start.Spares file mine s) :
    x.replies mine steps = (x.marksOf mine).replies file (x.current file) mine steps := by
  induction steps generalizing x seen history sh with
  | nil => rfl
  | cons s rest ih =>
    obtain ⟨hs, hrest⟩ := List.forall_mem_cons.mp hspares
    obtain ⟨hreply, hnext, hkept'⟩ := h.plain_step hcalm hkept hs
    obtain ⟨history', sh', h', heffect⟩ := h.step (h.careful_of_spares hwriters hs)
    obtain ⟨hcalm', hfile, hwriters'⟩ := heffect.spared hs hwriters
    have hcurrent : (x.step s).2.current file = x.current file := by
      rw [h'.current_eq, h.current_eq, hfile]
    have hafter := ih h' (hcalm'.trans hcalm) hkept' hwriters' hrest
    rw [hcurrent, hnext] at hafter
    rw [replies, Marks.replies, hafter]
    by_cases hmine : s.input.any mine = true
    · rw [if_pos hmine, if_pos hmine]
      exact congrArg (· :: _) (hreply hmine)
    · rw [if_neg hmine, if_neg hmine]

-- From a run on that was careful about a file, and as long as the file is left alone, its inputs do
-- not notice the steps on an output: without these steps they give the same answers.
theorem replies_without_output {sizing : Sizing} {memory : Memory} {depth : Nat} {policy : Policy}
    {ownBuffers : Bool} {output : String}
    (hnew : new (some sizing) depth [.memory] [⟨name, .backend 0, policy, ownBuffers⟩] memory =
      .ok start)
    (hrun : Reached (Careful (.around file)) start x seen) (hcalm : x.Calm)
    (hkept : Kept file mine x) (houtput : mine output = false) (steps : List Step)
    (hspares : ∀ s ∈ steps, x.Spares file mine s) :
    x.replies mine (steps.filter fun s => !s.usesOutput output) = x.replies mine steps := by
  obtain ⟨d, hstart, _⟩ := start_tracked (.around file) hnew
  obtain ⟨history, sh, h⟩ := hrun.tracked hstart
  have hplain (steps : List Step) (hspares : ∀ s ∈ steps, x.Spares file mine s) :=
    h.replies_eq (h.calm hcalm) hkept (fun _ => id) steps hspares
  rw [hplain steps hspares, hplain _ fun s hs => hspares s (List.mem_of_mem_filter hs)]
  exact Marks.replies_filter file _ _ houtput steps

theorem kept_of_fileOf (h : x.fileOf handle = some file) : Kept file (· == handle) x := by
  intro other r hmine hr
  obtain rfl : other = handle := beq_iff_eq.mp hmine
  rw [fileOf, hr] at h
  exact Option.some.inj h

theorem not_writes_of_isNone (h : x.outputs[handle]?.isNone = true) (file : String) :
    ¬Writes x.outputs handle file := by
  rintro ⟨out, hout, _⟩
  rw [hout] at h
  cases h

-- A file is written through the cache while an input of another one is read from it.
theorem replies_without_output_cached : ∃ start x seen,
    new (some (.ofLayout 4 1 8192)) 1 [.memory] [⟨"d", .backend 0, {}, false⟩] = .ok start ∧
      Reached (Careful (.around "f")) start x seen ∧
        (x.Calm ∧ Kept "f" (· == "r") x ∧ ∀ s ∈ [.create (.directory 0) "g" .general "w",
          .write "w" ⟨#[2]⟩, .flush "w", .read "r" 1], x.Spares "f" (· == "r") s) ∧
        x.replies (· == "r") ([.create (.directory 0) "g" .general "w", .write "w" ⟨#[2]⟩,
          .flush "w", .read "r" 1].filter fun s => !s.usesOutput "w") =
          x.replies (· == "r") [.create (.directory 0) "g" .general "w", .write "w" ⟨#[2]⟩,
            .flush "w", .read "r" 1] := by
  have hnew : new (some (.ofLayout 4 1 8192)) 1 [.memory] [⟨"d", .backend 0, {}, false⟩] = .ok _ :=
    rfl
  have hstart : ∀ {y}, new (some (.ofLayout 4 1 8192)) 1 [.memory]
      [⟨"d", .backend 0, {}, false⟩] = .ok y → Reached (Careful (.around "f")) y y fun _ => none :=
    fun _ => .start
  have hwritten := ((hstart hnew).step (.create (.directory 0) "f" .general "o")
    ⟨rfl, Directory.apart_self _⟩).step (.write "o" ⟨#[1]⟩) fun _ _ _ _ _ =>
      .of_keys (by decide +kernel) _
  have hrun := (hwritten.step (.closeOutput "o") ⟨fun _ _ _ _ _ => .of_keys (by decide +kernel) _,
    settled_of_staged (by decide +kernel)⟩).step (.openInput (.directory 0) "f" .general "r") rfl
  refine ⟨_, _, _, hnew, hrun, (and_iff_left_of_imp fun h =>
    replies_without_output hnew hrun h.1 h.2.1 rfl _ h.2.2).mpr ⟨?_, ?_, ?_⟩⟩
  · decide +kernel
  · exact kept_of_fileOf (by decide +kernel)
  · simp only [List.forall_mem_cons]
    refine ⟨⟨rfl, by decide, Directory.apart_plain (by decide) (by decide)⟩,
      not_writes_of_isNone (by decide +kernel) _, not_writes_of_isNone (by decide +kernel) _,
      trivial, fun _ hs => absurd hs List.not_mem_nil⟩

-- The bytes of a read that succeeded.
def Answer.delivered? : Answer → Option Bytes
  | .delivered ⟨b, none⟩ _ _ => some b
  | _ => none

-- Files that are not apart do meet: an output on a file that is named like a version of another one
-- gives its bytes to the input of that one.
theorem replies_with_output_named : ∃ start,
    new (some (.ofLayout 4 1 8192)) 1 [.memory] [⟨"d", .backend 0, {}, false⟩] = .ok start ∧
      let x := start.after [.create (.directory 0) "f" .general "o", .write "o" ⟨#[1]⟩,
        .closeOutput "o", .openInput (.directory 0) "f" .general "r"]
      let steps : List Step := [.create (.directory 0) "f:2" .general "w", .write "w" ⟨#[2]⟩,
        .flush "w", .read "r" 1]
      (x.replies (· == "r") (steps.filter fun s => !s.usesOutput "w")).map Answer.delivered? =
          [some ⟨#[1]⟩] ∧
        (x.replies (· == "r") steps).map Answer.delivered? = [some ⟨#[2]⟩] := by
  refine ⟨_, rfl, ?_, ?_⟩
  · decide +kernel
  · decide +kernel

end Session

end Blockwise
