import Blockwise.Proofs.Session.Careful
import Mathlib

namespace Blockwise

open Act

namespace Session

variable {d : Directory} {seen : String → Option Bytes} {history : Nat → Bytes} {sh sh' : Shelf}
  {start x : Session} {name handle : String} {s : Step} {out : AnyOutput}
  {outputs outputs' : Std.TreeMap String AnyOutput} {site : Site World}

-- The steps of users of the directory, and of others past it. New content comes only to files of
-- plain names that no output is under way on, and calls of the store may be refused at any time.
def Lawful (x : Session) : Step → Prop
  | .openInput on _ _ _ => on = .directory 0
  | .create on name _ _ => on = .directory 0 ∧ Directory.Plain name ∧ x.Free name
  | .delete on _ => on = .directory 0
  | .put i name _ => i = 0 ∧ Directory.Plain name ∧ x.Free name
  | .setFault i _ => i = 0
  | .clearFault i _ => i = 0
  | .seek _ _ | .read _ _ | .clone _ _ | .write _ _ | .flush _ | .closeOutput _ | .drop _ => True
  | _ => False

-- The sessions that lawful steps lead to, and what each input was opened on.
inductive Run (start : Session) : Session → (String → Option Bytes) → Prop
  | start : Run start start fun _ => none
  | step {x : Session} {seen : String → Option Bytes} (h : Run start x seen) (s : Step)
      (hs : x.Lawful s) : Run start (x.step s).2 (x.seenAfter seen s)

-- No two outputs under way are on one file, and what each of them published last is the file.
structure Exclusive (sh : Shelf) (outputs : Std.TreeMap String AnyOutput) : Prop where
  single : ∀ (handle handle' : String) (out out' : AnyOutput), outputs[handle]? = some out →
    outputs[handle']? = some out' → Underway out → Underway out' →
      sink.name out = sink.name out' → handle = handle'
  clean : ∀ (handle : String) (out : AnyOutput), outputs[handle]? = some out → Clean sh out

theorem Clean.of_files {scope : Scope} (hpenned : Penned scope d out) (h : Clean sh out)
    (hfiles : Underway out → ∀ file, sh'.files[sink.name out]? = some file →
      sh.files[sink.name out]? = some file) : Clean sh' out := by
  intro w o hdraft hdirty file hfile
  obtain ⟨rfl, hw⟩ := hpenned.drafting hdraft
  rw [hw.name_eq] at hfiles
  exact h w o hdraft hdirty file (hfiles hw.underway file hfile)

-- One output is put in the place of another or of none.
theorem Exclusive.becomes (h : Exclusive sh outputs)
    (hbecomes : Becomes outputs handle (some out) outputs') (hclean : Clean sh' out)
    (hsingle : ∀ (other : String) (out' : AnyOutput), handle ≠ other → outputs[other]? = some out' →
      Underway out' → Underway out → sink.name out' ≠ sink.name out)
    (hothers : ∀ (other : String) (out' : AnyOutput), handle ≠ other → outputs[other]? = some out' →
      Clean sh' out') : Exclusive sh' outputs' where
  single first second out₁ out₂ h₁ h₂ hunderway₁ hunderway₂ hname := by
    rw [hbecomes] at h₁ h₂
    split at h₁
    · split at h₂
      · next heq₁ heq₂ => exact heq₁.symm.trans heq₂
      · next hne =>
        obtain rfl := Option.some.inj h₁
        exact absurd hname.symm (hsingle second out₂ hne h₂ hunderway₂ hunderway₁)
    · next hne =>
      split at h₂
      · obtain rfl := Option.some.inj h₂
        exact absurd hname (hsingle first out₁ hne h₁ hunderway₁ hunderway₂)
      · exact h.single first second out₁ out₂ h₁ h₂ hunderway₁ hunderway₂ hname
  clean other out' hout' := by
    rw [hbecomes] at hout'
    split at hout'
    · exact Option.some.inj hout' ▸ hclean
    · next hne => exact hothers other out' hne hout'

-- A tracked session in which no file is replaced under an output.
structure Coherent (d : Directory) (seen : String → Option Bytes) (history : Nat → Bytes) (sh : Shelf)
    (x : Session) : Prop extends Tracked .plain d seen history sh x where
  exclusive : Exclusive sh x.outputs

theorem start_coherent {sizing : Sizing} {memory : Memory} {depth : Nat} {policy : Policy}
    {ownBuffers : Bool}
    (h : new (some sizing) depth [.memory] [⟨name, .backend 0, policy, ownBuffers⟩] memory =
      .ok start) :
    ∃ d, Coherent d (fun _ => none) (fun _ => ByteArray.empty) {} start := by
  obtain ⟨d, htracked, hnone⟩ := start_tracked .plain h
  refine ⟨d, htracked, ⟨fun handle _ out _ hout => ?_, fun handle out hout => ?_⟩⟩
  · exact nomatch (hnone handle).symm.trans hout
  · exact nomatch (hnone handle).symm.trans hout

namespace Coherent

theorem withSite (h : Coherent d seen history sh x) (hshelf : site.store.shelf 0 = some sh)
    (hhonest : site.tier.Honest d.pool (Claims .plain d history sh x.outputs)) :
    Coherent d seen history sh { x with site } :=
  ⟨h.toTracked.withSite hshelf hhonest, h.exclusive⟩

-- What a read that succeeds answers with.
theorem read_answer (h : Coherent d seen history sh x) {len length position : Nat} {bytes : Bytes}
    (hread : (x.read handle len).1 = .delivered ⟨bytes, none⟩ length position) :
    ∃ r data, x.inputs[handle]? = some r ∧ seen handle = some data ∧
      r.position + len ≤ data.size ∧ bytes = Bytes.slice data r.position len := by
  obtain ⟨r, name, data, hr, hseen, hopened, hdelivered⟩ := h.toTracked.read_answer hread
  exact ⟨r, data, hr, hseen, hdelivered hopened.names⟩

theorem underway_of_draftOf {w : CachedWriter World.Out (Site World)} {o : MemoryOutput}
    (h : Coherent d seen history sh x) (hdraft : x.draftOf handle = some (w, o)) :
    ∃ out, x.outputs[handle]? = some out ∧ draft out = some (w, o) ∧ Underway out ∧
      sink.name out = o.name := by
  obtain ⟨out, hout, hdraft⟩ := Option.bind_eq_some_iff.mp hdraft
  obtain ⟨rfl, hw⟩ := (h.outputs handle out hout).drafting hdraft
  exact ⟨_, hout, hdraft, hw.underway, hw.name_eq⟩

theorem alone {w : CachedWriter World.Out (Site World)} {o : MemoryOutput}
    (h : Coherent d seen history sh x) (hdraft : x.draftOf handle = some (w, o)) :
    x.Alone handle o.name := by
  intro other out' w' o' hne hout' hdraft' hname
  obtain ⟨out, hout, _, hunderway, hsink⟩ := h.underway_of_draftOf hdraft
  obtain ⟨rfl, hw'⟩ := (h.outputs other out' hout').drafting hdraft'
  have hsame : sink.name out = sink.name (⟨1, w'⟩ : AnyOutput) := by rw [hsink, hw'.name_eq, hname]
  exact absurd (h.exclusive.single handle other _ _ hout hout' hunderway hw'.underway hsame) hne

-- Where no file is replaced under an output, no more care is needed.
theorem careful (h : Coherent d seen history sh x) (hs : x.Lawful s) : x.Careful .plain s := by
  cases s with
  | create on name purpose handle => exact ⟨hs.1, hs.2.1⟩
  | put i name data => exact ⟨hs.1, hs.2.1⟩
  | write handle data => exact fun w o hdraft _ _ => h.alone hdraft
  | flush handle => exact fun w o hdraft _ _ => h.alone hdraft
  | closeOutput handle =>
    refine ⟨fun w o hdraft _ _ => h.alone hdraft, fun w o hdraft _ _ hdirty data hdata => ?_⟩
    obtain ⟨out, hout, hdraft, _⟩ := h.underway_of_draftOf hdraft
    rw [h.current_eq] at hdata
    obtain ⟨file, hfile, rfl⟩ := Option.map_eq_some_iff.mp hdata
    exact h.exclusive.clean handle out hout w o hdraft hdirty file hfile
  | _ => exact hs

-- New content for a file that no output is under way on harms no output.
theorem clean_publish (h : Coherent d seen history sh x) (hfree : x.Free name) (data : Bytes)
    (hout : x.outputs[handle]? = some out) : Clean (sh.publish name data) out := by
  refine (h.exclusive.clean handle out hout).of_files (h.outputs handle out hout) ?_
  intro hunderway file hfile
  rwa [Shelf.publish, Maps.getElem?_insert, if_neg (hfree handle out hout hunderway).symm] at hfile

theorem exclusive_after (h : Coherent d seen history sh x) (hs : x.Lawful s)
    (heffect : Effect sh x.outputs s sh' outputs') : Exclusive sh' outputs' := by
  cases heffect with
  | none => exact h.exclusive
  | put i name data =>
    obtain ⟨_, _, hfree⟩ := hs
    exact ⟨h.exclusive.single, fun handle out hout => h.clean_publish hfree data hout⟩
  | create on name purpose handle out _ hname hclean hbecomes =>
    obtain ⟨_, _, hfree⟩ := hs
    refine h.exclusive.becomes hbecomes hclean ?_ fun other out' _ hout' =>
      h.clean_publish hfree _ hout'
    rw [hname]
    exact fun other out' _ hout' hunderway' _ => hfree other out' hout' hunderway'
  | delete on name =>
    refine ⟨h.exclusive.single, fun handle out hout => ?_⟩
    refine (h.exclusive.clean handle out hout).of_files (h.outputs handle out hout) ?_
    intro _ file hfile
    rw [Shelf.erase, Maps.getElem?_erase] at hfile
    split at hfile
    · cases hfile
    · exact hfile
  | call _ handle _ out out' hout _ hadvances _ hbecomes =>
    refine h.exclusive.becomes hbecomes (hadvances.clean (h.exclusive.clean handle out hout)) ?_ ?_
    · intro other out₂ hne hout₂ hunderway₂ hunderway
      obtain ⟨hbefore, hname⟩ := hadvances.underway hunderway
      rw [hname]
      exact fun hsame =>
        hne (h.exclusive.single handle other _ _ hout hout₂ hbefore hunderway₂ hsame.symm)
    · intro other out₂ hne hout₂
      refine (h.exclusive.clean other out₂ hout₂).of_files (h.outputs other out₂ hout₂) ?_
      intro hunderway₂ file hfile
      rwa [hadvances.files _ fun hbefore hsame =>
        hne (h.exclusive.single handle other _ _ hout hout₂ hbefore hunderway₂ hsame.symm)] at hfile
  | drop handle _ hbecomes =>
    have hkept (other : String) (out : AnyOutput) (hout : outputs'[other]? = some out) :
        x.outputs[other]? = some out := by
      rw [hbecomes] at hout
      split at hout
      · cases hout
      · exact hout
    exact ⟨fun first second _ _ h₁ h₂ =>
      h.exclusive.single first second _ _ (hkept first _ h₁) (hkept second _ h₂),
      fun other out hout => h.exclusive.clean other out (hkept other out hout)⟩
  | faults => exact ⟨h.exclusive.single, h.exclusive.clean⟩

-- One step keeps the session coherent, with what it opened taken down.
theorem step (h : Coherent d seen history sh x) (hs : x.Lawful s) :
    ∃ history' sh', Coherent d (x.seenAfter seen s) history' sh' (x.step s).2 := by
  obtain ⟨history', sh', htracked, heffect⟩ := h.toTracked.step (h.careful hs)
  exact ⟨history', sh', htracked, h.exclusive_after hs heffect⟩

end Coherent

theorem Run.coherent (hrun : Run start x seen) {history : Nat → Bytes} {sh : Shelf}
    (h : Coherent d (fun _ => none) history sh start) :
    ∃ history' sh', Coherent d seen history' sh' x := by
  induction hrun with
  | start => exact ⟨history, sh, h⟩
  | step hrun s hs ih =>
    obtain ⟨_, _, h'⟩ := ih
    exact h'.step hs

-- After any run, a read that succeeds has the bytes at the position of its input, of the file that
-- was current when the input, or the one it was cloned from, was opened.
theorem read_eq_opened {sizing : Sizing} {memory : Memory} {depth len length position : Nat}
    {policy : Policy} {ownBuffers : Bool} {bytes : Bytes}
    (hnew : new (some sizing) depth [.memory] [⟨name, .backend 0, policy, ownBuffers⟩] memory =
      .ok start)
    (hrun : Run start x seen)
    (hread : (x.step (.read handle len)).1.answer = .delivered ⟨bytes, none⟩ length position) :
    ∃ r data, x.inputs[handle]? = some r ∧ seen handle = some data ∧
      r.position + len ≤ data.size ∧ bytes = Bytes.slice data r.position len := by
  obtain ⟨d, hstart⟩ := start_coherent hnew
  obtain ⟨history, sh, h⟩ := hrun.coherent hstart
  have hfresh : Coherent d seen history sh
      { x with site := { x.site with tier := { x.site.tier with journal := #[] } } } :=
    h.withSite h.shelf (h.honest.of_files rfl)
  exact hfresh.read_answer hread

theorem Free.of_isEmpty (h : x.outputs.isEmpty = true) (name : String) : x.Free name := by
  intro handle out hout
  rw [Std.TreeMap.getElem?_of_isEmpty h] at hout
  cases hout

-- A file that was written through the cache is replaced past it while its input is open; the read
-- is served from the cache.
theorem read_eq_opened_replaced : ∃ start x seen,
    new (some (.ofLayout 1 2 8192)) 1 [.memory] [⟨"d", .backend 0, {}, false⟩] = .ok start ∧
      Run start x seen ∧ (x.step (.read "h" 2)).1.answer = .delivered ⟨⟨#[1, 2]⟩, none⟩ 2 2 ∧
        ∃ r data, x.inputs["h"]? = some r ∧ seen "h" = some data ∧ r.position + 2 ≤ data.size ∧
          ⟨#[1, 2]⟩ = Bytes.slice data r.position 2 := by
  have hnew : new (some (.ofLayout 1 2 8192)) 1 [.memory] [⟨"d", .backend 0, {}, false⟩] = .ok _ :=
    rfl
  have hstart : ∀ {y}, new (some (.ofLayout 1 2 8192)) 1 [.memory]
      [⟨"d", .backend 0, {}, false⟩] = .ok y → Run y y fun _ => none := fun _ => .start
  have hwritten := ((((hstart hnew).step (.create (.directory 0) "f" .general "o")
    ⟨rfl, by decide, .of_isEmpty rfl _⟩).step (.write "o" ⟨#[1, 2, 3]⟩) trivial).step
    (.closeOutput "o") trivial).step (.drop "o") trivial
  have hrun := (hwritten.step (.openInput (.directory 0) "f" .general "h") rfl).step
    (.put 0 "f" ⟨#[9]⟩) ⟨rfl, by decide, .of_isEmpty (by decide +kernel) _⟩
  refine ⟨_, _, _, hnew, hrun, (and_iff_left_of_imp (read_eq_opened hnew hrun)).mpr ?_⟩
  decide +kernel

end Session

end Blockwise
