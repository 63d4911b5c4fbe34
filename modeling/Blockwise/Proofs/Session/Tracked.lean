import Blockwise.Proofs.Volume.World
import Blockwise.Session
import Mathlib.Data.Nat.Init

namespace Blockwise

open Act

namespace Session

-- The names that files may have, and the files whose blocks are vouched for.
structure Scope where
  names : String → Prop
  trusted : String → Prop
  known : ∀ name, trusted name → names name
  apart : ∀ a b, names a → trusted b → Directory.Apart a b

namespace Scope

-- Every file of a plain name.
def plain : Scope where
  names := Directory.Plain
  trusted := Directory.Plain
  known _ := id
  apart _ _ := Directory.apart_plain

-- One file among those that are apart from it.
def around (name : String) : Scope where
  names := Directory.Apart name
  trusted other := other = name
  known _ hname := hname ▸ Directory.apart_self _
  apart _ _ ha hb := hb ▸ ha.symm

end Scope

variable {scope : Scope} {d : Directory} {history history' : Nat → Bytes} {sh sh' : Shelf}
  {name handle : String} {data : Bytes} {outputs : Std.TreeMap String AnyOutput} {out : AnyOutput}
  {w : CachedWriter World.Out (Site World)} {o : MemoryOutput}

-- Every file of the shelf is what the history has at its stamp.
def Filed (scope : Scope) (history : Nat → Bytes) (sh : Shelf) : Prop :=
  ∀ name file, sh.files[name]? = some file →
    scope.names name ∧ file.stamp ≤ sh.clock ∧ history file.stamp = file.data

-- No stamp that was given out gets another meaning.
structure Follows (history : Nat → Bytes) (sh : Shelf) (history' : Nat → Bytes) (sh' : Shelf) :
    Prop where
  clock : sh.clock ≤ sh'.clock
  kept : ∀ stamp ≤ sh.clock, history' stamp = history stamp

theorem Follows.refl (history : Nat → Bytes) (sh : Shelf) : Follows history sh history sh :=
  ⟨Nat.le_refl _, fun _ _ => rfl⟩

theorem Filed.publish (h : Filed scope history sh) (hname : scope.names name) (data : Bytes) :
    ∃ history', Filed scope history' (sh.publish name data) ∧
      Follows history sh history' (sh.publish name data) := by
  refine ⟨fun stamp => if stamp = sh.clock + 1 then data else history stamp, ?_, ?_, ?_⟩
  · intro other file hfile
    rw [Shelf.publish, Maps.getElem?_insert] at hfile
    split at hfile
    · next heq =>
      obtain rfl := Option.some.inj hfile
      exact ⟨heq ▸ hname, Nat.le_refl _, if_pos rfl⟩
    · obtain ⟨hnames, hstamp, hdata⟩ := h other file hfile
      exact ⟨hnames, Nat.le_succ_of_le hstamp, (if_neg (by omega)).trans hdata⟩
  · exact Nat.le_succ _
  · intro stamp hstamp
    exact if_neg (by omega)

theorem Filed.erase (h : Filed scope history sh) (name : String) :
    Filed scope history (sh.erase name) := by
  intro other file hfile
  rw [Shelf.erase, Maps.getElem?_erase] at hfile
  split at hfile
  · cases hfile
  · exact h other file hfile

theorem Filed.flush (h : Filed scope history sh) (hname : scope.names o.name) :
    ∃ history', Filed scope history' (sh.flush o) ∧ Follows history sh history' (sh.flush o) := by
  unfold Shelf.flush
  split
  · exact h.publish hname o.buffer
  · exact ⟨history, h, .refl _ _⟩

-- An output that was neither closed nor dropped. A close that is refused by the store leaves a
-- plain output open, and a caching one closed.
def Underway : AnyOutput → Prop
  | ⟨0, Sited.memory _ o⟩ => o.closed = false
  | ⟨0, Sited.disk _ o⟩ => o.closed = false
  | ⟨_ + 1, w⟩ => w.settle.isSome = true

-- An output under way that is written through the cache, with the output of the store below it.
def draft : AnyOutput → Option (CachedWriter World.Out (Site World) × MemoryOutput)
  | ⟨1, (w : CachedWriter World.Out (Site World))⟩ =>
    match w.below, w.settle with
    | Sited.memory _ o, some _ => some (w, o)
    | _, _ => none
  | _ => none

theorem draft_eq {out : AnyOutput} (h : draft out = some (w, o)) :
    out = ⟨1, w⟩ ∧ w.settle.isSome = true := by
  unfold draft at h
  split at h
  · split at h
    · next hsettle =>
      obtain ⟨rfl, rfl⟩ := Prod.mk.inj (Option.some.inj h)
      exact ⟨rfl, by rw [hsettle]; rfl⟩
    · cases h
  · cases h

-- What a trusted output has handed on so far, under its location.
def Draft (scope : Scope) (out : AnyOutput) (location : String) (data : Bytes) : Prop :=
  ∃ (w : CachedWriter World.Out (Site World)) (o : MemoryOutput), draft out = some (w, o) ∧
    scope.trusted o.name ∧ location = w.location ∧ data = o.buffer

def Versions (scope : Scope) (d : Directory) (history : Nat → Bytes) (sh : Shelf) (name : String)
    (data : Bytes) : Prop :=
  ∃ file stamp, scope.trusted file ∧ name = d.version file stamp ∧
    (stamp ≤ sh.clock → data = history stamp)

-- Versions of trusted files are claimed to be what the history has at their stamp, versions yet to
-- come to be anything, and the location of a trusted file that is being written to be what its
-- outputs hold so far.
def Claims (scope : Scope) (d : Directory) (history : Nat → Bytes) (sh : Shelf)
    (outputs : Std.TreeMap String AnyOutput) (name : String) (data : Bytes) : Prop :=
  Versions scope d history sh name data ∨
    ∃ (handle : String) (out : AnyOutput), outputs[handle]? = some out ∧ Draft scope out name data

theorem Claims.of_follows (hfollows : Follows history sh history' sh')
    (h : Claims scope d history' sh' outputs name data) :
    Claims scope d history sh outputs name data := by
  refine h.imp_left ?_
  intro hfiled
  obtain ⟨file, stamp, htrusted, rfl, hdata⟩ := hfiled
  refine ⟨file, stamp, htrusted, rfl, fun hstamp => ?_⟩
  rw [hdata (Nat.le_trans hstamp hfollows.clock), hfollows.kept stamp hstamp]

theorem Claims.of_erase (h : Claims scope d history sh (outputs.erase handle) name data) :
    Claims scope d history sh outputs name data := by
  refine h.imp_right ?_
  intro hdraft
  obtain ⟨other, out, hout, hdraft⟩ := hdraft
  rw [Maps.getElem?_erase] at hout
  split at hout
  · cases hout
  · exact ⟨other, out, hout, hdraft⟩

theorem Claims.of_insert (h : Claims scope d history sh (outputs.insert handle out) name data) :
    Draft scope out name data ∨ Claims scope d history sh (outputs.erase handle) name data := by
  rcases h with hversion | ⟨other, out', hout, hdraft⟩
  · exact .inr (.inl hversion)
  rw [Maps.getElem?_insert] at hout
  split at hout
  · obtain rfl := Option.some.inj hout
    exact .inl hdraft
  · next hne =>
    refine .inr (.inr ⟨other, out', ?_, hdraft⟩)
    rw [Maps.getElem?_erase, if_neg hne]
    exact hout

-- An output that writes through the cache.
structure Drafting (scope : Scope) (d : Directory) (w : CachedWriter World.Out (Site World))
    (o : MemoryOutput) : Prop where
  below : w.below = .memory 0 o
  name : scope.names o.name
  location : w.location = d.location o.name
  settle : w.settle = some (d.cacheName (World.cellar 0) o.name)
  staging : w.Staging o.buffer
  closed : o.closed = false

-- The outputs of a directory: past the cache, through it, and after a close.
inductive Penned (scope : Scope) (d : Directory) : AnyOutput → Prop
  | plain (o : MemoryOutput) (hname : scope.names o.name)
      (hdone : o.closed = true → o.dirty = false) : Penned scope d (.plain (.memory 0 o))
  | cached (w : CachedWriter World.Out (Site World)) (o : MemoryOutput) (h : Drafting scope d w o) :
      Penned scope d ⟨1, w⟩
  | retired (w : CachedWriter World.Out (Site World)) (h : w.settle = none) : Penned scope d ⟨1, w⟩

-- The inputs of a directory, with the file that they were opened on.
inductive Opened (scope : Scope) (d : Directory) (history : Nat → Bytes) (sh : Shelf) :
    AnyInput → String → Bytes → Prop
  | plain (name : String) (data : Bytes) (hname : scope.names name) :
      Opened scope d history sh (.plain (.memory 0 ⟨name, data⟩)) name data
  | cached (name : String) (stamp : Nat) (label : CacheLabel) (hname : scope.names name)
      (hlabel : label.name = name) (hversion : label.cacheName = d.version name stamp)
      (hstamp : stamp ≤ sh.clock) (hlength : label.length = (history stamp).size)
      (hpool : label.pool = d.pool) :
      Opened scope d history sh (.cached (.plain (.memory 0 ⟨name, history stamp⟩)) label) name
        (history stamp)

section

variable {source : AnyInput}

theorem Opened.of_follows (hfollows : Follows history sh history' sh')
    (h : Opened scope d history sh source name data) :
    Opened scope d history' sh' source name data := by
  cases h with
  | plain name data hname => exact .plain name data hname
  | cached name stamp label hname hlabel hversion hstamp hlength hpool =>
    rw [← hfollows.kept stamp hstamp] at hlength ⊢
    exact .cached name stamp label hname hlabel hversion (Nat.le_trans hstamp hfollows.clock)
      hlength hpool

theorem Opened.names (h : Opened scope d history sh source name data) : scope.names name := by
  cases h with
  | plain _ _ hname => exact hname
  | cached _ _ _ hname => exact hname

theorem Opened.name_eq (h : Opened scope d history sh source name data) :
    feed.name source = name := by
  cases h with
  | plain => rfl
  | cached _ _ _ _ hlabel => exact hlabel

theorem Opened.length_eq (h : Opened scope d history sh source name data) :
    feed.length source = data.size := by
  cases h with
  | plain => rfl
  | cached _ _ _ _ _ _ _ hlength => exact hlength

end

theorem Drafting.underway (h : Drafting scope d w o) : Underway ⟨1, w⟩ := by
  show w.settle.isSome = true
  rw [h.settle]
  rfl

theorem Drafting.name_eq (h : Drafting scope d w o) : sink.name (⟨1, w⟩ : AnyOutput) = o.name := by
  show World.sink.name w.below = o.name
  rw [h.below]
  rfl

theorem Drafting.draft_eq (h : Drafting scope d w o) : draft ⟨1, w⟩ = some (w, o) := by
  rw [draft, h.below, h.settle]

-- Only an output that writes through the cache has a draft.
theorem Penned.drafting (h : Penned scope d out) (hdraft : draft out = some (w, o)) :
    out = ⟨1, w⟩ ∧ Drafting scope d w o := by
  obtain ⟨rfl, hopen⟩ := Session.draft_eq hdraft
  cases h with
  | retired _ h =>
    rw [h] at hopen
    cases hopen
  | cached _ o' h =>
    obtain ⟨-, rfl⟩ := Prod.mk.inj (Option.some.inj (h.draft_eq.symm.trans hdraft))
    exact ⟨rfl, h⟩

-- No output on the file is under way.
def Free (x : Session) (name : String) : Prop :=
  ∀ (handle : String) (out : AnyOutput), x.outputs[handle]? = some out → Underway out →
    sink.name out ≠ name

-- No other output on the file has handed on anything.
def Alone (x : Session) (handle name : String) : Prop :=
  ∀ (other : String) (out : AnyOutput) (w : CachedWriter World.Out (Site World)) (o : MemoryOutput),
    handle ≠ other → x.outputs[other]? = some out → draft out = some (w, o) → o.name = name →
      o.buffer = ByteArray.empty

-- A session of one directory over one memory store, and what each input was opened on.
structure Tracked (scope : Scope) (d : Directory) (seen : String → Option Bytes)
    (history : Nat → Bytes) (sh : Shelf) (x : Session) : Prop where
  backends : x.backends = #[⟨.memory 0 (), World.cellar 0⟩]
  directories : x.directories = #[⟨d, World.cellar 0, d.volume World.feed (World.cellar 0)⟩]
  locks : x.locks = ∅
  shelf : x.site.store.shelf 0 = some sh
  filed : Filed scope history sh
  honest : x.site.tier.Honest d.pool (Claims scope d history sh x.outputs)
  inputs : ∀ (handle : String) (r : Reader AnyInput), x.inputs[handle]? = some r →
    ∃ name data, seen handle = some data ∧ Opened scope d history sh r.source name data
  outputs : ∀ (handle : String) (out : AnyOutput), x.outputs[handle]? = some out →
    Penned scope d out

namespace Tracked

variable {seen : String → Option Bytes} {x : Session} {site : Site World}

theorem onShelf (h : Tracked scope d seen history sh x) : OnShelf 0 x.site.tier sh x.site :=
  ⟨rfl, h.shelf⟩

theorem volume_eq (h : Tracked scope d seen history sh x) :
    x.volume (.directory 0) = .ok (d.volume World.feed (World.cellar 0)) := by
  rw [Session.volume, mounted, h.directories]
  rfl

theorem backend_eq (h : Tracked scope d seen history sh x) :
    x.backend 0 = .ok ⟨.memory 0 (), World.cellar 0⟩ := by
  rw [backend, h.backends]
  rfl

-- The shelf changes under the session.
theorem advance (h : Tracked scope d seen history sh x) (hfiled : Filed scope history' sh')
    (hfollows : Follows history sh history' sh') (hshelf : site.store.shelf 0 = some sh')
    (hhonest : site.tier.Honest d.pool (Claims scope d history sh x.outputs)) :
    Tracked scope d seen history' sh' { x with site } :=
  { h with
    shelf := hshelf
    filed := hfiled
    honest := hhonest.mono fun _ _ => Claims.of_follows hfollows
    inputs := fun handle r hr => by
      obtain ⟨name, data, hseen, hopened⟩ := h.inputs handle r hr
      exact ⟨name, data, hseen, hopened.of_follows hfollows⟩ }

theorem withSite (h : Tracked scope d seen history sh x) (hshelf : site.store.shelf 0 = some sh)
    (hhonest : site.tier.Honest d.pool (Claims scope d history sh x.outputs)) :
    Tracked scope d seen history sh { x with site } :=
  h.advance h.filed (.refl _ _) hshelf hhonest

-- Every step starts with an empty journal.
theorem fresh (h : Tracked scope d seen history sh x) : Tracked scope d seen history sh
    { x with site := { x.site with tier := { x.site.tier with journal := #[] } } } :=
  h.withSite h.shelf (h.honest.of_files rfl)

theorem publish (h : Tracked scope d seen history sh x) (hname : scope.names name) (data : Bytes)
    {store : World} (hshelf : store.shelf 0 = some (sh.publish name data)) :
    ∃ history', Tracked scope d seen history' (sh.publish name data)
      { x with site := { x.site with store } } := by
  obtain ⟨history', hfiled, hfollows⟩ := h.filed.publish hname data
  exact ⟨history', h.advance hfiled hfollows hshelf h.honest⟩

theorem keepInput (h : Tracked scope d seen history sh x) {r : Reader AnyInput}
    (hr : Opened scope d history sh r.source name data) (handle : String) :
    Tracked scope d (fun other => if handle = other then some data else seen other) history sh
      (x.keepInput handle r) :=
  { h with
    inputs := fun other r' hr' => by
      rw [Session.keepInput, Maps.getElem?_insert] at hr'
      split at hr'
      · next heq =>
        obtain rfl := Option.some.inj hr'
        exact ⟨name, data, if_pos heq, hr⟩
      · next hne =>
        rw [if_neg hne]
        exact h.inputs other r' hr' }

-- One output is put in the place of another or of none.
theorem putOutput (h : Tracked scope d seen history sh x) (hfiled : Filed scope history' sh')
    (hfollows : Follows history sh history' sh') (hshelf : site.store.shelf 0 = some sh')
    (hhonest : site.tier.Honest d.pool
      (Claims scope d history' sh' (x.outputs.insert handle out)))
    (hpenned : Penned scope d out) :
    Tracked scope d seen history' sh' { x with site, outputs := x.outputs.insert handle out } :=
  { h with
    shelf := hshelf
    filed := hfiled
    honest := hhonest
    inputs := fun other r hr => by
      obtain ⟨name, data, hseen, hopened⟩ := h.inputs other r hr
      exact ⟨name, data, hseen, hopened.of_follows hfollows⟩
    outputs := fun other out' hout' => by
      rw [Maps.getElem?_insert] at hout'
      split at hout'
      · exact Option.some.inj hout' ▸ hpenned
      · exact h.outputs other out' hout' }

-- Only trusted files are claimed under their versions, and nothing but the history.
theorem of_version (h : Tracked scope d seen history sh x) {stamp : Nat} (hname : scope.names name)
    (hclaim : Claims scope d history' sh' x.outputs (d.version name stamp) data) :
    scope.trusted name ∧ (stamp ≤ sh'.clock → data = history' stamp) := by
  rcases hclaim with ⟨file, stamp', htrusted, hsame, hdata⟩ | ⟨other, out, hout, hdraft⟩
  · obtain ⟨rfl, rfl⟩ := Directory.version_inj hsame
    exact ⟨htrusted, hdata⟩
  · obtain ⟨w, o, hdraft, htrusted, hlocation, _⟩ := hdraft
    obtain ⟨_, hw⟩ := (h.outputs other out hout).drafting hdraft
    rw [hw.location] at hlocation
    exact absurd hlocation.symm (scope.apart name o.name hname htrusted).symm.location_ne_version

end Tracked

end Session

end Blockwise
