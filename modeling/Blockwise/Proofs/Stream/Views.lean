import Blockwise.Proofs.Stream.Reading
import Blockwise.Proofs.Tier.Others
import Blockwise.Volume.Memory

namespace Blockwise

open Act

-- An input and its clones, each at a position of its own.
structure Views (ι σ : Type) where
  world : σ
  readers : List (Reader ι)

namespace Views

-- Reads fill a buffer of the caller. Others act in between.
inductive Call where
  | seek (view position : Nat)
  | read (view : Nat) (buffer : Bytes)
  | clone (view : Nat)
  | aside (a : Aside)

-- Why a call failed, the buffer as it leaves it, and what the view then says of itself; after a
-- clone that is the new one.
structure Reply where
  failure : Option Failure := none
  buffer : Bytes := ByteArray.empty
  name : String
  length : Nat
  position : Nat

variable {ι σ β : Type}

def reply (feed : Feed ι σ) (r : Reader ι) (failure : Option Failure) (buffer : Bytes) : Reply :=
  ⟨failure, buffer, feed.name r.source, feed.length r.source, r.position⟩

def withReader (v : Views ι σ) (view : Nat) (r : Reader ι) (world : σ) : Views ι σ :=
  ⟨world, v.readers.set view r⟩

-- A call on a view that is not there has no answer, nor has what others do.
def perform (feed : Feed ι σ) (aside : Aside → σ → σ) (v : Views ι σ) :
    Call → Option Reply × Views ι σ
  | .seek view position =>
    match v.readers[view]? with
    | none => (none, v)
    | some r =>
      match r.seek feed position v.world with
      | (.ok _, r, world) => (some (reply feed r none ByteArray.empty), v.withReader view r world)
      | (.error e, r, world) =>
        (some (reply feed r (some e) ByteArray.empty), v.withReader view r world)
  | .read view buffer =>
    match v.readers[view]? with
    | none => (none, v)
    | some r =>
      let (delivery, r, world) := r.read feed buffer.size v.world
      (some (reply feed r delivery.failure (delivery.into buffer)), v.withReader view r world)
  | .clone view =>
    match v.readers[view]? with
    | none => (none, v)
    | some r =>
      match r.clone feed v.world with
      | .ok copy world => (some (reply feed copy none ByteArray.empty), ⟨world, v.readers ++ [copy]⟩)
      | .error e world => (some (reply feed r (some e) ByteArray.empty), { v with world })
  | .aside a => (none, { v with world := aside a v.world })

def answers (feed : Feed ι σ) (aside : Aside → σ → σ) (v : Views ι σ) :
    List Call → List (Option Reply)
  | [] => []
  | call :: calls =>
    (v.perform feed aside call).1 :: (v.perform feed aside call).2.answers feed aside calls

def after (feed : Feed ι σ) (aside : Aside → σ → σ) (v : Views ι σ) (calls : List Call) : Views ι σ :=
  calls.foldl (fun v call => (v.perform feed aside call).2) v

def positions (v : Views ι σ) : List Nat := v.readers.map Reader.position

section Flat

-- The file as it is read at positions, without anything below it. A clone may always be refused.
variable (name : String) (file : Bytes) (refusal : Option Failure)

def flat (positions : List Nat) : Call → Option Reply × List Nat
  | .seek view position =>
    match positions[view]? with
    | none => (none, positions)
    | some _ => (some { name, length := file.size, position }, positions.set view position)
  | .read view buffer =>
    match positions[view]? with
    | none => (none, positions)
    | some position =>
      let delivery := Delivery.ofFile name file position buffer.size
      let next := if delivery.failure.isNone then position + buffer.size else position
      (some ⟨delivery.failure, delivery.into buffer, name, file.size, next⟩,
        positions.set view next)
  | .clone view =>
    match positions[view]? with
    | none => (none, positions)
    | some position =>
      (some { failure := refusal, name, length := file.size, position },
        if refusal.isNone then positions ++ [position] else positions)
  | .aside _ => (none, positions)

def flatAnswers (positions : List Nat) : List Call → List (Option Reply)
  | [] => []
  | call :: calls =>
    (flat name file refusal positions call).1 ::
      flatAnswers (flat name file refusal positions call).2 calls

end Flat

end Views

-- Inputs of one file whose reads within it succeed, and clones of which are always given, or never.
structure Feed.Fixed {ι σ : Type} (feed : Feed ι σ) (inputs : ι → Prop) (name : String)
    (file : Bytes) (states : σ → Prop) (refusal : Option Failure) : Prop where
  named : ∀ input, inputs input → feed.name input = name
  sized : ∀ input, inputs input → feed.length input = file.size
  serves : ∀ input, inputs input → feed.Serves input name file states True
  clone : ∀ input s, inputs input → states s → Ends (feed.clone input) s
    (fun copy s' => states s' ∧ inputs copy ∧ refusal = none)
    (fun e s' => states s' ∧ refusal = some e)

namespace Views

variable {ι σ : Type} {feed : Feed ι σ} {inputs : ι → Prop} {name : String} {file : Bytes}
  {states : σ → Prop} {refusal : Option Failure} {aside : Aside → σ → σ} {v : Views ι σ}
  {r : Reader ι} {view : Nat}

structure Served (inputs : ι → Prop) (states : σ → Prop) (v : Views ι σ) : Prop where
  world : states v.world
  readers : ∀ r ∈ v.readers, inputs r.source

theorem reply_fixed (hfixed : feed.Fixed inputs name file states refusal) (hr : inputs r.source)
    (failure : Option Failure) (buffer : Bytes) :
    reply feed r failure buffer = ⟨failure, buffer, name, file.size, r.position⟩ := by
  rw [reply, hfixed.named _ hr, hfixed.sized _ hr]

theorem getElem?_positions (v : Views ι σ) (view : Nat) :
    v.positions[view]? = v.readers[view]?.map Reader.position := List.getElem?_map

theorem positions_withReader (v : Views ι σ) (view : Nat) (r : Reader ι) (world : σ) :
    (v.withReader view r world).positions = v.positions.set view r.position := List.map_set

theorem Served.withReader (h : v.Served inputs states) (hr : inputs r.source) {world : σ}
    (hworld : states world) (view : Nat) : (v.withReader view r world).Served inputs states := by
  refine ⟨hworld, fun r' hr' => ?_⟩
  rcases List.mem_or_eq_of_mem_set hr' with hmem | rfl
  · exact h.readers r' hmem
  · exact hr

-- What a call answers and where it leaves the positions.
def Agrees (inputs : ι → Prop) (states : σ → Prop) (result : Option Reply × Views ι σ)
    (expected : Option Reply × List Nat) : Prop :=
  result.1 = expected.1 ∧ result.2.positions = expected.2 ∧ result.2.Served inputs states

theorem seek_agrees (hfixed : feed.Fixed inputs name file states refusal)
    (h : v.Served inputs states) (view position : Nat) :
    Agrees inputs states (v.perform feed aside (.seek view position))
      (flat name file refusal v.positions (.seek view position)) := by
  rw [flat, perform, getElem?_positions]
  cases hget : v.readers[view]? with
  | none => exact ⟨rfl, rfl, h⟩
  | some r =>
    have hr := h.readers r (List.mem_of_getElem? hget)
    have hends := ((hfixed.serves _ hr).seek position v.world h.world).imp (fun _ _ => id)
      fun _ _ hfailed => hfailed.2 trivial
    obtain ⟨_, world, hrun, hworld⟩ := hends.exists_ok
    have hr' : inputs ({ r with position } : Reader ι).source := hr
    simp only [Reader.seek, hrun, Option.map_some]
    exact ⟨congrArg some (reply_fixed hfixed hr' none ByteArray.empty),
      positions_withReader v view _ world, h.withReader hr' hworld view⟩

-- A read moves the position if it is answered, and only then.
theorem read_fixed (hfixed : feed.Fixed inputs name file states refusal) (hr : inputs r.source)
    {s : σ} (hs : states s) (len : Nat) :
    let delivery := Delivery.ofFile name file r.position len
    ∃ world, states world ∧ r.read feed len s = (delivery,
      { r with position := if delivery.failure.isNone then r.position + len else r.position },
      world) := by
  intro delivery
  obtain ⟨hworld, hread⟩ := (hfixed.serves _ hr).read r.position len s hs
  have hread : (feed.read r.source r.position len s).1 = delivery := hread (.inr trivial)
  rcases hrun : feed.read r.source r.position len s with ⟨⟨bytes, failure⟩, world⟩
  rw [hrun] at hread hworld
  refine ⟨world, hworld, ?_⟩
  simp only [Reader.read, hrun, ← hread]
  cases failure with
  | none => rfl
  | some e => rfl

theorem read_agrees (hfixed : feed.Fixed inputs name file states refusal)
    (h : v.Served inputs states) (view : Nat) (buffer : Bytes) :
    Agrees inputs states (v.perform feed aside (.read view buffer))
      (flat name file refusal v.positions (.read view buffer)) := by
  rw [flat, perform, getElem?_positions]
  cases hget : v.readers[view]? with
  | none => exact ⟨rfl, rfl, h⟩
  | some r =>
    have hr := h.readers r (List.mem_of_getElem? hget)
    obtain ⟨world, hworld, hrun⟩ := read_fixed hfixed hr h.world buffer.size
    simp only [hrun, Option.map_some]
    refine ⟨congrArg some (reply_fixed hfixed ?_ _ _), positions_withReader v view _ world,
      h.withReader ?_ hworld view⟩
    · exact hr
    · exact hr

theorem clone_agrees (hfixed : feed.Fixed inputs name file states refusal)
    (h : v.Served inputs states) (view : Nat) :
    Agrees inputs states (v.perform feed aside (.clone view))
      (flat name file refusal v.positions (.clone view)) := by
  rw [flat, perform, getElem?_positions]
  cases hget : v.readers[view]? with
  | none => exact ⟨rfl, rfl, h⟩
  | some r =>
    have hr := h.readers r (List.mem_of_getElem? hget)
    have hends : Ends (r.clone feed) v.world
        (fun copy world => states world ∧ inputs copy.source ∧ copy.position = r.position ∧
          refusal = none)
        (fun e world => states world ∧ refusal = some e) := by
      simp only [Reader.clone, ends_bind, ends_pure, true_and]
      exact hfixed.clone _ _ hr h.world
    simp only [Option.map_some]
    cases hrun : r.clone feed v.world with
    | ok copy world =>
      obtain ⟨hworld, hcopy, hposition, rfl⟩ := hends.ok hrun
      refine ⟨?_, ?_, hworld, ?_⟩
      · rw [← hposition]
        exact congrArg some (reply_fixed hfixed hcopy _ _)
      · simp only [positions, List.map_append, List.map_cons, List.map_nil, hposition]
        rfl
      · intro r' hr'
        rcases List.mem_append.mp hr' with hmem | hmem
        · exact h.readers r' hmem
        · exact List.mem_singleton.mp hmem ▸ hcopy
    | error e world =>
      obtain ⟨hworld, rfl⟩ := hends.error hrun
      exact ⟨congrArg some (reply_fixed hfixed hr _ _), rfl, hworld, h.readers⟩

theorem perform_agrees (hfixed : feed.Fixed inputs name file states refusal)
    (h : v.Served inputs states) (call : Call)
    (haside : ∀ a, call = .aside a → ∀ s, states s → states (aside a s)) :
    Agrees inputs states (v.perform feed aside call)
      (flat name file refusal v.positions call) := by
  cases call with
  | seek view position => exact seek_agrees hfixed h view position
  | read view buffer => exact read_agrees hfixed h view buffer
  | clone view => exact clone_agrees hfixed h view
  | aside a => exact ⟨rfl, rfl, haside a rfl v.world h.world, h.readers⟩

-- Whatever calls come, the answers are those of the flat file.
theorem run_agrees (hfixed : feed.Fixed inputs name file states refusal)
    (h : v.Served inputs states) (calls : List Call)
    (haside : ∀ a, .aside a ∈ calls → ∀ s, states s → states (aside a s)) :
    v.answers feed aside calls = flatAnswers name file refusal v.positions calls ∧
      (v.after feed aside calls).Served inputs states := by
  induction calls generalizing v with
  | nil => exact ⟨rfl, h⟩
  | cons call calls ih =>
    obtain ⟨hreply, hpositions, hserved⟩ := perform_agrees hfixed h call
      fun a hcall => haside a (hcall ▸ List.mem_cons_self)
    obtain ⟨hrest, hlast⟩ := ih hserved fun a hcall => haside a (List.mem_cons_of_mem _ hcall)
    refine ⟨?_, hlast⟩
    rw [answers, flatAnswers, hreply, hrest, hpositions]

end Views

namespace Source

open CacheLabel

variable {ι β : Type} {feed : Feed ι β} {inputs : ι → Prop} {name : String} {file : Bytes}
  {states : β → Prop} {refusal : Option Failure} {pool : Nat} {claims : String → Bytes → Prop}
  {labels : List CacheLabel}

-- An input under caching layers, the first of which is on top.
def layered (labels : List CacheLabel) (input : ι) : Source ι :=
  labels.foldr (fun label below => cached below label) (plain input)

-- By induction on the layers: what serves a file still does so through one more.
theorem layered_serves {input : ι} (hserves : feed.Serves input name file states True)
    (hlabels : ∀ label ∈ labels, label.name = name ∧ label.Names pool file claims ∧
      claims label.cacheName file) :
    (Source.feed feed).Serves (layered labels input) name file (Steady pool claims states) True := by
  induction labels with
  | nil => exact plain_serves hserves
  | cons label labels ih =>
    obtain ⟨⟨hname, hnames, hclaimed⟩, hrest⟩ := List.forall_mem_cons.mp hlabels
    have h := cached_serves (ih hrest) hnames hclaimed
    rwa [hname] at h

theorem layered_clone (hfixed : feed.Fixed inputs name file states refusal) {input : ι}
    (hinput : inputs input) {s : Site β} (hs : Steady pool claims states s) :
    Ends ((layered labels input).clone feed) s
      (fun copy s' => Steady pool claims states s' ∧
        (∃ input, inputs input ∧ copy = layered labels input) ∧ refusal = none)
      (fun e s' => Steady pool claims states s' ∧ refusal = some e) := by
  induction labels with
  | nil =>
    simp only [layered, List.foldr_nil, clone, ends_map, Site.ends_onStore]
    exact (hfixed.clone input s.store hinput hs.states).imp
      (fun copy _ hdone => ⟨⟨hs.honest, hdone.1⟩, ⟨copy, hdone.2.1, rfl⟩, hdone.2.2⟩)
      fun _ _ hfailed => ⟨⟨hs.honest, hfailed.1⟩, hfailed.2⟩
  | cons label labels ih =>
    simp only [layered, List.foldr_cons, clone, ends_map]
    refine ih.imp ?_ fun _ _ => id
    rintro _ s' ⟨hs', ⟨input', hinput', rfl⟩, hgiven⟩
    exact ⟨hs', ⟨input', hinput', rfl⟩, hgiven⟩

theorem layered_fixed (hfixed : feed.Fixed inputs name file states refusal)
    (hlabels : ∀ label ∈ labels, label.name = name ∧ label.Names pool file claims ∧
      claims label.cacheName file) :
    (Source.feed feed).Fixed (fun source => ∃ input, inputs input ∧ source = layered labels input)
      name file (Steady pool claims states) refusal where
  named := by
    rintro _ ⟨input, hinput, rfl⟩
    cases labels with
    | nil => exact hfixed.named input hinput
    | cons label labels => exact (hlabels label List.mem_cons_self).1
  sized := by
    rintro _ ⟨input, hinput, rfl⟩
    cases labels with
    | nil => exact hfixed.sized input hinput
    | cons label labels => exact (hlabels label List.mem_cons_self).2.1.length
  serves := by
    rintro _ ⟨input, hinput, rfl⟩
    exact layered_serves (hfixed.serves input hinput) hlabels
  clone := by
    rintro _ s ⟨input, hinput, rfl⟩ hs
    exact layered_clone hfixed hinput hs

end Source

namespace Views

variable {ι β : Type} {feed : Feed ι β} {inputs : ι → Prop} {name : String} {file : Bytes}
  {states : β → Prop} {refusal : Option Failure}

-- One view of an input, at its start.
def single {σ : Type} (input : ι) (world : σ) : Views ι σ := ⟨world, [{ source := input }]⟩

-- Others do not mention the names given.
def Call.Avoids (names : List String) : Call → Prop
  | .aside a => ∀ name ∈ names, a.Avoids name
  | .seek _ _ | .read _ _ | .clone _ => True

-- A read past the end is refused before anything else is looked at.
theorem perform_past_end {aside : Aside → Site β → Site β} {v : Views (Source ι) (Site β)}
    {view position : Nat} {below : Source ι} {label : CacheLabel} {buffer : Bytes}
    (hget : v.readers[view]? = some ⟨.cached below label, position⟩)
    (hpast : label.length < position + buffer.size) :
    v.perform (Source.feed feed) aside (.read view buffer) =
      (some ⟨some (.error (.readPastEof label.name position label.length)), buffer, label.name,
        label.length, position⟩, v) := by
  have hread : Reader.read (Source.feed feed) ⟨.cached below label, position⟩ buffer.size v.world =
      (.refused (.readPastEof label.name position label.length), ⟨.cached below label, position⟩,
        v.world) := by
    simp only [Reader.read, Source.feed, Source.read, CacheLabel.read, readPastEof, if_pos hpast]
    rfl
  simp only [perform, hget, hread]
  refine Prod.ext ?_ ?_
  · simp only [reply, Delivery.into_refused]
    rfl
  · obtain ⟨hlt, heq⟩ := List.getElem?_eq_some_iff.mp hget
    simp only [withReader, ← heq, List.set_getElem_self]

-- Over any number of caching layers and any cache, whatever is left in the scratch buffers, an input
-- and its clones answer as the input itself does from its start. What the cache shows under the
-- names of the layers still is the file, and a refused read changes nothing at all.
theorem answers_through_cache (hfixed : feed.Fixed inputs name file states refusal) {input : ι}
    (hinput : inputs input) (label : CacheLabel) (labels : List CacheLabel) (tier : Tier)
    (hlabels : ∀ l ∈ label :: labels,
      l.name = name ∧ l.length = file.size ∧ l.pool < tier.pools.size)
    (hfiles : tier.Reached) (hpools : ∀ p ∈ tier.pools, p.Sound)
    (hshows : ∀ l ∈ label :: labels, ∀ block, tier.Shows l.cacheName file block)
    (store store' : β) (hstore : states store) (hstore' : states store') (calls : List Call)
    (havoids : ∀ call ∈ calls, call.Avoids ((label :: labels).map CacheLabel.cacheName)) :
    let views := single (Source.layered (label :: labels) input) (⟨tier, store⟩ : Site β)
    let last := views.after (Source.feed feed) Aside.on calls
    views.answers (Source.feed feed) Aside.on calls =
        (single input store').answers feed (fun _ s => s) calls ∧
      (∀ l ∈ label :: labels, ∀ block, last.world.tier.Shows l.cacheName file block) ∧
      ∀ view r buffer, last.readers[view]? = some r → file.size < r.position + buffer.size →
        last.perform (Source.feed feed) Aside.on (.read view buffer) =
          (some ⟨some (.error (.readPastEof name r.position file.size)), buffer, name, file.size,
            r.position⟩, last) := by
  intro views last
  let claims : String → Bytes → Prop := fun cacheName data =>
    cacheName ∈ (label :: labels).map CacheLabel.cacheName ∧ data = file
  have hclaimed : ∀ l ∈ label :: labels, claims l.cacheName file := fun l hl =>
    ⟨List.mem_map_of_mem hl, rfl⟩
  have hlayers : ∀ l ∈ label :: labels, l.name = name ∧ l.Names (tier.pools.size - 1) file claims ∧
      claims l.cacheName file := by
    intro l hl
    obtain ⟨hname, hlength, hpool⟩ := hlabels l hl
    exact ⟨hname, ⟨hlength, Nat.le_sub_one_of_lt hpool, fun _ h => h.2⟩, hclaimed l hl⟩
  have hsome : 0 < tier.pools.size := Nat.zero_lt_of_lt (hlabels label List.mem_cons_self).2.2
  have hhonest : tier.Honest (tier.pools.size - 1) claims := by
    refine ⟨fun c hc => (hfiles.tidy c hc).sound, ⟨Nat.sub_one_lt_of_lt hsome, hpools⟩, ?_⟩
    rintro cacheName data ⟨hmem, rfl⟩
    obtain ⟨l, hl, rfl⟩ := List.mem_map.mp hmem
    exact hshows l hl
  have hquiet : ∀ a, Call.aside a ∈ calls → ∀ s : Site β,
      CacheLabel.Steady (tier.pools.size - 1) claims states s →
      CacheLabel.Steady (tier.pools.size - 1) claims states (a.on s) := by
    intro a ha s hs
    exact hs.tier (hs.honest.aside fun cacheName _ hclaim => havoids _ ha cacheName hclaim.1)
  have hviews : views.Served
      (fun source => ∃ input, inputs input ∧ source = Source.layered (label :: labels) input)
      (CacheLabel.Steady (tier.pools.size - 1) claims states) := by
    refine ⟨⟨hhonest, hstore⟩, fun r hr => ?_⟩
    obtain rfl := List.mem_singleton.mp hr
    exact ⟨input, hinput, rfl⟩
  have hbare : (single input store' : Views ι β).Served inputs states := by
    refine ⟨hstore', fun r hr => ?_⟩
    obtain rfl := List.mem_singleton.mp hr
    exact hinput
  obtain ⟨hcached, hlast⟩ := run_agrees (Source.layered_fixed hfixed hlayers) hviews calls hquiet
  obtain ⟨hplain, _⟩ := run_agrees hfixed hbare calls fun _ _ _ => id
  refine ⟨hcached.trans hplain.symm, fun l hl => ?_, fun view r buffer hget hpast => ?_⟩
  · exact hlast.world.honest.shows _ _ (hclaimed l hl)
  · obtain ⟨input', _, hsource⟩ := hlast.readers r (List.mem_of_getElem? hget)
    obtain ⟨source, position⟩ := r
    obtain rfl : source = Source.cached (Source.layered labels input') label := hsource
    obtain ⟨hname, hlength, _⟩ := hlabels label List.mem_cons_self
    rw [perform_past_end hget (hlength ▸ hpast), hname, hlength]

-- An input of a memory store keeps its bytes, and its clone is the input itself.
theorem memory_fixed (input : MemoryInput) :
    MemoryStore.feed.Fixed (· = input) input.name input.data (fun _ => True) none where
  named := by
    rintro _ rfl
    rfl
  sized := by
    rintro _ rfl
    rfl
  serves := by
    rintro input rfl
    refine ⟨fun _ _ _ => trivial, fun position len s _ => ⟨trivial, fun _ => ?_⟩⟩
    simp only [MemoryStore.feed, MemoryStore.readAt, Delivery.ofFile]
    cases readPastEof input.name position len input.data.size with
    | none => rfl
    | some e => rfl
  clone := by
    rintro _ _ rfl _
    exact ⟨trivial, rfl, rfl⟩

-- Two layers with a pool each share a cache that keeps one block, so each block read by the lower one
-- is evicted by the upper one, and the upper one's by a call of another. A used buffer comes back in
-- between, and the last read goes past the end.
theorem answers_through_cache_stacked :
    ∃ c, FileCache.ofSizing (.ofLayout 1 2 8192) = .ok c ∧
    let upper : CacheLabel := ⟨"f", "e/f:1", 3, 1⟩
    let lower : CacheLabel := ⟨"f", "d/f:1", 3, 0⟩
    let input : MemoryInput := ⟨"f", ⟨#[1, 2, 3]⟩⟩
    let tier : Tier := { files := some c, pools := #[.ofDepth 1, .ofDepth 1] }
    let calls : List Call := [.read 0 ⟨#[0, 0]⟩, .clone 0, .seek 1 0,
      .aside (.call (.update "g" 0 0 ⟨#[9]⟩)), .aside (.giveBack 1 (Bytes.replicate 8192 7)),
      .read 1 ⟨#[0, 0, 0]⟩, .read 0 ⟨#[5, 6]⟩]
    let views := single (Source.layered [upper, lower] input) (⟨tier, {}⟩ : Site MemoryStore)
    let shown (reply : Reply) := (reply.failure.isSome, reply.buffer, reply.position)
    (views.answers (Source.feed MemoryStore.feed) Aside.on calls).map (·.map shown) =
        [some (false, ⟨#[1, 2]⟩, 2), some (false, ⟨#[]⟩, 2), some (false, ⟨#[]⟩, 0), none, none,
          some (false, ⟨#[1, 2, 3]⟩, 3), some (true, ⟨#[5, 6]⟩, 2)] ∧
      ∃ last, last = views.after (Source.feed MemoryStore.feed) Aside.on calls ∧
        (∀ l ∈ [upper, lower], ∀ block, last.world.tier.Shows l.cacheName input.data block) ∧
        ∀ view r buffer, last.readers[view]? = some r → 3 < r.position + buffer.size →
          last.perform (Source.feed MemoryStore.feed) Aside.on (.read view buffer) =
            (some ⟨some (.error (.readPastEof "f" r.position 3)), buffer, "f", 3, r.position⟩,
              last) := by
  refine ⟨_, rfl, ?_⟩
  intro upper lower input tier calls views shown
  have hsizing : FileCache.ofSizing (.ofLayout 1 2 8192) = _ := rfl
  have hfresh := (FileCache.ofSizing_sound hsizing).2
  obtain ⟨hsame, hshows, hpast⟩ := answers_through_cache (memory_fixed input) rfl upper [lower] tier
    (by decide)
    (Tier.reached_of_sizing hsizing rfl)
    (by simpa [tier] using ScratchPool.sound_ofDepth 1)
    (fun l _ block => Tier.shows_of_none fun i => hfresh l.cacheName block i)
    {} {} trivial trivial calls
    (by simp [calls, Call.Avoids, Aside.Avoids, FileCache.Step.Avoids, upper, lower])
  refine ⟨?_, _, rfl, hshows, hpast⟩
  rw [hsame]
  decide +kernel

end Views

end Blockwise
