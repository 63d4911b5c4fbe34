import Blockwise.Proofs.Volume.Shelf

namespace Blockwise

open Act

namespace World

variable {α : Type} {i : Nat} {w : World} {sh : Shelf} {name : String} {purpose : Purpose}
  {data : Bytes} {o : MemoryOutput}

def shelf (i : Nat) (w : World) : Option Shelf := w.memories[i]?.map (·.shelf)

theorem exists_of_shelf (h : w.shelf i = some sh) :
    ∃ t, w.memories[i]? = some t ∧ t.shelf = sh := by
  rwa [shelf, Option.map_eq_some_iff] at h

theorem shelf_setIfInBounds {t t' : Guarded Faults MemoryStore} (h : w.memories[i]? = some t) :
    shelf i { w with memories := w.memories.setIfInBounds i t' } = some t'.shelf := by
  obtain ⟨hi, _⟩ := Array.getElem?_eq_some_iff.mp h
  rw [shelf, Array.getElem?_setIfInBounds_self_of_lt hi]
  rfl

-- A call that is refused leaves the shelf, at this store and in the world.
theorem onMemory_ends {x : Act (Guarded Faults MemoryStore) α} (done : α → Shelf → Prop)
    (failed : Failure → Prop) (h : w.shelf i = some sh)
    (hx : ∀ t, t.shelf = sh →
      Ends x t (fun a t' => done a t'.shelf) (fun e t' => t'.shelf = sh ∧ failed e)) :
    Ends (onMemory i x) w (fun a w' => ∃ sh', w'.shelf i = some sh' ∧ done a sh')
      (fun e w' => w'.shelf i = some sh ∧ failed e) := by
  obtain ⟨t, ht, hsh⟩ := exists_of_shelf h
  have hrun := hx t hsh
  rw [onMemory, ends_onPart]
  simp only [Ends, element, ht] at hrun ⊢
  cases hres : x t with
  | ok a t' =>
    rw [hres] at hrun
    exact ⟨_, shelf_setIfInBounds ht, hrun⟩
  | error e t' =>
    rw [hres] at hrun
    exact ⟨(shelf_setIfInBounds ht).trans (congrArg some hrun.1), hrun.2⟩

theorem onHandle_ends {ε : Type} {x : Act (MemoryOutput × Guarded Faults MemoryStore) Unit}
    {y : Act (ε × Guarded Faults DiskStore) Unit} (done : MemoryOutput → Shelf → Prop)
    (h : w.shelf i = some sh)
    (hx : ∀ t, t.shelf = sh → Ends x (o, t) (fun _ p => done p.1 p.2.shelf)
      (fun _ p => p.2.shelf = sh ∧ p.1 = o)) :
    Ends (onHandle x y) (.memory i o, w)
      (fun _ p => ∃ o' sh', p.1 = .memory i o' ∧ p.2.shelf i = some sh' ∧ done o' sh')
      (fun _ p => p.2.shelf i = some sh ∧ p.1 = .memory i o) := by
  obtain ⟨t, ht, hsh⟩ := exists_of_shelf h
  have hrun := hx t hsh
  simp only [Ends, onHandle, onPart, withElement, ht] at hrun ⊢
  cases hres : x (o, t) with
  | ok a p =>
    rw [hres] at hrun
    exact ⟨_, _, rfl, shelf_setIfInBounds ht, hrun⟩
  | error e p =>
    rw [hres] at hrun
    obtain ⟨hshelf, hout⟩ := hrun
    exact ⟨(shelf_setIfInBounds ht).trans (congrArg some hshelf), congrArg (Sited.memory i) hout⟩

theorem write_ends (h : w.shelf i = some sh) (o : MemoryOutput) (data : Bytes) :
    Ends (sink.write data) (.memory i o, w)
      (fun _ p => p.2.shelf i = some sh ∧ o.closed = false ∧
        p.1 = .memory i { o with buffer := o.buffer ++ data, dirty := true })
      (fun _ p => p.2.shelf i = some sh ∧ p.1 = .memory i o) := by
  refine (onHandle_ends (fun o' sh' => sh' = sh ∧ o.closed = false ∧
    o' = { o with buffer := o.buffer ++ data, dirty := true }) h ?_).imp ?_ fun _ _ => id
  · rintro t rfl
    refine Guarded.guardSink_ends (fun o' sh' => sh' = t.shelf ∧ o.closed = false ∧
      o' = { o with buffer := o.buffer ++ data, dirty := true }) fun quiet hquiet => ?_
    rw [← hquiet]
    exact MemoryStore.write_ends quiet t.inner o data
  · intro _ p hdone
    obtain ⟨o', sh', hout, hshelf, rfl, hopen, rfl⟩ := hdone
    exact ⟨hshelf, hopen, hout⟩

theorem flush_ends (h : w.shelf i = some sh) (o : MemoryOutput) :
    Ends sink.flush (.memory i o, w)
      (fun _ p => p.2.shelf i = some (sh.flush o) ∧ p.1 = .memory i { o with dirty := false })
      (fun _ p => p.2.shelf i = some sh ∧ p.1 = .memory i o) := by
  refine (onHandle_ends (fun o' sh' => sh' = sh.flush o ∧ o' = { o with dirty := false }) h ?_).imp
    ?_ fun _ _ => id
  · rintro t rfl
    refine Guarded.guardSink_ends (fun o' sh' => sh' = t.shelf.flush o ∧
      o' = { o with dirty := false }) fun quiet hquiet => ?_
    rw [← hquiet]
    exact MemoryStore.flush_ends quiet t.inner o
  · intro _ p hdone
    obtain ⟨o', sh', hout, hshelf, rfl, rfl⟩ := hdone
    exact ⟨hshelf, hout⟩

theorem close_ends (h : w.shelf i = some sh) (hdone : o.closed = true → o.dirty = false) :
    Ends sink.close (.memory i o, w)
      (fun _ p => p.2.shelf i = some (sh.flush o) ∧
        p.1 = .memory i { o with dirty := false, closed := true })
      (fun _ p => p.2.shelf i = some sh ∧ p.1 = .memory i o) := by
  refine (onHandle_ends (fun o' sh' => sh' = sh.flush o ∧
    o' = { o with dirty := false, closed := true }) h ?_).imp ?_ fun _ _ => id
  · rintro t rfl
    refine Guarded.guardSink_ends (fun o' sh' => sh' = t.shelf.flush o ∧
      o' = { o with dirty := false, closed := true }) fun quiet hquiet => ?_
    rw [← hquiet]
    exact MemoryStore.close_ends quiet t.inner o hdone
  · intro _ p hdone
    obtain ⟨o', sh', hout, hshelf, rfl, rfl⟩ := hdone
    exact ⟨hshelf, hout⟩

theorem clone_ends (h : w.shelf i = some sh) (input : MemoryInput) :
    Ends (feed.clone (.memory i input)) w
      (fun copy w' => w'.shelf i = some sh ∧ copy = .memory i input)
      (fun _ w' => w'.shelf i = some sh ∧ ¬sh.calm = true) := by
  simp only [feed, ends_map]
  refine (onMemory_ends (fun copy sh' => sh' = sh ∧ copy = input) (fun _ => ¬sh.calm = true) h
    ?_).imp ?_ fun _ _ => id
  · rintro t rfl
    refine Guarded.guarded_ends (fun copy sh' => sh' = t.shelf ∧ copy = input) (fun _ => False)
      fun quiet hquiet => ?_
    exact ⟨hquiet, rfl⟩
  · intro _ w' hdone
    obtain ⟨sh', hshelf, rfl, rfl⟩ := hdone
    exact ⟨hshelf, rfl⟩

theorem seek_ends (h : w.shelf i = some sh) (input : MemoryInput) (position : Nat) :
    Ends (feed.seek (.memory i input) position) w (fun _ w' => w'.shelf i = some sh)
      (fun _ w' => w'.shelf i = some sh ∧ ¬sh.calm = true) := by
  refine (onMemory_ends (fun _ sh' => sh' = sh) (fun _ => ¬sh.calm = true) h ?_).imp ?_
    fun _ _ => id
  · rintro t rfl
    exact Guarded.guarded_ends (fun _ sh' => sh' = t.shelf) (fun _ => False)
      fun quiet hquiet => hquiet
  · intro _ w' hdone
    obtain ⟨sh', hshelf, rfl⟩ := hdone
    exact hshelf

theorem read_spec (t : Guarded Faults MemoryStore) (name : String) (data : Bytes)
    (position len : Nat) :
    (memoryFeed.read ⟨name, data⟩ position len t).2.shelf = t.shelf ∧
      ((memoryFeed.read ⟨name, data⟩ position len t).1.failure = none ∨ t.shelf.calm = true →
        (memoryFeed.read ⟨name, data⟩ position len t).1 = .ofFile name data position len) := by
  have hask := Guarded.ask_ends .read name t
  simp only [memoryFeed, Guarded.feed, MemoryStore.feed]
  cases hrun : Guarded.ask Faults.verdict .read name t with
  | error e t' =>
    obtain ⟨hinner, hguard, hfaults⟩ := hask.error hrun
    refine ⟨by rw [Guarded.shelf, Guarded.shelf, hinner, hguard], fun hcase => ?_⟩
    exact hcase.elim (fun hnone => absurd hnone (Option.some_ne_none e)) fun h =>
      absurd h (Guarded.not_calm_of_faults hfaults)
  | ok a t' =>
    obtain ⟨hinner, hguard⟩ := hask.ok hrun
    simp only [MemoryStore.readAt, Delivery.ofFile, hinner]
    cases readPastEof name position len data.size with
    | some e => exact ⟨by rw [Guarded.shelf, Guarded.shelf, hguard], fun _ => rfl⟩
    | none => exact ⟨by rw [Guarded.shelf, Guarded.shelf, hguard]; rfl, fun _ => rfl⟩

-- An input delivers what it was opened on, whatever became of the file. Only a store that is not
-- calm refuses it.
theorem feed_serves (i : Nat) (name : String) (data : Bytes) (sh : Shelf) :
    feed.Serves (.memory i ⟨name, data⟩) name data (fun w => w.shelf i = some sh)
      (sh.calm = true) where
  seek position w h := seek_ends h ⟨name, data⟩ position
  read position len w h := by
    obtain ⟨t, ht, rfl⟩ := exists_of_shelf h
    obtain ⟨hshelf, hread⟩ := read_spec t name data position len
    simp only [feed, readElement, ht]
    exact ⟨(shelf_setIfInBounds ht).trans (congrArg some hshelf), hread⟩

theorem shelf_modify (f : Guarded Faults MemoryStore → Guarded Faults MemoryStore) (i j : Nat)
    (w : World) :
    shelf j { w with memories := w.memories.modify i f } =
      w.memories[j]?.map fun t => if i = j then (f t).shelf else t.shelf := by
  rw [shelf, Array.getElem?_modify]
  by_cases heq : i = j
  · simp only [if_pos heq, Option.map_map]
    rfl
  · simp only [if_neg heq]

theorem shelf_drop (out : Out) (w : World) (i : Nat) : (sink.drop out w).shelf i = w.shelf i := by
  cases out with
  | memory j o =>
    show shelf i { w with memories := w.memories.modify j (memorySink.drop o) } = w.shelf i
    rw [shelf_modify, shelf]
    congr 1
    funext t
    split <;> rfl
  | disk j o => rfl

-- A memory store behind its guard as what a directory covers.
def cellar (i : Nat) : Directory.Below World Input Out Lock :=
  Directory.plain (memoryVolume i (MemoryStore.volume true))

end World

theorem Site.ends_onStore_map {α β γ : Type} {f : α → γ} {x : Act β α} {s : Site β}
    {done : γ → Site β → Prop} {failed : Failure → Site β → Prop} :
    Ends (Site.onStore (f <$> x)) s done failed ↔
      Ends (Site.onStore x) s (fun a => done (f a)) failed := by
  simp only [ends_onStore, ends_map]

-- A site with the tier given, in front of a store with the shelf given.
structure OnShelf (i : Nat) (tier : Tier) (sh : Shelf) (s : Site World) : Prop where
  tier : s.tier = tier
  shelf : s.store.shelf i = some sh

namespace OnShelf

variable {α : Type} {i : Nat} {tier : Tier} {sh : Shelf} {s : Site World}

theorem onMemory_ends {kind : CallKind} {name : String} {x : Act MemoryStore α}
    (done : α → Shelf → Prop) (failed : Failure → Prop) (h : OnShelf i tier sh s)
    (hx : ∀ quiet t, t.shelf quiet = sh → Ends x t (fun a t' => done a (t'.shelf quiet))
      (fun e t' => t'.shelf quiet = sh ∧ (sh.calm = true → failed e))) :
    Ends (Site.onStore (World.onMemory i (do
        Guarded.ask Faults.verdict kind name
        Guarded.onInner x))) s
      (fun a s' => ∃ sh', OnShelf i tier sh' s' ∧ done a sh')
      (fun e s' => OnShelf i tier sh s' ∧ (sh.calm = true → failed e)) := by
  rw [Site.ends_onStore]
  refine (World.onMemory_ends done (fun e => sh.calm = true → failed e) h.shelf ?_).imp ?_ ?_
  · rintro t rfl
    exact Guarded.guarded_ends done failed fun quiet hquiet => hx quiet t.inner hquiet
  · intro a w' hdone
    obtain ⟨sh', hshelf, hdone⟩ := hdone
    exact ⟨sh', ⟨h.tier, hshelf⟩, hdone⟩
  · intro _ w' hfailed
    exact ⟨⟨h.tier, hfailed.1⟩, hfailed.2⟩

theorem openInput_ends (h : OnShelf i tier sh s) (name : String) (purpose : Purpose) :
    Ends ((World.cellar i).openInput name purpose) s
      (fun source s' => OnShelf i tier sh s' ∧ ∃ file, sh.files[name]? = some file ∧
        source = .plain (.memory i ⟨name, file.data⟩))
      (fun e s' => OnShelf i tier sh s' ∧ (sh.calm = true → sh.Missing name e)) := by
  simp only [World.cellar, Directory.plain, World.memoryVolume, Volume.lift, Guarded.volume, ends_map,
    Site.ends_onStore_map]
  refine (onMemory_ends (fun input sh' => sh' = sh ∧
    ∃ file, sh.files[name]? = some file ∧ input = (⟨name, file.data⟩ : MemoryInput))
    (sh.Missing name) h ?_).imp ?_ fun _ _ => id
  · rintro quiet t rfl
    exact MemoryStore.openInput_ends quiet t name purpose
  · intro _ s' hdone
    obtain ⟨_, hs', rfl, file, hfile, rfl⟩ := hdone
    exact ⟨hs', file, hfile, rfl⟩

theorem create_ends (h : OnShelf i tier sh s) (name : String) (purpose : Purpose) :
    Ends ((World.cellar i).create name purpose) s
      (fun out s' => OnShelf i tier (sh.publish name ByteArray.empty) s' ∧
        out = .plain (.memory i { name }))
      (fun _ s' => OnShelf i tier sh s') := by
  simp only [World.cellar, Directory.plain, World.memoryVolume, Volume.lift, Guarded.volume, ends_map,
    Site.ends_onStore_map]
  refine (onMemory_ends (fun out sh' => sh' = sh.publish name ByteArray.empty ∧
    out = ({ name } : MemoryOutput)) (fun _ => True) h ?_).imp ?_ fun _ _ h => h.1
  · rintro quiet t rfl
    exact (MemoryStore.create_ends quiet t name purpose).imp (fun _ _ => id)
      fun _ _ h => ⟨h, fun _ => trivial⟩
  · intro _ s' hdone
    obtain ⟨_, hs', rfl, rfl⟩ := hdone
    exact ⟨hs', rfl⟩

theorem stamp_ends (h : OnShelf i tier sh s) (name : String) :
    Ends ((World.cellar i).stamp name) s
      (fun stamp s' => OnShelf i tier sh s' ∧
        ∃ file, sh.files[name]? = some file ∧ stamp = file.stamp)
      (fun e s' => OnShelf i tier sh s' ∧ (sh.calm = true → sh.Missing name e)) := by
  simp only [World.cellar, Directory.plain, World.memoryVolume, Volume.lift, Guarded.volume]
  refine (onMemory_ends (fun stamp sh' => sh' = sh ∧
    ∃ file, sh.files[name]? = some file ∧ stamp = file.stamp) (sh.Missing name) h ?_).imp ?_
    fun _ _ => id
  · rintro quiet t rfl
    exact (MemoryStore.stamp_ends quiet t name).imp (fun _ _ => id) fun _ _ h => ⟨h.1, fun _ => h.2⟩
  · intro _ s' hdone
    obtain ⟨_, hs', rfl, hfile⟩ := hdone
    exact ⟨hs', hfile⟩

theorem delete_ends (h : OnShelf i tier sh s) (name : String) :
    Ends ((World.cellar i).delete name) s
      (fun _ s' => OnShelf i tier (sh.erase name) s') (fun _ s' => OnShelf i tier sh s') := by
  simp only [World.cellar, Directory.plain, World.memoryVolume, Volume.lift, Guarded.volume]
  refine (onMemory_ends (fun _ sh' => sh' = sh.erase name) (fun _ => True) h ?_).imp ?_
    fun _ _ h => h.1
  · rintro quiet t rfl
    exact (MemoryStore.delete_ends quiet t name).imp (fun _ _ => id)
      fun _ _ h => ⟨h, fun _ => trivial⟩
  · intro _ s' hdone
    obtain ⟨_, hs', rfl⟩ := hdone
    exact hs'

-- The version of a file that is current.
theorem cacheName_ends (h : OnShelf i tier sh s) (d : Directory) (name : String) :
    Ends (d.cacheName (World.cellar i) name) s
      (fun cacheName s' => OnShelf i tier sh s' ∧
        ∃ file, sh.files[name]? = some file ∧ cacheName = d.version name file.stamp)
      (fun e s' => OnShelf i tier sh s' ∧ (sh.calm = true → sh.Missing name e)) := by
  simp only [Directory.cacheName, ends_bind, ends_pure]
  refine (stamp_ends h name).imp ?_ fun _ _ => id
  intro _ s' hdone
  obtain ⟨hs', file, hfile, rfl⟩ := hdone
  exact ⟨hs', file, hfile, rfl⟩

end OnShelf

namespace Directory

variable {i pool : Nat} {tier : Tier} {sh : Shelf} {s : Site World}
  {claims : String → Bytes → Prop}

-- An input of a version of a file, seen through the cache.
def versionInput (d : Directory) (i : Nat) (name : String) (file : MemoryFile) :
    Source World.Input :=
  .cached (.plain (.memory i ⟨name, file.data⟩))
    ⟨name, d.version name file.stamp, file.data.size, d.pool⟩

theorem openInput_cached (h : OnShelf i tier sh s) (d : Directory) {name : String} {purpose : Purpose}
    (hreads : d.readsCached name purpose = true) :
    Ends (d.openInput World.feed (World.cellar i) name purpose) s
      (fun source s' => OnShelf i tier sh s' ∧ ∃ file, sh.files[name]? = some file ∧
        source = d.versionInput i name file)
      (fun e s' => OnShelf i tier sh s' ∧ (sh.calm = true → sh.Missing name e)) := by
  simp only [openInput, ends_bind, hreads, if_true]
  refine (h.openInput_ends name purpose).imp ?_ fun _ _ => id
  intro _ s' hopened
  obtain ⟨hs', file, hfile, rfl⟩ := hopened
  refine (hs'.cacheName_ends d name).imp ?_ fun _ _ => id
  intro _ s'' hnamed
  obtain ⟨hs'', file', hfile', rfl⟩ := hnamed
  obtain rfl := Option.some.inj (hfile.symm.trans hfile')
  exact ⟨hs'', file, hfile, rfl⟩

theorem clone_version (h : OnShelf i tier sh s) (d : Directory) (name : String) (file : MemoryFile) :
    Ends (Source.clone World.feed (d.versionInput i name file)) s
      (fun copy s' => OnShelf i tier sh s' ∧ copy = d.versionInput i name file)
      (fun _ s' => OnShelf i tier sh s') := by
  simp only [versionInput, Source.clone, ends_map, Site.ends_onStore]
  refine (World.clone_ends h.shelf ⟨name, file.data⟩).imp ?_ fun _ _ hfailed => ⟨h.tier, hfailed.1⟩
  intro _ store hdone
  obtain ⟨hshelf, rfl⟩ := hdone
  exact ⟨⟨h.tier, hshelf⟩, rfl⟩

-- An input is cached under the version that it was opened on. At a calm store every file opens.
theorem openInput_ends (h : OnShelf i tier sh s) (d : Directory) (name : String) (purpose : Purpose) :
    Ends (d.openInput World.feed (World.cellar i) name purpose) s
      (fun source s' => OnShelf i tier sh s' ∧ ∃ file, sh.files[name]? = some file ∧
        (source = .plain (.memory i ⟨name, file.data⟩) ∨
          source = .cached (.plain (.memory i ⟨name, file.data⟩))
            ⟨name, d.version name file.stamp, file.data.size, d.pool⟩))
      (fun e s' => OnShelf i tier sh s' ∧ (sh.calm = true → sh.Missing name e)) := by
  by_cases hreads : d.readsCached name purpose = true
  · refine (openInput_cached h d hreads).imp ?_ fun _ _ => id
    intro _ s' hopened
    obtain ⟨hs', file, hfile, hsource⟩ := hopened
    exact ⟨hs', file, hfile, .inr hsource⟩
  · simp only [openInput, ends_bind, if_neg hreads]
    refine (h.openInput_ends name purpose).imp ?_ fun _ _ => id
    intro _ s' hopened
    obtain ⟨hs', file, hfile, rfl⟩ := hopened
    exact ⟨hs', file, hfile, .inl rfl⟩

theorem create_cached (h : OnShelf i tier sh s) (d : Directory) {name : String} {purpose : Purpose}
    (hwrites : d.writesCached name purpose = true) :
    Ends (d.create (World.cellar i) name purpose) s
      (fun out s' => OnShelf i tier (sh.publish name ByteArray.empty) s' ∧
        out = (Output.plain (.memory i { name })).cached (d.location name)
          (d.cacheName (World.cellar i) name))
      (fun _ s' => OnShelf i tier sh s') := by
  simp only [create, ends_bind, hwrites, if_true]
  refine (h.create_ends name purpose).imp ?_ fun _ _ => id
  intro _ s' hdone
  obtain ⟨hs', rfl⟩ := hdone
  exact ⟨hs', rfl⟩

theorem create_ends (h : OnShelf i tier sh s) (d : Directory) (name : String) (purpose : Purpose) :
    Ends (d.create (World.cellar i) name purpose) s
      (fun out s' => OnShelf i tier (sh.publish name ByteArray.empty) s' ∧
        (out = .plain (.memory i { name }) ∨ out = (Output.plain (.memory i { name })).cached
          (d.location name) (d.cacheName (World.cellar i) name)))
      (fun _ s' => OnShelf i tier sh s') := by
  by_cases hwrites : d.writesCached name purpose = true
  · exact (create_cached h d hwrites).imp (fun _ _ hdone => ⟨hdone.1, .inr hdone.2⟩) fun _ _ => id
  · simp only [create, ends_bind, if_neg hwrites]
    exact (h.create_ends name purpose).imp (fun _ _ hdone => ⟨hdone.1, .inl hdone.2⟩) fun _ _ => id

-- A delete may leave the file and drop its blocks, but no claim is harmed by that.
theorem delete_ends (h : OnShelf i tier sh s) (honest : tier.Honest pool claims) (d : Directory)
    (name : String) :
    Ends (d.delete (World.cellar i) name) s
      (fun _ s' => ∃ tier', OnShelf i tier' (sh.erase name) s' ∧ tier'.Honest pool claims)
      (fun _ s' => ∃ tier', OnShelf i tier' sh s' ∧ tier'.Honest pool claims) := by
  simp only [delete]
  split
  · simp only [ends_bind]
    refine (h.cacheName_ends d name).imp ?_ fun _ s' hs' => ⟨tier, hs'.1, honest⟩
    intro cacheName s' hnamed
    obtain ⟨hs', _⟩ := hnamed
    rw [Site.ends_onTier, hs'.tier]
    refine (Tier.delete_ends honest cacheName).imp ?_ fun _ _ => False.elim
    intro _ tier' hdeleted
    obtain ⟨honest', _⟩ := hdeleted
    have hs'' : OnShelf i tier' sh { s' with tier := tier' } := ⟨rfl, hs'.shelf⟩
    exact (hs''.delete_ends name).imp (fun _ s'' h' => ⟨tier', h', honest'⟩)
      fun _ s'' h' => ⟨tier', h', honest'⟩
  · exact (h.delete_ends name).imp (fun _ s'' h' => ⟨tier, h', honest⟩)
      fun _ s'' h' => ⟨tier, h', honest⟩

end Directory

end Blockwise
