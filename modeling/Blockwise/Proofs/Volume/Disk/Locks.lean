import Blockwise.Proofs.Tier.Others
import Blockwise.Proofs.Volume.Disk
import Blockwise.Proofs.Volume.Locks

namespace Blockwise

open Act

namespace Disk.Tree

variable {t t' : Tree} {parts : List String} {path other : Path} {number : Nat} {node : Node}

-- The path of a file that is there or can be made there. No call makes or deletes a directory, so a
-- name leads to the same path ever after.
def Leads (t : Tree) (parts : List String) (path : Path) : Prop :=
  ∃ parent last, t.locate parts = .ok (.entry parent last false) ∧ last.utf8ByteSize ≤ maxNameBytes ∧
    path = parent ++ [last] ∧ t.nodes[path]? ≠ some .directory

theorem Leads.unique (h : t.Leads parts path) (h' : t.Leads parts other) : path = other := by
  obtain ⟨parent, last, hplace, _, rfl, _⟩ := h
  obtain ⟨parent', last', hplace', _, rfl, _⟩ := h'
  cases hplace.symm.trans hplace'
  rfl

theorem Leads.keeps (h : t.Leads parts path) (hkeeps : t.Keeps t') (hback : t'.Keeps t) :
    t'.Leads parts path := by
  obtain ⟨parent, last, hplace, hshort, hpath, hnode⟩ := h
  obtain ⟨hrefused, hwalk⟩ := locate_iff.mp hplace
  exact ⟨parent, last, locate_iff.mpr ⟨hrefused, hkeeps.walk hwalk⟩, hshort, hpath,
    fun hdirectory => hnode (hback path hdirectory)⟩

theorem entry_of_short (t : Tree) (parent : Path) {last : String}
    (hshort : last.utf8ByteSize ≤ maxNameBytes) :
    t.entry? parent last = .ok t.nodes[parent ++ [last]]? := if_neg (Nat.not_lt.mpr hshort)

theorem leads_of_entry {parent : Path} {last : String} {found : Option Node}
    (hplace : t.locate parts = .ok (.entry parent last false))
    (hentry : t.entry? parent last = .ok found) (hfound : found ≠ some .directory) :
    t.Leads parts (parent ++ [last]) ∧ t.nodes[parent ++ [last]]? = found := by
  by_cases hshort : last.utf8ByteSize ≤ maxNameBytes
  · rw [entry_of_short t parent hshort] at hentry
    obtain rfl := Except.ok.inj hentry
    exact ⟨⟨parent, last, hplace, hshort, rfl, hfound⟩, rfl⟩
  · unfold entry? at hentry
    rw [if_pos (Nat.not_le.mp hshort)] at hentry
    cases hentry

-- What is made is made where the path leads.
theorem createNew_leads (h : t.createNew parts = .ok t') : ∃ path, t.Leads parts path ∧
    t.nodes[path]? = none ∧ t' = (t.addFile path ByteArray.empty).2 := by
  unfold createNew at h
  rcases hplace : t.locate parts with cause | path | ⟨parent, last, _ | _⟩ <;>
    simp only [hplace, bind, Except.bind, fail, reduceCtorEq, if_true] at h
  rcases hentry : t.entry? parent last with cause | _ | node <;>
    simp only [hentry, if_false, reduceCtorEq] at h
  obtain ⟨hleads, hnode⟩ := leads_of_entry hplace hentry nofun
  exact ⟨_, hleads, hnode, (Except.ok.inj h).symm⟩

theorem create_leads (h : t.create parts = .ok (number, t')) : ∃ path, t.Leads parts path ∧
    (t' = t.setData number ByteArray.empty ∨
      t.nodes[path]? = none ∧ t' = (t.addFile path ByteArray.empty).2) := by
  unfold create at h
  rcases hplace : t.locate parts with cause | path | ⟨parent, last, _ | _⟩ <;>
    simp only [hplace, bind, Except.bind, fail, reduceCtorEq, if_true] at h
  rcases hentry : t.entry? parent last with cause | _ | number' | _ <;>
    simp only [hentry, if_false, reduceCtorEq] at h
  · obtain ⟨hleads, hnode⟩ := leads_of_entry hplace hentry nofun
    exact ⟨_, hleads, .inr ⟨hnode, (congrArg Prod.snd (Except.ok.inj h)).symm⟩⟩
  · obtain ⟨hleads, _⟩ := leads_of_entry hplace hentry nofun
    obtain ⟨rfl, rfl⟩ := Prod.mk.inj (Except.ok.inj h)
    exact ⟨_, hleads, .inl rfl⟩

theorem unlink_leads (h : t.unlink parts = .ok t') : ∃ path number, t.Leads parts path ∧
    t.nodes[path]? = some (.file number) ∧ t' = { t with nodes := t.nodes.erase path } := by
  unfold unlink at h
  rcases hplace : t.locate parts with cause | path | ⟨parent, last, slash⟩ <;>
    simp only [hplace, bind, Except.bind, fail, reduceCtorEq] at h
  rcases hentry : t.entry? parent last with cause | _ | number | _ <;>
    simp only [hentry, reduceCtorEq] at h
  cases slash with
  | true => cases h
  | false =>
    obtain ⟨hleads, hnode⟩ := leads_of_entry hplace hentry nofun
    exact ⟨_, number, hleads, hnode, (Except.ok.inj h).symm⟩

theorem createNew_free (h : t.Leads parts path) (hnode : t.nodes[path]? = none) :
    t.createNew parts = .ok (t.addFile path ByteArray.empty).2 := by
  obtain ⟨parent, last, hplace, hshort, rfl, _⟩ := h
  simp only [createNew, hplace, entry_of_short t parent hshort, hnode, bind, Except.bind]
  rfl

theorem createNew_taken (h : t.Leads parts path) (hnode : t.nodes[path]? ≠ none) :
    t.createNew parts = fail Errno.fileExists := by
  obtain ⟨parent, last, hplace, hshort, rfl, _⟩ := h
  obtain ⟨node, hnode⟩ := Option.ne_none_iff_exists'.mp hnode
  simp [createNew, hplace, entry_of_short t parent hshort, hnode, bind, Except.bind]

theorem unlink_of_leads (h : t.Leads parts path) (hnode : t.nodes[path]? ≠ none) :
    t.unlink parts = .ok { t with nodes := t.nodes.erase path } := by
  obtain ⟨parent, last, hplace, hshort, rfl, hfile⟩ := h
  obtain ⟨node, hnode⟩ := Option.ne_none_iff_exists'.mp hnode
  cases node with
  | directory => exact absurd hnode hfile
  | file number =>
    simp only [unlink, hplace, entry_of_short t parent hshort, hnode, bind, Except.bind]
    rfl

-- The same directories.
def Level (t t' : Tree) : Prop := t.Keeps t' ∧ t'.Keeps t

theorem Level.of_nodes (h : t'.nodes = t.nodes) : t.Level t' :=
  ⟨fun _ hpath => h ▸ hpath, fun _ hpath => h ▸ hpath⟩

theorem Level.trans {t'' : Tree} (h : t.Level t') (h' : t'.Level t'') : t.Level t'' :=
  ⟨fun path hpath => h'.1 path (h.1 path hpath), fun path hpath => h.2 path (h'.2 path hpath)⟩

theorem level_addFile (hnode : t.nodes[path]? = none) (data : Bytes) :
    t.Level (t.addFile path data).2 := by
  have hlookup (other : Path) : (t.addFile path data).2.nodes[other]? =
      if path = other then some (.file t.nextNumber) else t.nodes[other]? :=
    Maps.getElem?_insert t.nodes path other _
  constructor
  · intro other hother
    rw [hlookup, if_neg]
    · exact hother
    · rintro rfl
      cases hnode.symm.trans hother
  · intro other hother
    rw [hlookup] at hother
    split at hother
    · cases hother
    · exact hother

theorem level_erase (hnode : t.nodes[path]? = some (.file number)) :
    t.Level { t with nodes := t.nodes.erase path } := by
  constructor
  · intro other hother
    refine (Maps.getElem?_erase t.nodes path other).trans ?_
    rw [if_neg]
    · exact hother
    · rintro rfl
      cases hnode.symm.trans hother
  · intro other hother
    have hother := (Maps.getElem?_erase t.nodes path other).symm.trans hother
    split at hother
    · cases hother
    · exact hother

theorem Level.leads_iff (h : t.Level t') : t'.Leads parts path ↔ t.Leads parts path :=
  ⟨fun hleads => hleads.keeps h.2 h.1, fun hleads => hleads.keeps h.1 h.2⟩

theorem nodes_writeAt (t : Tree) (number offset : Nat) (data : Bytes) :
    (t.writeAt number offset data).nodes = t.nodes := by
  unfold writeAt
  split <;> rfl

end Disk.Tree

namespace DiskStore

open Disk

variable {α : Type} {origin s s' : DiskStore} {path other : Path} {name : String}
  {tree : Tree} {number : Nat}

def Leads (s : DiskStore) (name : String) (path : Path) : Prop := s.tree.Leads (s.path name) path

-- A file, which is there as long as somebody has the lock. Its directory is where it was at the origin.
def latch (origin : DiskStore) (path : Path) : Latch DiskStore where
  holds s := s.root = origin.root ∧ origin.tree.Level s.tree
  leads name := origin.Leads name path
  shut s := s.tree.nodes[path]? ≠ none

theorem leads_iff (hs : (latch origin path).holds s) :
    s.Leads name other ↔ origin.Leads name other := by
  obtain ⟨hroot, hlevel⟩ := hs
  rw [Leads, Leads, DiskStore.path, DiskStore.path, hroot]
  exact hlevel.leads_iff

theorem holds_addFile (hs : (latch origin path).holds s) (hnode : s.tree.nodes[other]? = none)
    (data : Bytes) : (latch origin path).holds { s with tree := (s.tree.addFile other data).2 } :=
  ⟨hs.1, hs.2.trans (Tree.level_addFile hnode data)⟩

theorem holds_erase (hs : (latch origin path).holds s)
    (hnode : s.tree.nodes[other]? = some (.file number)) : (latch origin path).holds
      { s with tree := { s.tree with nodes := s.tree.nodes.erase other } } :=
  ⟨hs.1, hs.2.trans (Tree.level_erase hnode)⟩

theorem leaves_nodes (hs : (latch origin path).holds s) (hroot : s'.root = s.root)
    (hnodes : s'.tree.nodes = s.tree.nodes) : (latch origin path).regime.Leaves s s' := by
  refine ⟨⟨hroot.trans hs.1, hs.2.trans (.of_nodes hnodes)⟩, ?_⟩
  show s'.tree.nodes[path]? ≠ none ↔ s.tree.nodes[path]? ≠ none
  rw [hnodes]

theorem leaves_addFile (hs : (latch origin path).holds s) (hne : other ≠ path)
    (hnode : s.tree.nodes[other]? = none) (data : Bytes) :
    (latch origin path).regime.Leaves s { s with tree := (s.tree.addFile other data).2 } := by
  refine ⟨holds_addFile hs hnode data, not_congr (iff_of_eq (congrArg (· = none) ?_))⟩
  exact (Maps.getElem?_insert s.tree.nodes other path _).trans (if_neg hne)

theorem leaves_erase (hs : (latch origin path).holds s) (hne : other ≠ path)
    (hnode : s.tree.nodes[other]? = some (.file number)) : (latch origin path).regime.Leaves s
      { s with tree := { s.tree with nodes := s.tree.nodes.erase other } } := by
  refine ⟨holds_erase hs hnode, not_congr (iff_of_eq (congrArg (· = none) ?_))⟩
  exact (Maps.getElem?_erase s.tree.nodes other path).trans (if_neg hne)

-- An action that neither makes the file of a lock nor deletes it.
abbrev Lockless (origin : DiskStore) (path : Path) (x : Act DiskStore α) : Prop :=
  Safe (latch origin path).regime x fun _ => True

theorem lockless_requireOpen : Lockless origin path requireOpen := by
  refine .get fun s hs => ?_
  split
  · exact ⟨.refl hs, trivial⟩
  · exact ⟨.refl hs, trivial⟩

theorem ends_ask {blame : IoCause → StorageError} {f : DiskStore → Except IoCause α}
    {done : α → DiskStore → Prop} {failed : Failure → DiskStore → Prop} :
    Ends (ask blame f) s done failed ↔ match f s with
      | .ok a => done a s
      | .error cause => failed (.error (blame cause)) s := by
  unfold ask
  rw [ends_bind, ends_get]
  cases f s <;> rfl

theorem lockless_ask (blame : IoCause → StorageError) (f : DiskStore → Except IoCause α) :
    Lockless origin path (ask blame f) := by
  intro s hs
  rw [ends_ask]
  cases f s with
  | ok a => exact ⟨.refl hs, trivial⟩
  | error cause => exact ⟨.refl hs, trivial⟩

theorem lockless_openFile (name : String) : Lockless origin path (openFile name) := by
  refine (lockless_ask _ _).bind fun node _ => ?_
  cases node with
  | file number => exact .get fun _ hs => ⟨.refl hs, trivial⟩
  | directory => exact .pure trivial

-- A file of another name is another file.
theorem ne_of_spared (hs : (latch origin path).holds s) (hok : ¬origin.Leads name path)
    (hleads : s.Leads name other) : other ≠ path := by
  rintro rfl
  exact hok ((leads_iff hs).mp hleads)

theorem lockless_create (hok : ¬origin.Leads name path) : Lockless origin path (create name) := by
  refine lockless_requireOpen.bind fun _ _ s hs => ?_
  simp only [ends_bind, ends_ask]
  cases hrun : s.tree.create (s.path name) with
  | error cause => exact ⟨.refl hs, trivial⟩
  | ok r =>
    obtain ⟨number, tree⟩ := r
    obtain ⟨other, hleads, rfl | ⟨hnone, rfl⟩⟩ := Tree.create_leads hrun
    · exact ⟨leaves_nodes hs rfl rfl, trivial⟩
    · exact ⟨leaves_addFile hs (ne_of_spared hs hok hleads) hnone _, trivial⟩

theorem lockless_delete (hok : ¬origin.Leads name path) : Lockless origin path (delete name) := by
  refine lockless_requireOpen.bind fun _ _ s hs => ?_
  simp only [ends_bind, ends_ask]
  cases hrun : s.tree.unlink (s.path name) with
  | error cause => exact ⟨.refl hs, trivial⟩
  | ok tree =>
    obtain ⟨other, number, hleads, hnode, rfl⟩ := Tree.unlink_leads hrun
    exact ⟨leaves_erase hs (ne_of_spared hs hok hleads) hnode, trivial⟩

theorem volume_confined (origin : DiskStore) (path : Path)
    [DecidablePred fun name => ¬origin.Leads name path] :
    (volume.confined fun name => ¬origin.Leads name path).Safe (latch origin path).regime
      (fun _ => True) (fun _ => True) fun _ => True where
  openInput name _ := lockless_requireOpen.bind fun _ _ => lockless_openFile name
  create name purpose := by
    by_cases hok : ¬origin.Leads name path
    · rw [Volume.confined_create _ hok]
      exact lockless_create hok
    · simp only [Volume.confined, if_neg hok]
      exact .fail _
  list := lockless_requireOpen.bind fun _ _ => lockless_ask _ _
  delete name := by
    by_cases hok : ¬origin.Leads name path
    · rw [Volume.confined_delete _ hok]
      exact lockless_delete hok
    · simp only [Volume.confined, if_neg hok]
      exact .fail _
  hasFile _ := .get fun _ hs => ⟨.refl hs, trivial⟩
  length name := .get fun s hs => ((lockless_ask _ _).bind fun _ _ => .pure trivial) s hs
  stamp name := by
    refine (lockless_ask _ _).bind fun node _ => ?_
    cases node with
    | file number => exact .get fun _ hs => ⟨.refl hs, trivial⟩
    | directory => exact .pure trivial
  sync names := .forM fun name => (lockless_ask _ _).bind fun _ _ => .pure trivial
  lock _ := .fail _
  close := .modify fun _ hs => leaves_nodes hs rfl rfl

theorem deliver_within (data : Bytes) (position len : Nat) :
    (deliver data position len).Within len := by
  have hsize : (Bytes.slice data position len).size ≤ len := by
    rw [Bytes.size_slice]
    omega
  unfold deliver
  dsimp only
  split
  · next hshort =>
    exact ⟨hsize, by nofun, fun _ he => Option.some.inj he ▸ trivial⟩
  · next hfull => exact ⟨hsize, fun _ => by dsimp only; omega, by nofun⟩

theorem readAt_within (input : DiskInput) (position len : Nat) (s : DiskStore) :
    (readAt input position len s).1.Within len ∧ (readAt input position len s).2 = s := by
  unfold readAt
  cases readPastEof input.name position len input.length with
  | some e => exact ⟨Delivery.within_refused e len, rfl⟩
  | none =>
    cases input.number with
    | some number => exact ⟨deliver_within _ position len, rfl⟩
    | none =>
      dsimp only
      split
      · next hzero =>
        subst hzero
        exact ⟨⟨Nat.le_refl _, fun _ => rfl, by nofun⟩, rfl⟩
      · exact ⟨Delivery.within_refused _ len, rfl⟩

theorem feed_lockless (origin : DiskStore) (path : Path) :
    feed.Safe (latch origin path).regime fun _ => True where
  seek _ _ _ := .pure trivial
  read input position len s _ hs := by
    obtain ⟨hwithin, hsame⟩ := readAt_within input position len s
    refine ⟨?_, hwithin⟩
    rw [show (feed.read input position len s).2 = s from hsame]
    exact .refl hs
  clone input _ := lockless_openFile input.name

theorem leaves_writeDirect (hs : (latch origin path).holds s) (data : Bytes) (out : DiskOutput) :
    (latch origin path).regime.Leaves s (writeDirect data out s).2 :=
  leaves_nodes hs rfl (Tree.nodes_writeAt _ _ _ _)

theorem leaves_flushBuffer (hs : (latch origin path).holds s) (out : DiskOutput) :
    (latch origin path).regime.Leaves s (flushBuffer out s).2 := leaves_writeDirect hs out.buffer out

theorem leaves_writeBuffered (hs : (latch origin path).holds s) (data : Bytes) (out : DiskOutput) :
    (latch origin path).regime.Leaves s (writeBuffered data out s).2 := by
  have hroom : (latch origin path).regime.Leaves s
      (if bufferSize < out.buffer.size + data.size then flushBuffer out s else (out, s)).2 := by
    split
    · exact leaves_flushBuffer hs out
    · exact .refl hs
  unfold writeBuffered
  dsimp only
  split
  · exact hroom.trans (leaves_writeDirect hroom.1 data _)
  · exact hroom

-- What is written goes to a file by its number, whatever its name is by then.
theorem sink_lockless (origin : DiskStore) (path : Path) :
    sink.Safe (latch origin path).regime fun _ => True where
  write data := by
    refine .get fun r hr => ?_
    obtain ⟨out, s⟩ := r
    dsimp only
    split
    · exact ⟨.refl hr, trivial⟩
    · exact ⟨Regime.leaves_withHandle trivial (leaves_writeBuffered hr.2 data out), trivial⟩
  flush := by
    refine .get fun r hr => ?_
    obtain ⟨out, s⟩ := r
    dsimp only
    split
    · exact ⟨.refl hr, trivial⟩
    · exact ⟨Regime.leaves_withHandle trivial (leaves_flushBuffer hr.2 out), trivial⟩
  close := .modify fun r hr => by
    obtain ⟨out, s⟩ := r
    dsimp only
    split
    · exact .refl hr
    · exact Regime.leaves_withHandle trivial (leaves_flushBuffer hr.2 out)
  drop out s _ hs := by
    simp only [sink]
    split
    · exact .refl hs
    · exact leaves_flushBuffer hs out

-- Users of one disk, past which nothing happens.
def users (ω : Type) : Port ω PEmpty DiskStore DiskInput DiskOutput DiskLock where
  volume _ := volume
  feed := feed
  sink := sink
  keeper := keeper
  outside _ s := s

theorem users_safe (ω : Type) (origin : DiskStore) (path : Path)
    [DecidablePred fun name => ¬origin.Leads name path] : (users ω).Safe (latch origin path).regime
      (fun name => ¬origin.Leads name path) (fun _ => True) fun _ => True where
  volume _ := volume_confined origin path
  feed := feed_lockless origin path
  sink := sink_lockless origin path
  outside _ _ hs := .refl hs

-- Unlinking the file of a lock opens the latch, and fails only if the lock is on another.
theorem opens_unlink (hs : (latch origin path).holds s)
    (hshut : (latch origin path).leads name → (latch origin path).shut s) :
    (latch origin path).Opens name s (match s.tree.unlink (s.path name) with
      | .ok tree => { s with tree }
      | .error _ => s) := by
  cases hrun : s.tree.unlink (s.path name) with
  | ok tree =>
    obtain ⟨other, number, hleads, hnode, rfl⟩ := Tree.unlink_leads hrun
    refine ⟨holds_erase hs hnode, fun hhere => ?_, fun helsewhere => ?_⟩
    · obtain rfl := hleads.unique ((leads_iff hs).mpr hhere)
      have hgone : (s.tree.nodes.erase other)[other]? = none :=
        (Maps.getElem?_erase s.tree.nodes other other).trans (if_pos rfl)
      exact fun hstill => hstill hgone
    · exact (leaves_erase hs (ne_of_spared hs helsewhere hleads) hnode).2
  | error cause =>
    refine ⟨hs, fun hhere => ?_, fun _ => Iff.rfl⟩
    rw [Tree.unlink_of_leads ((leads_iff hs).mpr hhere) (hshut hhere)] at hrun
    cases hrun

theorem users_locks (ω : Type) (origin : DiskStore) (path : Path) :
    (users ω).Locks (latch origin path) DiskLock.held DiskStore.closed
      fun lock => ∃ path, origin.Leads lock.name path where
  lock _ name s hs := by
    simp only [users, volume, lock, requireOpen, ends_bind, ends_get, ends_ask]
    cases hclosed : s.closed with
    | true => simp
    | false =>
      simp only [Bool.false_eq_true, if_false, ends_pure]
      cases hrun : s.tree.createNew (s.path name) with
      | error cause =>
        refine ⟨trivial, fun hhere _ => ?_⟩
        have hshut : s.tree.nodes[path]? ≠ none := by
          intro hnone
          rw [Tree.createNew_free ((leads_iff hs).mpr hhere) hnone] at hrun
          cases hrun
        rw [Tree.createNew_taken ((leads_iff hs).mpr hhere) hshut] at hrun
        obtain rfl := Except.error.inj hrun
        exact ⟨rfl, hshut⟩
      | ok tree =>
        obtain ⟨other, hleads, hnone, rfl⟩ := Tree.createNew_leads hrun
        refine ⟨trivial, rfl, ⟨other, (leads_iff hs).mp hleads⟩, holds_addFile hs hnone _, ?_, ?_⟩
        · intro hhere
          obtain rfl := hleads.unique ((leads_iff hs).mpr hhere)
          have hthere : (s.tree.addFile other ByteArray.empty).2.nodes[other]? =
              some (.file s.tree.nextNumber) :=
            (Maps.getElem?_insert s.tree.nodes other other _).trans (if_pos rfl)
          refine ⟨fun hshut => hshut hnone, fun hgone => ?_⟩
          cases hthere.symm.trans hgone
        · intro helsewhere
          exact (leaves_addFile hs (ne_of_spared hs helsewhere hleads) hnone _).2
  release lock s hs hshut := by
    have hshut : (latch origin path).leads lock.name → (latch origin path).shut s := hshut
    have hopens := opens_unlink hs hshut
    simp only [users, keeper, ends_bind, ends_get]
    cases hrun : s.tree.unlink (s.path lock.name) with
    | ok tree =>
      rw [hrun] at hopens
      exact ⟨rfl, id, hopens⟩
    | error cause =>
      rw [hrun] at hopens
      exact ⟨rfl, id, hopens⟩
  drop lock s hs hshut hheld := by
    simp only [users, keeper, hheld, if_true]
    exact opens_unlink hs hshut
  spent lock s hheld := by
    simp only [users, keeper, hheld]
    rfl

end DiskStore

namespace Client

variable {ω : Type} {tier : Tier} {layers : ω → List Directory}

-- Any number of users go through any directories over one store, or past all of them, in any order. At
-- most one of them has the lock of a name. As long as somebody has it, nobody else gets it, and when it
-- is given back, the next one does; a lock that was given back before takes nothing away from others. On
-- disk this is about the locks of one file, which no user makes or deletes in another way, and which
-- was not there from the start.
theorem locks_exclusive (htier : tier.Reached) (hpools : ∀ pool ∈ tier.pools, pool.Sound)
    (hlayers : ∀ on, ∀ d ∈ layers on, d.pool < tier.pools.size) :
    (∀ stamped name (moves : List (Move ω (Std.TreeMap String MemoryFile × Nat))),
      let p := (MemoryStore.users ω stamped).stacked layers
      Exclusive p MemoryLock.held (·.store.closed) (· = name) (fun _ => True) False
        (afterMoves p MemoryLock.held { world := ⟨tier, {}⟩ } moves)) ∧
    ∀ (store : DiskStore) path (moves : List (Move ω PEmpty)),
      (∀ m ∈ moves, m.Spares fun name => ¬store.Leads name path) →
      let p := (DiskStore.users ω).stacked layers
      let x := afterMoves p DiskLock.held { world := ⟨tier, store⟩ } moves
      (∀ handle lock, x.locks handle = some lock → ∃ path, store.Leads lock.name path) ∧
      Exclusive p DiskLock.held (·.store.closed) (store.Leads · path)
        (fun name => ¬store.Leads name path) (store.tree.nodes[path]? ≠ none) x := by
  have hintact := htier.intact hpools
  constructor
  · intro stamped name moves p
    have hfree : (MemoryStore.latch name).shut {} = False := eq_false Std.TreeSet.not_mem_emptyc
    rw [← hfree]
    exact (exclusive_stacked (MemoryStore.users_safe ω stamped name)
      (MemoryStore.users_locks ω stamped name) hlayers hintact trivial
      fun m _ => m.spares_all).2
  · intro store path moves hmoves p x
    classical
    have hstore : (DiskStore.latch store path).holds store := ⟨rfl, .of_nodes rfl⟩
    exact exclusive_stacked (DiskStore.users_safe ω store path) (DiskStore.users_locks ω store path)
      hlayers hintact hstore hmoves

-- A lock is released, and taken by somebody else before the old one is dropped. Nobody else gets it.
theorem locks_exclusive_dropped_late :
    ∃ c, FileCache.ofSizing (.ofLayout 1 8 8192) = .ok c ∧
    let tier : Tier := { files := some c, pools := #[.ofDepth 1] }
    let layers : Bool → List Directory := fun on => if on then [⟨"d", {}, 0⟩] else []
    let moves (β : Type) : List (Move Bool β) := [.call (.create true "b.dat" .general "o"),
      .call (.lock false "a.lock" "h"), .release "h", .call (.lock true "a.lock" "k"),
      .call (.drop "h")]
    let p := (MemoryStore.users Bool true).stacked layers
    let x := afterMoves p MemoryLock.held { world := ⟨tier, {}⟩ } (moves _)
    let store : DiskStore := { label := "root" }
    let q := (DiskStore.users Bool).stacked layers
    let y := afterMoves q DiskLock.held { world := ⟨tier, store⟩ } (moves _)
    (∀ m ∈ moves PEmpty, m.Spares fun name => ¬store.Leads name ["/", "a.lock"]) ∧
      store.Leads "a.lock" ["/", "a.lock"] ∧ store.tree.nodes[["/", "a.lock"]]? = none ∧
      x.move p MemoryLock.held (.call (.lock true "a.lock" "n")) =
        (.failed (.error (.lockHeld "a.lock")), x) ∧
      y.move q DiskLock.held (.call (.lock true "a.lock" "n")) =
        (.failed (.error (.lockHeld "a.lock")), y) := by
  refine ⟨_, rfl, ?_⟩
  intro tier layers moves p x store q y
  have htier : tier.Reached :=
    Tier.reached_of_sizing (show FileCache.ofSizing (.ofLayout 1 8 8192) = _ from rfl) rfl
  have hpools : ∀ pool ∈ tier.pools, pool.Sound := by
    intro pool hpool
    obtain rfl := Array.mem_singleton.mp hpool
    exact ScratchPool.sound_ofDepth 1
  have hlayers : ∀ on, ∀ d ∈ layers on, d.pool < tier.pools.size := by decide
  have hnode : store.tree.nodes[["/", "a.lock"]]? = none := rfl
  have hleads : store.Leads "a.lock" ["/", "a.lock"] :=
    ⟨["/"], "a.lock", rfl, by decide, rfl, by simp [hnode]⟩
  have hother : ¬store.Leads "b.dat" ["/", "a.lock"] := by
    rintro ⟨parent, last, hplace, _, hpath, _⟩
    have hdat : store.tree.locate (store.path "b.dat") = .ok (.entry ["/"] "b.dat" false) := rfl
    cases hdat.symm.trans hplace
    exact absurd hpath (by decide)
  have hspares : ∀ m ∈ moves PEmpty, m.Spares fun name => ¬store.Leads name ["/", "a.lock"] := by
    simp [moves, Move.Spares, Call.Spares, hother]
  obtain ⟨hmemory, hdisk⟩ := locks_exclusive htier hpools hlayers
  refine ⟨hspares, hleads, hnode, ?_, ?_⟩
  · have hx : Exclusive p MemoryLock.held (·.store.closed) (· = "a.lock") (fun _ => True) False x :=
      hmemory true "a.lock" (moves _)
    -- Without the local names, the run is a closed term, which is much faster to evaluate.
    obtain ⟨hlock, hclosed⟩ : x.locks "k" = some ⟨"a.lock", true⟩ ∧ x.world.store.closed = false := by
      unfold x p moves layers tier
      exact ⟨rfl, rfl⟩
    clear_value x
    exact hx.refused "k" ⟨"a.lock", true⟩ hlock rfl rfl hclosed true "a.lock" "n" rfl
  · have hy : Exclusive q DiskLock.held (·.store.closed) (store.Leads · ["/", "a.lock"])
        (fun name => ¬store.Leads name ["/", "a.lock"])
        (store.tree.nodes[["/", "a.lock"]]? ≠ none) y :=
      (hdisk store ["/", "a.lock"] (moves _) hspares).2
    obtain ⟨hlock, hclosed⟩ : y.locks "k" = some ⟨"a.lock", true⟩ ∧ y.world.store.closed = false := by
      unfold y q store moves layers tier
      exact ⟨rfl, rfl⟩
    clear_value y
    exact hy.refused "k" ⟨"a.lock", true⟩ hlock rfl hleads hclosed true "a.lock" "n" hleads

end Client

end Blockwise
