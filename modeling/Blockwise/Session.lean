import Blockwise.Volume.World

namespace Blockwise

abbrev AnyVolume := Directory.Below World World.Input World.Out World.Lock
abbrev AnyInput := Source World.Input
abbrev AnyOutput := Output World.Out World

-- A store of the world and the volume it is used through.
structure Backend where
  address : Sited Unit Unit
  volume : AnyVolume

-- A directory, the volume it covers, and the volume it is.
structure Mounted where
  directory : Directory
  below : AnyVolume
  volume : AnyVolume

-- Volumes with one cache in front of them, and the open handles.
structure Session where
  site : Site World
  backends : Array Backend := #[]
  directories : Array Mounted := #[]
  inputs : Std.TreeMap String (Reader AnyInput) := ∅
  outputs : Std.TreeMap String AnyOutput := ∅
  locks : Std.TreeMap String World.Lock := ∅

namespace Session

variable {α : Type}

inductive BackendSpec where
  | memory
  | unstamped
  | minimal
  | disk (below : String) (prefile : Option String)
  deriving DecidableEq, Repr

inductive Target where
  | backend (i : Nat)
  | directory (i : Nat)
  deriving DecidableEq, Repr

structure DirectorySpec where
  name : String
  below : Target
  policy : Policy
  ownBuffers : Bool

def feed : Feed AnyInput (Site World) := Source.feed World.feed

def sink : Sink AnyOutput (Site World) := Output.sink World.sink

def backend (x : Session) (i : Nat) : Except Breach Backend :=
  Breach.elementAt x.backends.toList i

def mounted (x : Session) (i : Nat) : Except Breach Mounted :=
  Breach.elementAt x.directories.toList i

def volume (x : Session) : Target → Except Breach AnyVolume
  | .backend i => (x.backend i).map (·.volume)
  | .directory i => (x.mounted i).map (·.volume)

-- What a disk shows as the name of its root.
def rootLabel : String := "<root>"

-- The stamps of a disk stand for points in time, so they are no store's but its own: every disk
-- counts from a start that no other store reaches.
def firstStamp (disk : Nat) : Nat := (disk + 1) * 1000000000000000000

-- What a disk holds before it is opened: at most one file.
def startTree (disk : Nat) (prefile : Option String) : Except StorageError Disk.Tree :=
  let bare : Disk.Tree := { clock := firstStamp disk }
  match prefile with
  | none => .ok bare
  | some name =>
    match bare.create (Disk.join Disk.top name) with
    | .error cause => .error (.io cause)
    | .ok (number, tree) => .ok (tree.writeAt number 0 "x".toUTF8)

def addBackend (x : Session) (spec : BackendSpec) : Except Failure Session :=
  let w := x.site.store
  let addMemory (v : Volume MemoryStore MemoryInput MemoryOutput MemoryLock) : Session :=
    let i := w.memories.size
    { x with
      site := { x.site with store := { w with memories := w.memories.push ⟨[], {}⟩ } }
      backends := x.backends.push ⟨.memory i (), Directory.plain (World.memoryVolume i v)⟩ }
  match spec with
  | .memory => .ok (addMemory (MemoryStore.volume true))
  | .unstamped => .ok (addMemory (MemoryStore.volume false))
  | .minimal => .ok (addMemory (MemoryStore.volume true).minimal)
  | .disk below prefile =>
    let i := w.disks.size
    match startTree i prefile >>= fun tree => DiskStore.openAt tree rootLabel below with
    | .error e => .error (.error e)
    | .ok store =>
      .ok { x with
        site := { x.site with store := { w with disks := w.disks.push ⟨[], store⟩ } }
        backends :=
          x.backends.push ⟨.disk i (), Directory.plain (World.diskVolume i DiskStore.volume)⟩ }

-- A directory of its own buffers gets a pool that nobody else uses.
def addDirectory (x : Session) (spec : DirectorySpec) : Except Failure Session := do
  let below ← (x.volume spec.below).mapError .breach
  let pools := x.site.tier.pools
  let pool := if spec.ownBuffers then pools.size else 0
  let d ← (Directory.new spec.name spec.policy pool below).mapError .error
  let pools :=
    if spec.ownBuffers then pools.push (ScratchPool.ofDepth ScratchPool.defaultDepth) else pools
  return { x with
    site := { x.site with tier := { x.site.tier with pools } }
    directories := x.directories.push ⟨d, below, d.volume World.feed below⟩ }

-- The cache is built first, then the pool, then the backends, then the directories. The first
-- failure is the answer.
def new (cache : Option Sizing) (depth : Nat) (backends : List BackendSpec)
    (directories : List DirectorySpec) (memory : Memory := .ample) : Except Failure Session := do
  let files ← match cache with
    | none => pure none
    | some sizing => some <$> FileCache.ofSizing sizing memory
  let pool ← (ScratchPool.new depth).mapError .breach
  let bare : Session := { site := { tier := { files, pools := #[pool] }, store := {} } }
  let mounted ← backends.foldlM addBackend bare
  directories.foldlM addDirectory mounted

inductive Step where
  | openInput (on : Target) (name : String) (purpose : Purpose) (handle : String)
  | create (on : Target) (name : String) (purpose : Purpose) (handle : String)
  | list (on : Target)
  | length (on : Target) (name : String)
  | stamp (on : Target) (name : String)
  | hasFile (on : Target) (name : String)
  | stamped (on : Target)
  | delete (on : Target) (name : String)
  | sync (on : Target) (names : List String)
  | closeVolume (on : Target)
  | lock (on : Target) (name handle : String)
  | unlock (handle : String)
  | readWhole (on : Target) (name : String) (purpose : Purpose)
  | writeWhole (on : Target) (name : String) (purpose : Purpose) (data : Bytes)
  | copy (directory : Nat) (dest : Target) (name destName : String) (purpose : Purpose)
  | cacheName (directory : Nat) (name : String)
  | choices (directory : Nat) (name : String) (purpose : Purpose)
  | policy (directory : Nat)
  | cacheSize (directory : Nat)
  | seek (handle : String) (position : Nat)
  | read (handle : String) (len : Nat)
  | clone (handle copy : String)
  | wrapInput (handle cacheName : String)
  | write (handle : String) (data : Bytes)
  | flush (handle : String)
  | closeOutput (handle : String)
  | wrapOutput (handle location : String) (final : Option String) (name : String)
  | drop (handle : String)
  | put (backend : Nat) (name : String) (data : Bytes)
  | makeDirectories (backend : Nat) (name : String)
  | removeRoot (backend : Nat)
  | setFault (backend : Nat) (fault : Fault)
  | clearFault (backend : Nat) (kind : CallKind)
  | cache (step : FileCache.Step)

inductive Answer where
  | done
  | noHandle
  | failed (failure : Failure)
  | names (names : List String)
  | number (n : Nat)
  | stamp (n : Nat)
  | flag (b : Bool)
  | text (s : String)
  | bytes (b : Bytes)
  | opened (name : String) (length position : Nat)
  | created (name : String) (position : Nat)
  | moved (failure : Option Failure) (position : Nat)
  | delivered (delivery : Delivery) (len position : Nat)
  | wrapped (name cacheName : String) (length position : Nat)
  | dropped (input output lock : Bool)
  | choices (reads writes : Bool) (location : String)
  | policy (p : Policy)
  | cached (reply : FileCache.Reply)

-- Runs an action on the site and answers with its result.
def answering (x : Session) (act : Act (Site World) α) (answer : α → Answer) : Answer × Session :=
  match act x.site with
  | .ok a site => (answer a, { x with site })
  | .error e site => (.failed e, { x with site })

def onVolume (x : Session) (on : Target) (act : AnyVolume → Act (Site World) α)
    (answer : α → Answer) : Answer × Session :=
  match x.volume on with
  | .error b => (.failed (.breach b), x)
  | .ok v => x.answering (act v) answer

-- A new handle takes the place of the old one of that name, which is dropped after it was made.
def keepInput (x : Session) (handle : String) (input : Reader AnyInput) : Session :=
  { x with inputs := x.inputs.insert handle input }

def dropOutput (x : Session) (handle : String) : Session :=
  match x.outputs[handle]? with
  | none => x
  | some out => { x with site := sink.drop out x.site, outputs := x.outputs.erase handle }

def keepOutput (x : Session) (handle : String) (out : AnyOutput) : Session :=
  let x := x.dropOutput handle
  { x with outputs := x.outputs.insert handle out }

def dropLock (x : Session) (handle : String) : Session :=
  match x.locks[handle]? with
  | none => x
  | some lock =>
    { x with
      site := { x.site with store := World.keeper.drop lock x.site.store }
      locks := x.locks.erase handle }

def keepLock (x : Session) (handle : String) (lock : World.Lock) : Session :=
  let x := x.dropLock handle
  { x with locks := x.locks.insert handle lock }

def openedAnswer (r : Reader AnyInput) : Answer :=
  .opened (feed.name r.source) (feed.length r.source) r.position

def createdAnswer (out : AnyOutput) : Answer := .created (sink.name out) (sink.position out)

def openInput (x : Session) (on : Target) (name : String) (purpose : Purpose) (handle : String) :
    Answer × Session :=
  match x.volume on with
  | .error b => (.failed (.breach b), x)
  | .ok v =>
    match v.openInput name purpose x.site with
    | .error e site => (.failed e, { x with site })
    | .ok source site =>
      let r : Reader AnyInput := { source }
      (openedAnswer r, { x with site }.keepInput handle r)

def create (x : Session) (on : Target) (name : String) (purpose : Purpose) (handle : String) :
    Answer × Session :=
  match x.volume on with
  | .error b => (.failed (.breach b), x)
  | .ok v =>
    match v.create name purpose x.site with
    | .error e site => (.failed e, { x with site })
    | .ok out site => (createdAnswer out, { x with site }.keepOutput handle out)

def lock (x : Session) (on : Target) (name handle : String) : Answer × Session :=
  match x.volume on with
  | .error b => (.failed (.breach b), x)
  | .ok v =>
    match v.lock name x.site with
    | .error e site => (.failed e, { x with site })
    | .ok lock site => (.text (World.keeper.name lock), { x with site }.keepLock handle lock)

def unlock (x : Session) (handle : String) : Answer × Session :=
  match x.locks[handle]? with
  | none => (.noHandle, x)
  | some lock =>
    let x := { x with locks := x.locks.erase handle }
    let keep (lock : World.Lock) (store : World) : Session :=
      { x with site := { x.site with store := World.keeper.drop lock store } }
    match World.keeper.release (lock, x.site.store) with
    | .ok _ (lock, store) => (.done, keep lock store)
    | .error e (lock, store) => (.failed e, keep lock store)

def onInput (x : Session) (handle : String) (f : Reader AnyInput → Answer × Session) :
    Answer × Session :=
  match x.inputs[handle]? with
  | none => (.noHandle, x)
  | some r => f r

def seek (x : Session) (handle : String) (position : Nat) : Answer × Session :=
  x.onInput handle fun r =>
    let (result, r, site) := r.seek feed position x.site
    let failure := match result with
      | .ok _ => none
      | .error e => some e
    (.moved failure r.position, { x with site }.keepInput handle r)

def read (x : Session) (handle : String) (len : Nat) : Answer × Session :=
  x.onInput handle fun r =>
    let (delivery, r, site) := r.read feed len x.site
    (.delivered delivery len r.position, { x with site }.keepInput handle r)

def clone (x : Session) (handle copy : String) : Answer × Session :=
  x.onInput handle fun r =>
    match r.clone feed x.site with
    | .error e site => (.failed e, { x with site })
    | .ok r' site => (openedAnswer r', { x with site }.keepInput copy r')

def wrapInput (x : Session) (handle cacheName : String) : Answer × Session :=
  x.onInput handle fun r =>
    let label : CacheLabel :=
      { name := feed.name r.source, cacheName, length := feed.length r.source, pool := 0 }
    (.wrapped label.name cacheName label.length 0,
      x.keepInput handle { source := r.source.cached label })

-- Runs an action of an output and keeps the output as the action leaves it.
def onOutput (x : Session) (handle : String) (act : Act (AnyOutput × Site World) Unit) :
    Answer × Session :=
  match x.outputs[handle]? with
  | none => (.noHandle, x)
  | some out =>
    let keep (failure : Option Failure) (out : AnyOutput) (site : Site World) : Answer × Session :=
      (.moved failure (sink.position out),
        { x with site, outputs := x.outputs.insert handle out })
    match act (out, x.site) with
    | .ok _ (out, site) => keep none out site
    | .error e (out, site) => keep (some e) out site

def wrapOutput (x : Session) (handle location : String) (final : Option String) (name : String) :
    Answer × Session :=
  match x.outputs[handle]? with
  | none => (.noHandle, x)
  | some out =>
    let settle : Act (Site World) String := match final with
      | some cacheName => pure cacheName
      | none => Act.fail (.fileNotFound name)
    let out := out.cached location settle
    (createdAnswer out, { x with outputs := x.outputs.insert handle out })

def drop (x : Session) (handle : String) : Answer × Session :=
  let answer : Answer :=
    .dropped (x.inputs.contains handle) (x.outputs.contains handle) (x.locks.contains handle)
  (answer, ({ x with inputs := x.inputs.erase handle }.dropOutput handle).dropLock handle)

-- Changes a store past every layer above it.
def onBackend (x : Session) (i : Nat)
    (f : Guarded Faults MemoryStore → Guarded Faults MemoryStore)
    (g : Guarded Faults DiskStore → Guarded Faults DiskStore) (answer : Answer) :
    Answer × Session :=
  match x.backend i with
  | .error b => (.failed (.breach b), x)
  | .ok backend =>
    let store := World.dropHandle (fun _ => f) (fun _ => g) backend.address x.site.store
    (answer, { x with site := { x.site with store } })

def onDirectory (x : Session) (i : Nat) (f : Mounted → Answer × Session) : Answer × Session :=
  match x.mounted i with
  | .error b => (.failed (.breach b), x)
  | .ok m => f m

def makeDirectories (name : String) (s : DiskStore) : DiskStore :=
  { s with tree := (s.tree.makeDirectories (s.path name)).2 }

def removeRoot (s : DiskStore) : DiskStore := { s with tree := s.tree.removeAll s.root }

def perform (x : Session) : Step → Answer × Session
  | .openInput on name purpose handle => x.openInput on name purpose handle
  | .create on name purpose handle => x.create on name purpose handle
  | .list on => x.onVolume on (·.list) .names
  | .length on name => x.onVolume on (·.length name) .number
  | .stamp on name => x.onVolume on (·.stamp name) .stamp
  | .hasFile on name => x.onVolume on (·.hasFile name) .flag
  | .stamped on => x.onVolume on (fun v => pure v.stamped) .flag
  | .delete on name => x.onVolume on (·.delete name) fun _ => .done
  | .sync on names => x.onVolume on (·.sync names) fun _ => .done
  | .closeVolume on => x.onVolume on (·.close) fun _ => .done
  | .lock on name handle => x.lock on name handle
  | .unlock handle => x.unlock handle
  | .readWhole on name purpose => x.onVolume on (·.readWhole feed name purpose) .bytes
  | .writeWhole on name purpose data =>
    x.onVolume on (·.writeWhole sink name purpose data) fun _ => .done
  | .copy i dest name destName purpose =>
    x.onDirectory i fun m =>
      x.onVolume dest (m.volume.copy feed · sink name destName purpose) fun _ => .done
  | .cacheName i name =>
    x.onDirectory i fun m => x.answering (m.directory.cacheName m.below name) .text
  | .choices i name purpose =>
    x.onDirectory i fun m =>
      let d := m.directory
      (.choices (d.readsCached name purpose) (d.writesCached name purpose) (d.location name), x)
  | .policy i => x.onDirectory i fun m => (.policy m.directory.policy, x)
  | .cacheSize i => x.onDirectory i fun _ => (.number x.site.tier.size, x)
  | .seek handle position => x.seek handle position
  | .read handle len => x.read handle len
  | .clone handle copy => x.clone handle copy
  | .wrapInput handle cacheName => x.wrapInput handle cacheName
  | .write handle data => x.onOutput handle (sink.write data)
  | .flush handle => x.onOutput handle sink.flush
  | .closeOutput handle => x.onOutput handle sink.close
  | .wrapOutput handle location final name => x.wrapOutput handle location final name
  | .drop handle => x.drop handle
  | .put i name data =>
    x.onBackend i (fun s => { s with inner := s.inner.publish name data }) id .done
  | .makeDirectories i name =>
    x.onBackend i id (fun s => { s with inner := makeDirectories name s.inner }) (.flag true)
  | .removeRoot i => x.onBackend i id (fun s => { s with inner := removeRoot s.inner }) (.flag true)
  | .setFault i fault =>
    x.onBackend i (fun s => { s with guard := s.guard.put fault })
      (fun s => { s with guard := s.guard.put fault }) .done
  | .clearFault i kind =>
    x.onBackend i (fun s => { s with guard := s.guard.clear kind })
      (fun s => { s with guard := s.guard.clear kind }) .done
  | .cache step => x.answering (Site.onTier (Tier.step step)) .cached

-- What can be seen after a step.
structure Report where
  answer : Answer
  journal : Array CacheCall
  cache : Option (Nat × Nat × Nat)
  snapshot : Snapshot
  pooled : Nat × Nat
  reads : List (Option Nat)

def reads (x : Session) : List (Option Nat) :=
  x.backends.toList.map fun backend =>
    match backend.address with
    | .memory i _ => x.site.store.memories[i]?.map (·.inner.reads)
    | .disk _ _ => none

def report (x : Session) (answer : Answer) : Report where
  answer := answer
  journal := x.site.tier.journal
  cache := x.site.tier.files.map fun c => (c.nameCount, c.size, c.engine.blocksTaken)
  snapshot := x.site.tier.snapshot
  pooled := (x.site.tier.pools[0]?.map ScratchPool.pooled).getD (0, 0)
  reads := x.reads

-- A step with a journal of its own.
def step (x : Session) (s : Step) : Report × Session :=
  let fresh := { x with site := { x.site with tier := { x.site.tier with journal := #[] } } }
  let (answer, x) := fresh.perform s
  (x.report answer, x)

end Session

end Blockwise
