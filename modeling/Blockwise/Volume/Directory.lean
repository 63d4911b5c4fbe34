import Blockwise.Policy
import Blockwise.Stream.CachedReader
import Blockwise.Stream.CachedWriter
import Blockwise.Volume

namespace Blockwise

-- A version of a file is cached under directory, name and stamp; a file being written is cached
-- under directory and name. The pool is the one that inputs of the directory take scratch buffers
-- from.
structure Directory where
  name : String
  policy : Policy
  pool : Nat

namespace Directory

variable {β ι ο κ α : Type}

-- The volumes that a directory covers, other directories among them.
abbrev Below (β ι ο κ : Type) := Volume (Site β) (Source ι) (Output ο β) κ

-- A plain volume as one that makes no call to the cache.
def plain (v : Volume β ι ο κ) : Below β ι ο κ :=
  v.lift Site.onStore Source.plain Output.plain id

-- Caching needs stamps to tell versions of a file apart.
def new (name : String) (policy : Policy) (pool : Nat) (below : Below β ι ο κ) :
    Except StorageError Directory :=
  let policy := policy.normalized
  if policy.enabled && !below.stamped then
    .error (.unsupported (.cachingWithoutStamps name))
  else .ok { name, policy, pool }

def location (d : Directory) (name : String) : String := d.name ++ "/" ++ name

-- The name under which the current version of a file is cached.
def cacheName (d : Directory) (below : Below β ι ο κ) (name : String) : Act (Site β) String := do
  let stamp ← below.stamp name
  return d.location name ++ ":" ++ toString stamp

def readsCached (d : Directory) (name : String) (_ : Purpose) : Bool :=
  d.policy.readCache && d.policy.admits name

-- A merged file is rarely read soon, so it stays out of the cache.
def writesCached (d : Directory) (name : String) (purpose : Purpose) : Bool :=
  d.policy.writeCache && d.policy.admits name && purpose != .merge

def openInput (d : Directory) (feed : Feed ι β) (below : Below β ι ο κ) (name : String)
    (purpose : Purpose) : Act (Site β) (Source ι) := do
  let source ← below.openInput name purpose
  if d.readsCached name purpose then
    let cacheName ← d.cacheName below name
    return source.cached
      { name := source.name feed, cacheName, length := source.length feed, pool := d.pool }
  else return source

def create (d : Directory) (below : Below β ι ο κ) (name : String) (purpose : Purpose) :
    Act (Site β) (Output ο β) := do
  let out ← below.create name purpose
  if d.writesCached name purpose then
    return out.cached (d.location name) (d.cacheName below name)
  else return out

-- Drops the cached blocks of a file before the file.
def delete (d : Directory) (below : Below β ι ο κ) (name : String) : Act (Site β) Unit := do
  if d.policy.enabled then
    let cacheName ← d.cacheName below name
    Site.onTier (Tier.delete cacheName)
  below.delete name

-- Drops the cached blocks of a file; one that is gone has none to drop.
def purge (d : Directory) (below : Below β ι ο κ) (name : String) : Act (Site β) Unit := do
  match ← Act.attempt (d.cacheName below name) with
  | .ok cacheName => Site.onTier (Tier.delete cacheName)
  | .error e => if !e.isNotFound then Act.fail e

-- The first of two outcomes that failed.
def firstFailure (a b : Except StorageError Unit) : Except StorageError Unit :=
  match a with
  | .ok _ => b
  | .error e => .error e

-- Purges every file, past those that fail, and keeps the first failure.
def purgeAll (d : Directory) (below : Below β ι ο κ) (names : List String) :
    Act (Site β) (Except StorageError Unit) :=
  names.foldlM (fun first name => do
    let next ← Act.attempt (d.purge below name)
    return firstFailure first next) (.ok ())

def purgeListed (d : Directory) (below : Below β ι ο κ) :
    Act (Site β) (Except StorageError Unit) := do
  match ← Act.attempt below.list with
  | .ok names => d.purgeAll below names
  | .error e => return if e.isNotFound then .ok () else .error e

-- The volume below is closed however the purge went; its own failure is reported first.
def close (d : Directory) (below : Below β ι ο κ) : Act (Site β) Unit := do
  let purged ← if d.policy.enabled then d.purgeListed below else pure (.ok ())
  below.close
  match purged with
  | .ok _ => return ()
  | .error e => Act.fail e

def volume (d : Directory) (feed : Feed ι β) (below : Below β ι ο κ) : Below β ι ο κ where
  openInput := d.openInput feed below
  create := d.create below
  list := below.list
  delete := d.delete below
  hasFile := below.hasFile
  length := below.length
  stamp := below.stamp
  stamped := below.stamped
  sync := below.sync
  lock := below.lock
  close := d.close below

end Directory

end Blockwise
