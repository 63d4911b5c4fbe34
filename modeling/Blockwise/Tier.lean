import Blockwise.FileCache
import Blockwise.ScratchPool

namespace Blockwise

inductive CacheCall where
  | update (name : String) (block offset : Nat) (data : Bytes)
  | fetch (name : String) (block offset len : Nat) (hit : Bool)
  | delete (name : String)
  | rename (source dest : String)

-- The cache as the streams see it, with a journal of every call made to it. Without a file cache
-- every fetch misses and nothing is kept. The first pool is the shared one.
structure Tier where
  files : Option FileCache
  tally : Tally := {}
  journal : Array CacheCall := #[]
  pools : Array ScratchPool := #[]

-- A tier in front of a store of any kind.
structure Site (β : Type) where
  tier : Tier
  store : β

namespace Tier

variable {α : Type}

def note (call : CacheCall) : Act Tier Unit :=
  modify fun t => { t with journal := t.journal.push call }

-- Runs an action on the file cache, and answers as an empty cache does if there is none.
def onFiles (absent : α) (x : FileCache.Run α) : Act Tier α := fun t =>
  match t.files with
  | none => .ok absent t
  | some c =>
    match x ⟨c, t.tally⟩ with
    | .ok a m => .ok a { t with files := some m.part, tally := m.tally }
    | .error b m => .error (.breach b) { t with files := some m.part, tally := m.tally }

def update (name : String) (block offset : Nat) (data : Bytes) : Act Tier Unit := do
  note (.update name block offset data)
  onFiles () (FileCache.update name block offset data)

-- A fetch is noted with its outcome.
def fetch (name : String) (block offset len : Nat) : Act Tier (Option Bytes) := do
  let found ← onFiles none (FileCache.fetch name block offset len)
  note (.fetch name block offset len found.isSome)
  return found

def delete (name : String) : Act Tier Unit := do
  note (.delete name)
  onFiles () (FileCache.delete name)

def rename (source dest : String) : Act Tier Unit := do
  note (.rename source dest)
  onFiles () (FileCache.rename source dest)

def step : FileCache.Step → Act Tier FileCache.Reply
  | .update name block offset data => do update name block offset data; return .done
  | .fetch name block offset len => .fetched len <$> fetch name block offset len
  | .delete name => do delete name; return .done
  | .rename source dest => do rename source dest; return .done

def size (t : Tier) : Nat := (t.files.map FileCache.size).getD 0

def borrow (pool size : Nat) : Act Tier Bytes := fun t =>
  match t.pools[pool]? with
  | none => .error (.breach (.indexOutOfBounds t.pools.size pool)) t
  | some p =>
    let (buffer, p') := p.take size
    .ok buffer { t with pools := t.pools.setIfInBounds pool p' }

def giveBack (pool : Nat) (buffer : Bytes) : Act Tier Unit :=
  modify fun t => { t with pools := t.pools.modify pool (·.put buffer) }

-- The counters, with the allocations of the shared pool.
def snapshot (t : Tier) : Snapshot :=
  { t.tally with allocations := (t.pools[0]?.map ScratchPool.allocations).getD 0 }

end Tier

namespace Site

variable {α β : Type}

def onTier (x : Act Tier α) : Act (Site β) α :=
  Act.onPart Site.tier (fun s tier => { s with tier }) x

def onStore (x : Act β α) : Act (Site β) α :=
  Act.onPart Site.store (fun s store => { s with store }) x

end Site

end Blockwise
