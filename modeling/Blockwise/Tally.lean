namespace Blockwise

-- Resident blocks are signed: the counter goes up on a store and down on a release, and nothing
-- else keeps it from passing zero.
structure Tally where
  resident : Int := 0
  evictions : Nat := 0
  hits : Nat := 0
  misses : Nat := 0
  storeFailures : Nat := 0
  deriving DecidableEq, Repr, Inhabited

-- A part of the cache together with the counters it reports to.
structure Metered (α : Type) where
  part : α
  tally : Tally

namespace Tally

def hit (t : Tally) : Tally := { t with hits := t.hits + 1 }

def miss (t : Tally) : Tally := { t with misses := t.misses + 1 }

def storeFailure (t : Tally) : Tally := { t with storeFailures := t.storeFailures + 1 }

def stored (t : Tally) : Tally := { t with resident := t.resident + 1 }

def released (t : Tally) : Tally :=
  { t with evictions := t.evictions + 1, resident := t.resident - 1 }

end Tally

-- The counters at one moment, with the scratch buffers allocated until then.
structure Snapshot extends Tally where
  allocations : Nat := 0
  deriving DecidableEq, Repr, Inhabited

namespace Snapshot

-- Every counter under its name, in the order of the written form.
def fields (s : Snapshot) : List (String × Int) :=
  [("block_cache_size", s.resident), ("block_cache_eviction", s.evictions),
    ("block_cache_hit", s.hits), ("block_cache_miss", s.misses),
    ("store_failures", s.storeFailures), ("buffer_allocations", s.allocations)]

def toJson (s : Snapshot) : String :=
  "\x7b" ++ ",".intercalate (s.fields.map fun (name, value) =>
    "\"" ++ name ++ "\":" ++ toString value) ++ "\x7d"

-- The share of fetches that hit, as a percentage; zero before the first fetch.
def hitRate (s : Snapshot) : Float :=
  let total := s.hits + s.misses
  if total = 0 then 0.0 else s.hits.toUInt64.toFloat / total.toUInt64.toFloat * 100.0

end Snapshot

end Blockwise
