import Blockwise.Settings.Json
import Blockwise.Tally

namespace Blockwise

namespace Snapshot

def counter (key : String) (v : Value) : Option Nat :=
  match v.get? key with
  | some (.int n) => if 0 ≤ n then some n.toNat else none
  | _ => none

-- Reads the written form of the counters back.
def ofJson? (text : String) : Option Snapshot := do
  let v ← Json.parse? text
  match v.get? "block_cache_size" with
  | some (.int resident) => do
    let evictions ← counter "block_cache_eviction" v
    let hits ← counter "block_cache_hit" v
    let misses ← counter "block_cache_miss" v
    let storeFailures ← counter "store_failures" v
    let allocations ← counter "buffer_allocations" v
    some { resident, evictions, hits, misses, storeFailures, allocations }
  | _ => none

end Snapshot

end Blockwise
