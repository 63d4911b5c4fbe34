import Blockwise.Grid
import Blockwise.Stream
import Blockwise.Tier

namespace Blockwise

-- What a cached input knows of its file since it was opened.
structure CacheLabel where
  name : String
  cacheName : String
  length : Nat
  pool : Nat
  deriving DecidableEq, Repr

namespace CacheLabel

variable {β : Type}

-- Reads a block into a scratch buffer, fills it up with zeros and publishes it. The buffer goes
-- back to its pool whether the read succeeds or not.
def loadBlock (label : CacheLabel) (seek : Nat → Act (Site β) Unit)
    (read : Nat → Nat → Site β → Delivery × Site β) (span : Grid.Span) : Act (Site β) Bytes := do
  let start := Grid.start span.block
  if label.length < start then Act.breach .subtractionOverflow
  let length := min Grid.blockSize (label.length - start)
  seek start
  let scratch ← Site.onTier (Tier.borrow label.pool Grid.blockSize)
  let _ ← Act.lift (Bytes.part scratch 0 length)
  let delivery ← modifyGet (read start length)
  let scratch := delivery.into scratch
  if let some e := delivery.failure then
    Site.onTier (Tier.giveBack label.pool scratch)
    throw e
  let scratch := Bytes.padTo (Bytes.slice scratch 0 length) scratch.size
  let bytes ← Act.lift (Bytes.part scratch span.offset (span.offset + span.length))
  Site.onTier (Tier.update label.cacheName span.block 0 scratch)
  Site.onTier (Tier.giveBack label.pool scratch)
  return bytes

-- A part of a block comes from the cache or, on a miss, from a read of the block that is then
-- published whole.
def readSpan (label : CacheLabel) (seek : Nat → Act (Site β) Unit)
    (read : Nat → Nat → Site β → Delivery × Site β) (span : Grid.Span) : Act (Site β) Bytes := do
  match ← Site.onTier (Tier.fetch label.cacheName span.block span.offset span.length) with
  | some bytes => return bytes
  | none => label.loadBlock seek read span

-- Parts are delivered in order up to the first that fails.
def fill (part : Grid.Span → Act (Site β) Bytes) :
    List Grid.Span → Bytes → Site β → Delivery × Site β
  | [], got, s => (⟨got, none⟩, s)
  | span :: rest, got, s =>
    match part span s with
    | .ok bytes s' => fill part rest (got ++ bytes) s'
    | .error e s' => (⟨got, some e⟩, s')

-- A read past the end is refused before any call to the cache.
def read (label : CacheLabel) (seek : Nat → Act (Site β) Unit)
    (read : Nat → Nat → Site β → Delivery × Site β) (position len : Nat) (s : Site β) :
    Delivery × Site β :=
  match readPastEof label.name position len label.length with
  | some e => (.refused e, s)
  | none => fill (label.readSpan seek read) (Grid.spans position len) ByteArray.empty s

end CacheLabel

-- An input, plain or seen through any number of caching layers.
inductive Source (ι : Type) where
  | plain (input : ι)
  | cached (below : Source ι) (label : CacheLabel)

namespace Source

variable {ι β : Type}

def name (feed : Feed ι β) : Source ι → String
  | plain input => feed.name input
  | cached _ label => label.name

def length (feed : Feed ι β) : Source ι → Nat
  | plain input => feed.length input
  | cached _ label => label.length

-- A cached input is positioned only when a miss has to read a block.
def seek (feed : Feed ι β) : Source ι → Nat → Act (Site β) Unit
  | plain input, position => Site.onStore (feed.seek input position)
  | cached _ _, _ => return ()

def read (feed : Feed ι β) : Source ι → Nat → Nat → Site β → Delivery × Site β
  | plain input, position, len, s =>
    let (delivery, store) := feed.read input position len s.store
    (delivery, { s with store })
  | cached below label, position, len, s =>
    label.read (below.seek feed) (below.read feed) position len s

def clone (feed : Feed ι β) : Source ι → Act (Site β) (Source ι)
  | plain input => plain <$> Site.onStore (feed.clone input)
  | cached below label => (cached · label) <$> below.clone feed

def feed (plainFeed : Feed ι β) : Feed (Source ι) (Site β) where
  name := name plainFeed
  length := length plainFeed
  seek := seek plainFeed
  read := read plainFeed
  clone := clone plainFeed

end Source

end Blockwise
