import Blockwise.Action
import Blockwise.Bytes

namespace Blockwise

-- What a read put into the caller's buffer, from its start, and why it went no further.
structure Delivery where
  bytes : Bytes
  failure : Option Failure := none

namespace Delivery

def refused (e : StorageError) : Delivery := ⟨ByteArray.empty, some (.error e)⟩

-- The caller's buffer after the read.
def into (d : Delivery) (buffer : Bytes) : Bytes := Bytes.overlay buffer 0 d.bytes

end Delivery

-- A feed reads at positions it is told. Its handles are plain values, and all change is a change of
-- the world.
structure Feed (ι σ : Type) where
  name : ι → String
  length : ι → Nat
  seek : ι → Nat → Act σ Unit
  read : ι → Nat → Nat → σ → Delivery × σ
  clone : ι → Act σ ι

-- A sink changes its handle and the world together. Dropping a handle cannot fail.
structure Sink (δ σ : Type) where
  name : δ → String
  position : δ → Nat
  write : Bytes → Act (δ × σ) Unit
  flush : Act (δ × σ) Unit
  close : Act (δ × σ) Unit
  drop : δ → σ → σ

namespace Sink

variable {δ σ α : Type}

-- Works on a handle and drops it at the end, however the work ends.
def during (sink : Sink δ σ) (handle : δ) (x : Act (δ × σ) α) : Act σ α := fun s =>
  match x (handle, s) with
  | .ok a (h, s') => .ok a (sink.drop h s')
  | .error e (h, s') => .error e (sink.drop h s')

end Sink

-- An input and the position of its next read.
structure Reader (ι : Type) where
  source : ι
  position : Nat := 0

namespace Reader

variable {ι σ : Type}

-- A refused seek leaves the position.
def seek (feed : Feed ι σ) (r : Reader ι) (position : Nat) (s : σ) : Except Failure Unit × Reader ι × σ :=
  match feed.seek r.source position s with
  | .ok _ s' => (.ok (), { r with position }, s')
  | .error e s' => (.error e, r, s')

-- Only a complete read moves the position.
def read (feed : Feed ι σ) (r : Reader ι) (len : Nat) (s : σ) : Delivery × Reader ι × σ :=
  match feed.read r.source r.position len s with
  | (⟨bytes, none⟩, s') => (⟨bytes, none⟩, { r with position := r.position + len }, s')
  | (⟨bytes, some e⟩, s') => (⟨bytes, some e⟩, r, s')

def clone (feed : Feed ι σ) (r : Reader ι) : Act σ (Reader ι) := do
  return { r with source := ← feed.clone r.source }

end Reader

-- The last byte asked for lies past the end of the file.
def readPastEof (name : String) (position len length : Nat) : Option StorageError :=
  if length < position + len then some (.readPastEof name position length) else none

-- A part of a buffer by its ends, which must lie in the buffer in this order.
def Bytes.part (b : Bytes) (start stop : Nat) : Except Failure Bytes :=
  if start ≤ stop ∧ stop ≤ b.size then .ok (Bytes.slice b start (stop - start))
  else .error (.breach (.sliceOutOfRange start stop b.size))

end Blockwise
