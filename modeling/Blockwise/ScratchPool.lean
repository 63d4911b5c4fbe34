import Blockwise.Bytes
import Blockwise.Failure
import Std.Data.TreeMap.Basic

namespace Blockwise

-- Buffers of the two common sizes are kept for reuse with whatever they last held, oldest first
-- out; all others are made anew each time.
structure ScratchPool where
  depth : Nat
  small : List Bytes := []
  block : List Bytes := []
  allocations : Nat := 0

namespace ScratchPool

def smallSize : Nat := 1024

def blockSize : Nat := 8192

def defaultDepth : Nat := 64

-- A pool keeps at least one buffer of each size.
def ofDepth (depth : Nat) : ScratchPool := { depth := max depth 1 }

-- From this depth on the queue of a pool would be too long for one allocation.
def depthLimit : Nat := Bytes.sizeLimit / 32

def new (depth : Nat) : Except Breach ScratchPool :=
  if depth < depthLimit then .ok (ofDepth depth) else .error .capacityOverflow

def allocate (p : ScratchPool) (size : Nat) : Bytes × ScratchPool :=
  (Bytes.zeros size, { p with allocations := p.allocations + 1 })

def take (p : ScratchPool) (size : Nat) : Bytes × ScratchPool :=
  if size = smallSize then
    match p.small with
    | [] => p.allocate size
    | b :: rest => (b, { p with small := rest })
  else if size = blockSize then
    match p.block with
    | [] => p.allocate size
    | b :: rest => (b, { p with block := rest })
  else p.allocate size

-- Odd sizes and buffers for which there is no room are given up.
def put (p : ScratchPool) (buffer : Bytes) : ScratchPool :=
  if buffer.size = smallSize then
    if p.small.length < p.depth then { p with small := p.small ++ [buffer] } else p
  else if buffer.size = blockSize then
    if p.block.length < p.depth then { p with block := p.block ++ [buffer] } else p
  else p

-- How many buffers of either size are kept.
def pooled (p : ScratchPool) : Nat × Nat := (p.small.length, p.block.length)

-- A pool with the buffers that were taken from it and not put back, each under a handle.
structure Desk where
  pool : ScratchPool
  held : Std.TreeMap String Bytes := ∅

namespace Desk

inductive Step where
  | take (handle : String) (size : Nat) (fill : Option UInt8)
  | put (handle : String)
  | putNew (data : Bytes)

inductive Reply where
  | taken (buffer : Bytes)
  | refused (b : Breach)
  | done
  | nothing

-- A buffer is shown as it was taken, before it is filled. One that is too long is counted all the
-- same.
def step (d : Desk) : Step → Reply × Desk
  | .take handle size fill =>
    if size < Bytes.sizeLimit then
      let (buffer, pool) := d.pool.take size
      let kept := match fill with
        | none => buffer
        | some byte => Bytes.replicate size byte
      (.taken buffer, ⟨pool, d.held.insert handle kept⟩)
    else
      (.refused .capacityOverflow,
        { d with pool := { d.pool with allocations := d.pool.allocations + 1 } })
  | .put handle =>
    match d.held[handle]? with
    | none => (.nothing, d)
    | some buffer => (.done, ⟨d.pool.put buffer, d.held.erase handle⟩)
  | .putNew data => (.done, { d with pool := d.pool.put data })

end Desk

end ScratchPool

end Blockwise
