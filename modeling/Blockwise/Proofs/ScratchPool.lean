import Blockwise.ScratchPool
import Mathlib.Tactic.Common

namespace Blockwise

namespace ScratchPool

variable {p : ScratchPool}

-- The buffers that are kept have the sizes they are kept for.
structure Sound (p : ScratchPool) : Prop where
  small : ∀ b ∈ p.small, b.size = smallSize
  block : ∀ b ∈ p.block, b.size = blockSize

theorem sound_ofDepth (depth : Nat) : (ofDepth depth).Sound :=
  ⟨fun _ h => absurd h List.not_mem_nil, fun _ h => absurd h List.not_mem_nil⟩

theorem sound_new {depth : Nat} (h : new depth = .ok p) : p.Sound := by
  unfold new at h
  split at h
  · exact Except.ok.inj h ▸ sound_ofDepth depth
  · cases h

theorem Sound.allocate (h : p.Sound) (size : Nat) :
    (p.allocate size).1.size = size ∧ (p.allocate size).2.Sound :=
  ⟨Bytes.size_zeros size, h.small, h.block⟩

theorem Sound.take (h : p.Sound) (size : Nat) :
    (p.take size).1.size = size ∧ (p.take size).2.Sound := by
  unfold ScratchPool.take
  split
  · next hsmall =>
    cases hkept : p.small with
    | nil => exact h.allocate size
    | cons b rest =>
      have hsizes := h.small
      rw [hkept, List.forall_mem_cons] at hsizes
      exact ⟨hsizes.1.trans hsmall.symm, hsizes.2, h.block⟩
  split
  · next hblock =>
    cases hkept : p.block with
    | nil => exact h.allocate size
    | cons b rest =>
      have hsizes := h.block
      rw [hkept, List.forall_mem_cons] at hsizes
      exact ⟨hsizes.1.trans hblock.symm, h.small, hsizes.2⟩
  · exact h.allocate size

theorem Sound.put (h : p.Sound) (buffer : Bytes) : (p.put buffer).Sound := by
  have hadd {kept : List Bytes} {size : Nat} (hkept : ∀ b ∈ kept, b.size = size)
      (hsize : buffer.size = size) : ∀ b ∈ kept ++ [buffer], b.size = size := by
    intro b hb
    rcases List.mem_append.mp hb with hb | hb
    · exact hkept b hb
    · rw [List.mem_singleton.mp hb, hsize]
  unfold ScratchPool.put
  split
  · next hsmall =>
    split
    · exact ⟨hadd h.small hsmall, h.block⟩
    · exact h
  split
  · next hblock =>
    split
    · exact ⟨h.small, hadd h.block hblock⟩
    · exact h
  · exact h

end ScratchPool

end Blockwise
