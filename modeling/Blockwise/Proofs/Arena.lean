import Blockwise.Arena
import Blockwise.Proofs.Ends
import Blockwise.Proofs.Word
import Mathlib.Tactic.Common

namespace Blockwise

namespace Bank

variable {b : Bank} {offset len : Nat} {data : Bytes} {direct : Bool} {memory : Memory}

-- The byte at a position, zero where nothing was written yet.
def byteAt (b : Bank) (i : Nat) : UInt8 := b.written[i]?.getD 0

-- A bank is as long as it was asked for, which is less than half of what a word can count.
theorem new_len (h : Bank.new len direct memory = .ok b) : b.len = len ∧ len < Bytes.sizeLimit := by
  unfold Bank.new at h
  split at h
  · cases h
  · next hshort =>
    split at h
    · cases h
    · injection h with h
      rw [← h]
      exact ⟨rfl, Nat.not_le.mp hshort⟩

theorem read_of_le (h : offset + len ≤ b.len) :
    ∃ bytes, b.read offset len = .ok bytes ∧ bytes.size = len ∧
      ∀ i < len, bytes[i]? = some (b.byteAt (offset + i)) := by
  refine ⟨_, if_pos h, ?_, ?_⟩
  · rw [Bytes.size_padTo, Bytes.size_slice]
    omega
  · intro i hi
    simp only [Bytes.getElem?_padTo, Bytes.size_slice, Bytes.getElem?_slice, hi, if_true, byteAt]
    by_cases hw : offset + i < b.written.size
    · rw [if_pos (by omega), getElem?_pos b.written (offset + i) hw]
      rfl
    · rw [if_neg (by omega), getElem?_neg b.written (offset + i) hw]
      rfl

theorem write_of_le (h : offset + data.size ≤ b.len) :
    ∃ b', b.write offset data = .ok b' ∧ b'.len = b.len ∧
      ∀ i, b'.byteAt i =
        if offset ≤ i ∧ i < offset + data.size then data[i - offset]?.getD 0 else b.byteAt i := by
  refine ⟨_, if_pos h, rfl, ?_⟩
  intro i
  have hfit : offset + data.size ≤ (Bytes.padTo b.written (offset + data.size)).size := by
    rw [Bytes.size_padTo]
    omega
  simp only [byteAt, Bytes.getElem?_overlay hfit, Bytes.getElem?_padTo]
  by_cases hin : offset ≤ i ∧ i < offset + data.size
  · rw [if_pos hin, if_pos hin]
  · rw [if_neg hin, if_neg hin]
    by_cases hw : i < b.written.size
    · rw [if_pos hw]
    · rw [if_neg hw, getElem?_neg b.written i hw]
      split <;> rfl

end Bank

namespace Arena

-- Every bank holds exactly the blocks of one bank, and all positions in it are words.
structure Sound (a : Arena) : Prop where
  bank_len : ∀ b ∈ a.banks, b.len = a.blocksPerBank * a.blockSize
  bank_short : a.blocksPerBank * a.blockSize < Bytes.sizeLimit

-- The arena as one byte for every bank, block and offset.
def byteAt (a : Arena) (bank block i : Nat) : UInt8 :=
  (a.banks[bank]?.map (·.byteAt (block * a.blockSize + i))).getD 0

variable {a : Arena} {bank block offset len : Nat} {data : Bytes}

theorem bank_eq (h : bank < a.banks.length) : a.bank bank = .ok a.banks[bank] := by
  simp [Arena.bank, Breach.elementAt, h]

theorem next_block_le (hblock : block < a.blocksPerBank) :
    block * a.blockSize + a.blockSize ≤ a.blocksPerBank * a.blockSize := by
  have hnext : (block + 1) * a.blockSize ≤ a.blocksPerBank * a.blockSize :=
    Nat.mul_le_mul_right _ hblock
  rwa [Nat.add_mul, Nat.one_mul] at hnext

-- A range within a block lies in its bank.
theorem Sound.range_le (hs : a.Sound) (hbank : bank < a.banks.length)
    (hblock : block < a.blocksPerBank) (hrange : offset + len ≤ a.blockSize) :
    block * a.blockSize + offset + len ≤ a.banks[bank].len := by
  rw [hs.bank_len _ (List.getElem_mem hbank)]
  have hnext := next_block_le hblock
  omega

theorem Sound.blockSize_lt (hs : a.Sound) (hblock : 0 < a.blocksPerBank) :
    a.blockSize < Word.limit := by
  have hfirst := next_block_le hblock
  exact Word.lt_limit_of_lt_sizeLimit (Nat.lt_of_le_of_lt (by omega) hs.bank_short)

-- Blocks of at least one byte are no more than the bytes of their bank.
theorem Sound.blocks_lt (hs : a.Sound) (hsize : 0 < a.blockSize) :
    a.blocksPerBank < Bytes.sizeLimit :=
  Nat.lt_of_le_of_lt (Nat.le_mul_of_pos_right _ hsize) hs.bank_short

-- Within a block nothing is refused, and the position in the bank is computed without overflow.
theorem Sound.locate_eq (hs : a.Sound) (hbank : bank < a.banks.length)
    (hblock : block < a.blocksPerBank) (hrange : offset + len ≤ a.blockSize) (past : Breach) :
    a.locate bank block offset len past = .ok (a.banks[bank], block * a.blockSize + offset) := by
  have hnext := next_block_le hblock
  have hlast := Word.lt_limit_of_lt_sizeLimit hs.bank_short
  have hwithin : Word.within a.blockSize offset len past = .ok () :=
    Word.within_of_le (hs.blockSize_lt (by omega)) hrange
  have hproduct := Word.product_of_lt (a := block) (b := a.blockSize) (by omega)
  have hsum := Word.sum_of_lt (a := block * a.blockSize) (b := offset) (by omega)
  simp [locate, Nat.not_le.mpr hblock, hwithin, bank_eq hbank, hproduct, hsum, bind, Except.bind,
    pure, Except.pure]

theorem Sound.read_ok (hs : a.Sound) (hbank : bank < a.banks.length)
    (hblock : block < a.blocksPerBank) (hrange : offset + len ≤ a.blockSize) :
    ∃ bytes, a.read bank block offset len = .ok bytes ∧ bytes.size = len ∧
      ∀ i < len, bytes[i]? = some (a.byteAt bank block (offset + i)) := by
  obtain ⟨bytes, hread, hsize, hbytes⟩ := Bank.read_of_le (hs.range_le hbank hblock hrange)
  refine ⟨bytes, ?_, hsize, ?_⟩
  · simp [Arena.read, hs.locate_eq hbank hblock hrange, hread, bind, Except.bind]
  · intro i hi
    rw [hbytes i hi, Nat.add_assoc]
    simp [byteAt, hbank]

-- Ranges of different blocks of one bank have no position in common.
theorem block_eq_of_position_eq {size block block' i i' : Nat} (hi : i < size) (hi' : i' < size)
    (h : block * size + i = block' * size + i') : block = block' ∧ i = i' := by
  have hpos : 0 < size := by omega
  have hdiv := congrArg (· / size) h
  have hmod := congrArg (· % size) h
  simp only [Nat.mul_comm _ size, Nat.mul_add_div hpos, Nat.mul_add_mod, Nat.div_eq_of_lt hi,
    Nat.div_eq_of_lt hi', Nat.mod_eq_of_lt hi, Nat.mod_eq_of_lt hi', Nat.add_zero] at hdiv hmod
  exact ⟨hdiv, hmod⟩

theorem Sound.write_ok (hs : a.Sound) (hbank : bank < a.banks.length)
    (hblock : block < a.blocksPerBank) (hrange : offset + data.size ≤ a.blockSize) :
    ∃ banks, a.write bank block offset data = .ok { a with banks } ∧
      banks.length = a.banks.length ∧ Sound { a with banks } ∧
      ∀ bank' block' i, i < a.blockSize →
        byteAt { a with banks } bank' block' i =
          if bank' = bank ∧ block' = block ∧ offset ≤ i ∧ i < offset + data.size
          then data[i - offset]?.getD 0 else a.byteAt bank' block' i := by
  obtain ⟨b', hwrite, hlen, hbytes⟩ := Bank.write_of_le (hs.range_le hbank hblock hrange)
  refine ⟨a.banks.set bank b', ?_, List.length_set, ⟨?_, hs.bank_short⟩, ?_⟩
  · simp [Arena.write, hs.locate_eq hbank hblock hrange, hwrite, bind, Except.bind, pure,
      Except.pure]
  · intro b hb
    rcases List.mem_or_eq_of_mem_set hb with hb | rfl
    · exact hs.bank_len b hb
    · rw [hlen]
      exact hs.bank_len _ (List.getElem_mem hbank)
  · intro bank' block' i hi
    simp only [byteAt, List.getElem?_set]
    by_cases hsame : bank' = bank
    · subst hsame
      simp only [if_true, hbank, Option.map_some, Option.getD_some, hbytes, true_and,
        List.getElem?_eq_getElem hbank]
      by_cases hin : block' = block ∧ offset ≤ i ∧ i < offset + data.size
      · obtain ⟨rfl, hle, hlt⟩ := hin
        rw [if_pos (by omega), if_pos ⟨rfl, hle, hlt⟩]
        congr 2
        omega
      · rw [if_neg hin, if_neg]
        intro hpos
        obtain ⟨i', hi', hsame⟩ : ∃ i' < a.blockSize,
            block' * a.blockSize + i = block * a.blockSize + i' :=
          ⟨block' * a.blockSize + i - block * a.blockSize, by omega, by omega⟩
        obtain ⟨hblocks, rfl⟩ := block_eq_of_position_eq hi hi' hsame
        exact hin ⟨hblocks, by omega, by omega⟩
    · have hne : bank ≠ bank' := fun h => hsame h.symm
      simp [hne, hsame]

-- A fresh arena is laid out as its sizing says.
theorem new_ok {s : Sizing} {memory : Memory} (h : Arena.new s memory = .ok a) :
    s.check = .ok () ∧ s.blocksPerBank = .ok a.blocksPerBank ∧
      s.bankCount = .ok a.banks.length ∧ a.blockSize = s.blockSize ∧ a.Sound := by
  obtain ⟨_, hcheck, h⟩ := ok_of_bind h
  obtain ⟨blocks, hblocks, h⟩ := ok_of_bind h
  obtain ⟨banks, hbanks, h⟩ := ok_of_bind h
  obtain ⟨bank, hbank, h⟩ := ok_of_bind h
  obtain ⟨hlen, hshort⟩ := Bank.new_len hbank
  split at h
  · cases h
  · obtain rfl := Except.ok.inj h
    refine ⟨hcheck, ok_of_mapError hblocks, ?_, rfl, ?_, hshort⟩
    · rw [ok_of_mapError hbanks, List.length_replicate]
    · intro b hb
      rw [List.eq_of_mem_replicate hb, hlen]

end Arena

end Blockwise
