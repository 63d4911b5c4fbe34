import Blockwise.Grid
import Mathlib.Algebra.GroupWithZero.Nat
import Mathlib.Data.List.Dedup
import Mathlib.Tactic.Common

namespace Blockwise

namespace Bytes

variable {a b data : Bytes} {start len n : Nat}

theorem slice_zero (b : Bytes) (start : Nat) : slice b start 0 = ByteArray.empty := by
  refine ext_getElem? fun i => ?_
  rw [getElem?_slice, if_neg (Nat.not_lt_zero i), getElem?_empty]

theorem slice_append_slice (h : start + len ≤ b.size) (hn : n ≤ len) :
    slice b start n ++ slice b (start + n) (len - n) = slice b start len := by
  refine ext_getElem? fun i => ?_
  have hsize : (slice b start n).size = n := size_slice_of_le (by omega)
  rw [getElem?_append, hsize, getElem?_slice, getElem?_slice, getElem?_slice]
  by_cases hi : i < n
  · rw [if_pos hi, if_pos hi, if_pos (by omega)]
  · rw [if_neg hi]
    by_cases hl : i < len
    · rw [if_pos (by omega), if_pos hl]
      congr 1
      omega
    · rw [if_neg (by omega), if_neg hl]

-- Bytes that stand at the right places are the slice.
theorem eq_slice_of_getElem? (hsize : a.size = len) (h : ∀ i < len, a[i]? = b[start + i]?) :
    a = slice b start len := by
  refine ext_getElem? fun i => ?_
  rw [getElem?_slice]
  split
  · next hi => exact h i hi
  · next hi => rw [getElem?_neg a i (by omega)]

theorem slice_whole (b : Bytes) : slice b 0 b.size = b :=
  (eq_slice_of_getElem? rfl fun i _ => by rw [Nat.zero_add]).symm

theorem eq_empty_of_size (h : b.size = 0) : b = ByteArray.empty := by
  refine ext_getElem? fun i => ?_
  rw [getElem?_empty, getElem?_neg b i (by omega)]

-- A string is its start and the rest, whether or not it is longer than the start.
theorem slice_append_rest (b : Bytes) (n : Nat) : slice b 0 n ++ slice b n (b.size - n) = b := by
  refine ext_getElem? fun i => ?_
  rw [getElem?_append, size_slice, getElem?_slice, getElem?_slice]
  by_cases hi : i < n
  · by_cases hlt : i < b.size
    · rw [if_pos (by omega), if_pos hi, Nat.zero_add]
    · rw [if_neg (by omega), if_neg (by omega), getElem?_neg b i (by omega)]
  · rw [if_neg (by omega)]
    by_cases hlt : i < b.size
    · rw [if_pos (by omega)]
      congr 1
      omega
    · rw [if_neg (by omega), getElem?_neg b i (by omega)]

-- The end of a string that grows.
theorem slice_append_end (h : n ≤ a.size) (b : Bytes) :
    slice (a ++ b) n ((a ++ b).size - n) = slice a n (a.size - n) ++ b := by
  refine ext_getElem? fun i => ?_
  have hsize : (slice a n (a.size - n)).size = a.size - n := size_slice_of_le (by omega)
  rw [getElem?_append, hsize, getElem?_slice, getElem?_slice, getElem?_append, ByteArray.size_append]
  by_cases hi : i < a.size - n
  · rw [if_pos (by omega), if_pos (by omega), if_pos hi, if_pos hi]
  · rw [if_neg hi]
    by_cases hlt : i < a.size + b.size - n
    · rw [if_pos hlt, if_neg (by omega)]
      congr 1
      omega
    · rw [if_neg hlt, getElem?_neg b _ (by omega)]

theorem slice_append_left (a b : Bytes) : slice (a ++ b) 0 a.size = a := by
  refine ext_getElem? fun i => ?_
  rw [getElem?_slice, getElem?_append]
  by_cases hi : i < a.size
  · rw [if_pos hi, Nat.zero_add, if_pos hi]
  · rw [if_neg hi, getElem?_neg a i hi]

-- A start of a string goes on by as much as is taken of what comes next in the string.
theorem append_eq_slice {c file : Bytes} (ha : a = slice file 0 a.size)
    (hb : b ++ c = slice file a.size n) (hn : (b ++ c).size = n) :
    a ++ b = slice file 0 (a ++ b).size := by
  refine eq_slice_of_getElem? rfl fun i hi => ?_
  rw [ByteArray.size_append] at hi hn
  rw [getElem?_append]
  by_cases hlt : i < a.size
  · have h := congrArg (fun x : Bytes => x[i]?) ha
    rwa [if_pos hlt, ← (getElem?_slice file 0 a.size i).trans (if_pos hlt)]
  · have h := congrArg (fun x : Bytes => x[i - a.size]?) hb
    simp only [getElem?_append, getElem?_slice] at h
    rw [if_pos (by omega), if_pos (by omega)] at h
    rw [if_neg hlt, h]
    congr 1
    omega

-- Pieces one after the other.
def concat (pieces : List Bytes) : Bytes := pieces.foldr (· ++ ·) ByteArray.empty

@[simp] theorem concat_nil : concat [] = ByteArray.empty := rfl

@[simp] theorem concat_cons (piece : Bytes) (rest : List Bytes) :
    concat (piece :: rest) = piece ++ concat rest := rfl

-- What is written into a gap of its own size fills it.
theorem overlay_padTo_empty (data : Bytes) :
    overlay (padTo ByteArray.empty data.size) 0 data = data := by
  have hsize : (padTo ByteArray.empty data.size).size = data.size := by
    rw [size_padTo, ByteArray.size_empty, Nat.zero_max]
  refine ext_getElem? fun i => ?_
  rw [getElem?_overlay (by omega)]
  split
  · rfl
  · rw [getElem?_neg _ i (by omega), getElem?_neg _ i (by omega)]

end Bytes

namespace Grid

theorem blockSize_pos : 0 < blockSize := by decide

theorem start_add_offset (position : Nat) : start (block position) + offset position = position :=
  Nat.div_add_mod' position blockSize

theorem offset_lt (position : Nat) : offset position < blockSize := Nat.mod_lt _ blockSize_pos

theorem start_succ (block : Nat) : start (block + 1) = start block + blockSize := by
  rw [start, start, Nat.add_mul, Nat.one_mul]

-- A position lies in its block, and in no other.
theorem block_eq_of_mem {position n i : Nat} (hi : i < blockSize) (h : start n + i = position) :
    block position = n ∧ offset position = i := by
  have hcomm : i + n * blockSize = position := by rw [← h, start, Nat.add_comm]
  constructor
  · rw [block, ← hcomm, Nat.add_mul_div_right _ _ blockSize_pos, Nat.div_eq_of_lt hi, Nat.zero_add]
  · rw [offset, ← hcomm, Nat.add_mul_mod_self_right, Nat.mod_eq_of_lt hi]

-- A part of a range that lies in one block.
structure Span.Within (span : Span) (position len : Nat) : Prop where
  fits : span.offset + span.length ≤ blockSize
  lower : position ≤ start span.block + span.offset
  upper : start span.block + span.offset + span.length ≤ position + len

theorem within_of_mem {position len : Nat} : ∀ span ∈ spans position len, span.Within position len := by
  induction position, len using spans.induct with
  | case1 position =>
    rw [spans, if_pos rfl]
    exact List.forall_mem_nil _
  | case2 position len hlen n =>
    rename_i ih
    have hn : min len (blockSize - offset position) = n := rfl
    have hoffset := offset_lt position
    have hstart := start_add_offset position
    rw [spans, if_neg hlen, List.forall_mem_cons]
    simp only [hn]
    refine ⟨⟨?_, Nat.le_of_eq hstart.symm, ?_⟩, fun span hspan => ?_⟩
    · show offset position + n ≤ blockSize
      omega
    · show start (block position) + offset position + n ≤ position + len
      omega
    · obtain ⟨hfits, hlower, hupper⟩ := ih span hspan
      exact ⟨hfits, by omega, by omega⟩

-- The blocks that a range touches, each of them once.
def touched (position len : Nat) : List Nat := ((spans position len).map (·.block)).dedup

theorem block_le_of_mem {position len : Nat} :
    ∀ span ∈ spans position len, block position ≤ span.block := by
  induction position, len using spans.induct with
  | case1 position =>
    rw [spans, if_pos rfl]
    exact List.forall_mem_nil _
  | case2 position len hlen n =>
    rename_i ih
    rw [spans, if_neg hlen, List.forall_mem_cons]
    refine ⟨Nat.le_refl _, fun span hspan => ?_⟩
    have hnext : block position ≤ block (position + n) :=
      Nat.div_le_div_right (Nat.le_add_right _ _)
    exact Nat.le_trans hnext (ih span hspan)

-- A span that does not end its range ends its block, so no block comes twice.
theorem nodup_spans (position len : Nat) : ((spans position len).map (·.block)).Nodup := by
  induction position, len using spans.induct with
  | case1 position =>
    rw [spans, if_pos rfl]
    exact List.nodup_nil
  | case2 position len hlen n =>
    rename_i ih
    have hn : min len (blockSize - offset position) = n := rfl
    rw [spans, if_neg hlen, List.map_cons, List.nodup_cons]
    refine ⟨fun hmem => ?_, ih⟩
    obtain ⟨span, hspan, hblock⟩ := List.mem_map.mp hmem
    have hsome : len - n ≠ 0 := by
      intro hzero
      rw [hn, hzero, spans, if_pos rfl] at hspan
      exact absurd hspan List.not_mem_nil
    have hstart := start_add_offset position
    have hoffset := offset_lt position
    have hends : start (block position) + blockSize = position + n := by omega
    have hnext : block (position + n) = block position + 1 := by
      rw [← hends, ← start_succ, block, start, Nat.mul_div_cancel _ blockSize_pos]
    have hle := block_le_of_mem span hspan
    simp only [hn, hnext] at hle
    have hsame : span.block = block position := hblock
    omega

theorem length_touched (position len : Nat) :
    (touched position len).length = (spans position len).length := by
  rw [touched, (nodup_spans position len).dedup, List.length_map]

theorem length_pos_of_mem {position len : Nat} : ∀ span ∈ spans position len, 0 < span.length := by
  induction position, len using spans.induct with
  | case1 position =>
    rw [spans, if_pos rfl]
    exact List.forall_mem_nil _
  | case2 position len hlen n =>
    rename_i ih
    have hn : min len (blockSize - offset position) = n := rfl
    have hoffset := offset_lt position
    rw [spans, if_neg hlen, List.forall_mem_cons]
    refine ⟨?_, ih⟩
    show 0 < n
    omega

theorem sum_spans (position len : Nat) : ((spans position len).map (·.length)).sum = len := by
  induction position, len using spans.induct with
  | case1 position => rw [spans, if_pos rfl, List.map_nil, List.sum_nil]
  | case2 position len hlen n =>
    rename_i ih
    have hn : min len (blockSize - offset position) = n := rfl
    rw [spans, if_neg hlen, List.map_cons, List.sum_cons]
    simp only [hn, ih]
    omega

-- The number of blocks of a file of a size.
def count (size : Nat) : Nat := (size + (blockSize - 1)) / blockSize

theorem count_start (block : Nat) : count (start block) = block := by
  have hlt : (blockSize - 1) / blockSize = 0 := Nat.div_eq_of_lt (by decide)
  rw [count, start, Nat.add_comm, Nat.add_mul_div_right _ _ blockSize_pos, hlt, Nat.zero_add]

-- A file that ends within a block, or with it, has no block after it.
theorem count_add {n : Nat} (block : Nat) (hpos : 0 < n) (hn : n ≤ blockSize) :
    count (start block + n) = block + 1 := by
  have hlt : (n - 1) / blockSize = 0 := Nat.div_eq_of_lt (by omega)
  have hsum : start block + n + (blockSize - 1) = (n - 1) + (block + 1) * blockSize := by
    rw [start, Nat.add_mul, Nat.one_mul]
    omega
  rw [count, hsum, Nat.add_mul_div_right _ _ blockSize_pos, hlt, Nat.zero_add]

-- A range within a file touches only blocks of the file.
theorem block_lt_count {span : Span} {position len size : Nat} (hspan : span ∈ spans position len)
    (hin : position + len ≤ size) : span.block < count size := by
  have hlength := length_pos_of_mem span hspan
  have hupper := (within_of_mem span hspan).upper
  have hpos := blockSize_pos
  rw [start] at hupper
  refine (Nat.le_div_iff_mul_le hpos).mpr ?_
  rw [Nat.succ_mul]
  omega

-- The blocks that a range meets, in ascending order.
def blocks (position len : Nat) : List Nat :=
  if len = 0 then []
  else List.range' (block position) (block (position + len - 1) + 1 - block position)

-- The part of a range that lies in a block of the given number.
def meet (position len index : Nat) : Span :=
  ⟨index, max position (start index) - start index,
    min (position + len) (start (index + 1)) - max position (start index)⟩

theorem blocks_of_le {position len : Nat} (hlen : len ≠ 0)
    (hle : len ≤ blockSize - offset position) : blocks position len = [block position] := by
  have hoffset := offset_lt position
  have hstart := start_add_offset position
  have hlast : block (position + len - 1) = block position :=
    (block_eq_of_mem (i := offset position + len - 1) (by omega) (by omega)).1
  have hone : block position + 1 - block position = 1 := by omega
  rw [blocks, if_neg hlen, hlast, hone, List.range'_one]

-- A range that goes on past its first block goes on at the start of the next one.
theorem next_block (position : Nat) :
    position + (blockSize - offset position) = start (block position + 1) ∧
      block (position + (blockSize - offset position)) = block position + 1 := by
  have hoffset := offset_lt position
  have hstart := start_add_offset position
  have hnext : position + (blockSize - offset position) = start (block position + 1) := by
    rw [start_succ]
    omega
  refine ⟨hnext, (block_eq_of_mem blockSize_pos ?_).1⟩
  rw [Nat.add_zero, hnext]

theorem blocks_of_lt {position len : Nat} (hlt : blockSize - offset position < len) :
    blocks position len = block position ::
      blocks (position + (blockSize - offset position)) (len - (blockSize - offset position)) := by
  obtain ⟨_, hblock⟩ := next_block position
  have hlast : position + (blockSize - offset position) + (len - (blockSize - offset position)) - 1 =
      position + len - 1 := by omega
  have hle : block position + 1 ≤ block (position + len - 1) := by
    rw [← hblock]
    exact Nat.div_le_div_right (by omega)
  have hcount : block (position + len - 1) + 1 - block position =
      block (position + len - 1) + 1 - (block position + 1) + 1 := by omega
  rw [blocks, blocks, if_neg (by omega), if_neg (by omega), hlast, hblock, hcount, List.range'_succ]

-- A range meets the blocks that start before its end and end after its start.
theorem mem_blocks_iff {position len index : Nat} : index ∈ blocks position len ↔
    len ≠ 0 ∧ start index < position + len ∧ position < start (index + 1) := by
  unfold blocks
  split
  · next hlen => simp [hlen]
  · next hlen =>
    have hfirst : block position ≤ index ↔ position < start (index + 1) := by
      rw [← Nat.lt_succ_iff]
      exact Nat.div_lt_iff_lt_mul blockSize_pos
    have hlast : index ≤ block (position + len - 1) ↔ start index ≤ position + len - 1 :=
      Nat.le_div_iff_mul_le blockSize_pos
    rw [List.mem_range'_1, ← hfirst]
    omega

theorem meet_first {position len : Nat} :
    meet position len (block position) =
      ⟨block position, offset position, min len (blockSize - offset position)⟩ := by
  have hoffset := offset_lt position
  have hstart := start_add_offset position
  have hmax : max position (start (block position)) = position := by omega
  rw [meet, hmax, start_succ, Span.mk.injEq]
  refine ⟨rfl, ?_, ?_⟩
  · omega
  · omega

-- The spans of a range, told without cutting: each block that it meets comes once.
theorem spans_eq (position len : Nat) :
    spans position len = (blocks position len).map (meet position len) := by
  induction position, len using spans.induct with
  | case1 position => rw [spans, if_pos rfl, blocks, if_pos rfl, List.map_nil]
  | case2 position len hlen n =>
    rename_i ih
    have hn : min len (blockSize - offset position) = n := rfl
    have hoffset := offset_lt position
    rw [spans, if_neg hlen]
    simp only [hn, ih]
    by_cases hle : len ≤ blockSize - offset position
    · have hwhole : len - n = 0 := by omega
      rw [blocks_of_le hlen hle, hwhole, blocks, if_pos rfl, List.map_nil, List.map_singleton,
        meet_first, hn]
    · have hroom : n = blockSize - offset position := by omega
      have hsplit := blocks_of_lt (Nat.lt_of_not_le hle)
      rw [hsplit, List.map_cons, meet_first, hn, ← hroom]
      congr 1
      refine List.map_congr_left fun index hindex => ?_
      obtain ⟨hnext, hblock⟩ := next_block position
      have hlater : start (block position + 1) ≤ start index := by
        have hmet := (mem_blocks_iff.mp hindex).2.2
        rw [hroom, hnext] at hmet
        exact Nat.mul_le_mul_right _ (Nat.lt_succ_iff.mp (Nat.lt_of_mul_lt_mul_right hmet))
      rw [← hroom] at hnext
      have hmax : max (position + n) (start index) = max position (start index) := by omega
      have hsum : position + n + (len - n) = position + len := by omega
      rw [meet, meet, hmax, hsum]

end Grid

end Blockwise
