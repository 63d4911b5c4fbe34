namespace Blockwise

abbrev Bytes := ByteArray

namespace Bytes

-- No buffer may be of this length or more.
def sizeLimit : Nat := 0x8000000000000000

-- Halving keeps the recursion shallow for runs of any length.
def replicate (n : Nat) (x : UInt8) : Bytes :=
  if n = 0 then ByteArray.empty
  else
    let half := replicate (n / 2) x
    if n % 2 = 1 then (half ++ half).push x else half ++ half
termination_by n
decreasing_by omega

def zeros (n : Nat) : Bytes :=
  replicate n 0

-- The bytes from start on, at most len of them.
def slice (b : Bytes) (start len : Nat) : Bytes :=
  b.extract start (start + len)

-- Writes data over base from offset on; the bytes around it stay.
def overlay (base : Bytes) (offset : Nat) (data : Bytes) : Bytes :=
  data.copySlice 0 base offset data.size false

-- Lengthens by zeros; a string already long enough is kept as it is.
def padTo (b : Bytes) (n : Nat) : Bytes :=
  if b.size < n then b ++ zeros (n - b.size) else b

variable {a b base data : Bytes} {n start len offset : Nat} {x : UInt8}

theorem ext_getElem? (h : ∀ i : Nat, a[i]? = b[i]?) : a = b := by
  have hs : a.size = b.size := by
    have h₁ := h a.size
    have h₂ := h b.size
    grind
  refine ByteArray.ext_getElem hs fun i hi hi' => ?_
  have := h i
  grind

theorem getElem?_eq_data (b : Bytes) (i : Nat) : b[i]? = b.data[i]? := by
  by_cases h : i < b.size
  · rw [getElem?_pos b i h, getElem?_pos b.data i h]; rfl
  · rw [getElem?_neg b i h, getElem?_neg b.data i h]

theorem getElem?_empty (i : Nat) : (ByteArray.empty : Bytes)[i]? = none := by
  rw [getElem?_eq_data]; rfl

theorem getElem?_append (a b : Bytes) (i : Nat) :
    (a ++ b)[i]? = if i < a.size then a[i]? else b[i - a.size]? := by
  simp only [getElem?_eq_data, ByteArray.data_append, Array.getElem?_append]
  rfl

theorem getElem?_push (b : Bytes) (x : UInt8) (i : Nat) :
    (b.push x)[i]? = if i = b.size then some x else b[i]? := by
  rw [getElem?_eq_data, getElem?_eq_data]
  show (b.data.push x)[i]? = _
  rw [Array.getElem?_push]
  rfl

theorem size_replicate (n : Nat) (x : UInt8) : (replicate n x).size = n := by
  fun_induction replicate n x with
  | case1 => rfl
  | case2 n hn half hodd ih => simp only [half, ByteArray.size_push, ByteArray.size_append]; omega
  | case3 n hn half hodd ih => simp only [half, ByteArray.size_append]; omega

theorem getElem?_replicate (n : Nat) (x : UInt8) (i : Nat) :
    (replicate n x)[i]? = if i < n then some x else none := by
  fun_induction replicate n x generalizing i with
  | case1 => rw [getElem?_empty]; rfl
  | case2 n hn half hodd ih =>
    simp only [half] at ih ⊢
    simp only [getElem?_push, getElem?_append, ih, ByteArray.size_append, size_replicate]
    grind
  | case3 n hn half hodd ih =>
    simp only [half] at ih ⊢
    simp only [getElem?_append, ih, size_replicate]
    grind

theorem size_zeros (n : Nat) : (zeros n).size = n :=
  size_replicate n 0

theorem getElem?_zeros (n i : Nat) : (zeros n)[i]? = if i < n then some 0 else none :=
  getElem?_replicate n 0 i

theorem size_slice (b : Bytes) (start len : Nat) :
    (slice b start len).size = min (start + len) b.size - start := by
  simp [slice, ByteArray.size_extract]

theorem size_slice_of_le (h : start + len ≤ b.size) : (slice b start len).size = len := by
  rw [size_slice]; omega

theorem getElem?_slice (b : Bytes) (start len i : Nat) :
    (slice b start len)[i]? = if i < len then b[start + i]? else none := by
  rw [getElem?_eq_data, getElem?_eq_data, slice, ByteArray.data_extract, Array.getElem?_extract]
  grind

theorem data_overlay (base : Bytes) (offset : Nat) (data : Bytes) :
    (overlay base offset data).data =
      base.data.extract 0 offset ++ data.data ++ base.data.extract (offset + data.data.size) := by
  have h : data.size = data.data.size := rfl
  show base.data.extract 0 offset ++ data.data.extract 0 (0 + data.size) ++
    base.data.extract (offset + min data.size (data.data.size - 0)) = _
  simp only [h, Nat.zero_add, Nat.sub_zero, Nat.min_self, Array.extract_size]

-- An overlay that fits keeps the size.
theorem size_overlay (h : offset + data.size ≤ base.size) :
    (overlay base offset data).size = base.size := by
  show (overlay base offset data).data.size = base.data.size
  have h' : offset + data.data.size ≤ base.data.size := h
  rw [data_overlay]
  simp only [Array.size_append, Array.size_extract]
  omega

theorem getElem?_overlay (h : offset + data.size ≤ base.size) (i : Nat) :
    (overlay base offset data)[i]? =
      if offset ≤ i ∧ i < offset + data.size then data[i - offset]? else base[i]? := by
  have h' : offset + data.data.size ≤ base.data.size := h
  have hd : data.size = data.data.size := rfl
  simp only [getElem?_eq_data, data_overlay, hd, Array.getElem?_append, Array.size_append,
    Array.size_extract, Array.getElem?_extract]
  grind

theorem size_padTo (b : Bytes) (n : Nat) : (padTo b n).size = max b.size n := by
  unfold padTo
  split
  · simp only [ByteArray.size_append, size_zeros]; omega
  · omega

theorem getElem?_padTo (b : Bytes) (n i : Nat) :
    (padTo b n)[i]? = if i < b.size then b[i]? else if i < n then some 0 else none := by
  unfold padTo
  split
  · rw [getElem?_append, getElem?_zeros]; grind
  · grind

end Bytes

end Blockwise
