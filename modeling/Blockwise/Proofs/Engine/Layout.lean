import Blockwise.Proofs.Engine.History
import Blockwise.Settings

namespace Blockwise

namespace Sizing

variable {s : Sizing} {memory : Memory} {f : Failure}

-- The sizing that four machine words and a flag stand for.
def ofWords (slab block total : UInt64) (direct : Bool) : Sizing :=
  ⟨slab.toNat, block.toNat, total.toNat, direct⟩

-- The blocks of a bank, and the banks of a cache.
def blocks (s : Sizing) : Nat := s.slabSize / s.blockSize

def banks (s : Sizing) : Nat := s.totalMemory / s.slabSize

structure Positive (s : Sizing) : Prop where
  slab : s.slabSize ≠ 0
  block : s.blockSize ≠ 0
  total : s.totalMemory ≠ 0

-- What a check asks for.
structure Usable (s : Sizing) : Prop where
  positive : s.Positive
  block_le : s.blockSize ≤ s.slabSize
  slab_le : s.slabSize ≤ s.totalMemory
  two_le : 2 ≤ s.blocks * s.banks

-- The memory for one bank is there, for mappings the addresses for all of them, and a table for all
-- entries of the index.
structure Granted (s : Sizing) (memory : Memory) : Prop where
  bank : ∃ b, Bank.new (s.blocks * s.blockSize) s.direct memory = .ok b
  addresses : s.direct = true → memory s.banks (s.blocks * s.blockSize) = none
  index : s.blocks * s.banks - 1 ≤ Recency.capacityLimit

theorem zeroFields_eq_nil_iff : s.zeroFields = [] ↔ s.Positive := by
  have hnames : s.zeroFields = [] ↔
      s.blockSize ≠ 0 ∧ s.slabSize ≠ 0 ∧ s.totalMemory ≠ 0 := by
    simp [zeroFields, List.filterMap_cons]
    grind
  rw [hnames]
  exact ⟨fun ⟨hblock, hslab, htotal⟩ => ⟨hslab, hblock, htotal⟩,
    fun h => ⟨h.block, h.slab, h.total⟩⟩

namespace Positive

theorem blocksPerBank_eq (h : s.Positive) : s.blocksPerBank = .ok s.blocks := if_neg h.block

theorem bankCount_eq (h : s.Positive) : s.bankCount = .ok s.banks := if_neg h.slab

theorem capacity_eq (h : s.Positive) : s.capacity = .ok (s.blocks * s.banks - 1) := by
  simp [capacity, h.blocksPerBank_eq, h.bankCount_eq, bind, Except.bind, pure, Except.pure]

end Positive

-- Whole blocks fill a bank in part, and whole banks the memory.
theorem blocks_mul_le (s : Sizing) : s.blocks * s.blockSize ≤ s.slabSize := Nat.div_mul_le_self _ _

theorem banks_mul_le (s : Sizing) : s.banks * s.slabSize ≤ s.totalMemory := Nat.div_mul_le_self _ _

theorem total_le (s : Sizing) : s.blocks * s.banks * s.blockSize ≤ s.totalMemory :=
  calc s.blocks * s.banks * s.blockSize
    _ = s.banks * (s.blocks * s.blockSize) := by rw [Nat.mul_comm s.blocks, Nat.mul_assoc]
    _ ≤ s.banks * s.slabSize := Nat.mul_le_mul_left _ s.blocks_mul_le
    _ ≤ s.totalMemory := s.banks_mul_le

-- Blocks of at least one byte are no more than the bytes of the memory.
theorem Positive.count_le (h : s.Positive) : s.blocks * s.banks ≤ s.totalMemory :=
  Nat.le_trans (Nat.le_mul_of_pos_right _ (Nat.pos_of_ne_zero h.block)) s.total_le

-- The check in the order in which it looks. Once no field is zero it divides by none.
theorem check_eq (s : Sizing) : s.check =
    if s.zeroFields ≠ [] then reject (.zeroFields s.zeroFields)
    else if s.slabSize < s.blockSize then reject (.blockAboveSlab s.blockSize s.slabSize)
    else if s.totalMemory < s.slabSize then reject (.totalBelowSlab s.totalMemory s.slabSize)
    else if s.blocks * s.banks - 1 = 0 then reject .tooFewBlocks
    else .ok () := by
  unfold check
  by_cases hpositive : s.zeroFields = []
  · have hcapacity := (zeroFields_eq_nil_iff.mp hpositive).capacity_eq
    rw [hcapacity]
    cases hentries : s.blocks * s.banks - 1 with
    | zero => rfl
    | succ n => rfl
  · simp only [hpositive, ne_eq, not_false_eq_true, if_true]

theorem check_error (h : s.check = .error f) : ∃ fault, f = .error (.invalidConfig fault) := by
  have hreject : ∀ fault, reject fault = .error f → ∃ fault, f = .error (.invalidConfig fault) :=
    fun fault h => ⟨fault, (Except.error.inj h).symm⟩
  rw [check_eq] at h
  split at h
  · exact hreject _ h
  split at h
  · exact hreject _ h
  split at h
  · exact hreject _ h
  split at h
  · exact hreject _ h
  · cases h

theorem check_eq_ok_iff : s.check = .ok () ↔ s.Usable := by
  have hreject : ∀ fault, reject fault ≠ .ok () := fun _ h => by cases h
  rw [check_eq]
  constructor
  · intro h
    split at h
    · exact absurd h (hreject _)
    next hzero =>
    split at h
    · exact absurd h (hreject _)
    next hblock =>
    split at h
    · exact absurd h (hreject _)
    next hslab =>
    split at h
    · exact absurd h (hreject _)
    next hentries =>
    exact ⟨zeroFields_eq_nil_iff.mp (not_not.mp hzero), Nat.le_of_not_lt hblock,
      Nat.le_of_not_lt hslab, by omega⟩
  · intro h
    have htwo := h.two_le
    rw [if_neg (not_not_intro (zeroFields_eq_nil_iff.mpr h.positive)),
      if_neg (Nat.not_lt.mpr h.block_le), if_neg (Nat.not_lt.mpr h.slab_le), if_neg (by omega)]

-- What words compute is what numbers without bound would give.
structure Exact (slab block total : UInt64) (s : Sizing) : Prop where
  blocks : (slab / block).toNat = s.blocks
  banks : (total / slab).toNat = s.banks
  count : ((slab / block) * (total / slab)).toNat = s.blocks * s.banks
  bank : ((slab / block) * block).toNat = s.blocks * s.blockSize

theorem exact_ofWords {slab block total : UInt64} {direct : Bool}
    (h : (ofWords slab block total direct).Positive) :
    Exact slab block total (ofWords slab block total direct) := by
  have hblocks : (slab / block).toNat = (ofWords slab block total direct).blocks :=
    UInt64.toNat_div _ _
  have hbanks : (total / slab).toNat = (ofWords slab block total direct).banks :=
    UInt64.toNat_div _ _
  refine ⟨hblocks, hbanks, ?_, ?_⟩
  · rw [UInt64.toNat_mul, hblocks, hbanks]
    exact Nat.mod_eq_of_lt (Nat.lt_of_le_of_lt h.count_le total.toNat_lt)
  · rw [UInt64.toNat_mul, hblocks]
    exact Nat.mod_eq_of_lt (Nat.lt_of_le_of_lt (blocks_mul_le _) slab.toNat_lt)

end Sizing

namespace Arena

-- So many banks of so many blocks of this size, and every access within a block lies in its bank.
structure Confines (a : Arena) (banks blocks size : Nat) : Prop where
  inside : ∀ bank < banks, ∀ block < blocks, ∀ offset len, offset + len ≤ size →
    ∃ b, a.bank bank = .ok b ∧ block * size + offset + len ≤ b.len
  read : ∀ bank < banks, ∀ block < blocks, ∀ offset len, offset + len ≤ size →
    ∃ bytes, a.read bank block offset len = .ok bytes
  write : ∀ bank < banks, ∀ block < blocks, ∀ offset data, offset + data.size ≤ size →
    ∃ a', a.write bank block offset data = .ok a'

theorem Sound.confines {a : Arena} (hs : a.Sound) :
    a.Confines a.banks.length a.blocksPerBank a.blockSize where
  inside bank hbank block hblock offset len hrange :=
    ⟨a.banks[bank], bank_eq hbank, hs.range_le hbank hblock hrange⟩
  read bank hbank block hblock offset len hrange :=
    let ⟨bytes, hread, _⟩ := hs.read_ok hbank hblock hrange
    ⟨bytes, hread⟩
  write bank hbank block hblock offset data hrange :=
    let ⟨_, hwrite, _⟩ := hs.write_ok hbank hblock hrange
    ⟨_, hwrite⟩

theorem new_of_granted {s : Sizing} {memory : Memory} (h : s.Usable)
    (hgranted : s.Granted memory) : ∃ a, Arena.new s memory = .ok a := by
  obtain ⟨b, hb⟩ := hgranted.bank
  have haddresses : (if s.direct then memory s.banks b.len else none) = none := by
    rw [(Bank.new_len hb).1]
    split
    · next hdirect => exact hgranted.addresses hdirect
    · rfl
  simp [Arena.new, Sizing.check_eq_ok_iff.mpr h, h.positive.blocksPerBank_eq,
    h.positive.bankCount_eq, hb, haddresses, bind, Except.bind, Except.mapError, pure, Except.pure]

end Arena

namespace Settings

-- Settings that were read have passed the check.
theorem check_of_ofToml {text : String} {settings : Settings} (h : ofToml text = .ok settings) :
    settings.sizing.check = .ok () := by
  unfold ofToml at h
  split at h
  · cases h
  next read _ =>
  cases hcheck : read.sizing.check with
  | error f =>
    simp only [hcheck, bind, Except.bind] at h
    cases h
  | ok _ =>
    simp only [hcheck, bind, Except.bind, pure, Except.pure, Except.ok.injEq] at h
    rw [← h]
    exact hcheck

end Settings

namespace Engine

open Sizing

variable {K : Type} [DecidableEq K] {s : Sizing} {memory : Memory} {e : Engine K}

-- An engine with all blocks of a sizing but one, whose accesses never leave their bank.
structure Laid (s : Sizing) (e : Engine K) : Prop where
  capacity : e.capacity = s.blocks * s.banks - 1
  capacity_pos : 1 ≤ e.capacity
  confined : ∀ (t : Tally) (steps : List (Step K)),
    (after ⟨e, t⟩ steps).part.arena.Confines s.banks s.blocks s.blockSize

theorem new_laid (h : new s memory = .ok e) : Laid s e := by
  obtain ⟨hsound, _, hcheck, hsize, hblocks, hbanks, hcapacity⟩ := new_sound h
  have hpositive := (check_eq_ok_iff.mp hcheck).positive
  rw [hpositive.blocksPerBank_eq] at hblocks
  rw [hpositive.bankCount_eq] at hbanks
  rw [hpositive.capacity_eq] at hcapacity
  refine ⟨(Except.ok.inj hcapacity).symm, hsound.capacity_pos, ?_⟩
  intro t steps
  obtain ⟨hlater, hframe⟩ := after_sound (m := ⟨e, t⟩) hsound steps
  have hconfines := hlater.holds.arena.confines
  rwa [hframe.banks, hframe.blocksPerBank, hframe.blockSize, hsize, ← Except.ok.inj hblocks,
    ← Except.ok.inj hbanks] at hconfines

theorem new_of_granted (h : s.check = .ok ()) (hgranted : s.Granted memory) :
    ∃ e : Engine K, new s memory = .ok e ∧ Laid s e := by
  have husable := check_eq_ok_iff.mp h
  have htwo := husable.two_le
  obtain ⟨arena, harena⟩ := Arena.new_of_granted husable hgranted
  obtain ⟨_, _, _, hsize, hsound⟩ := Arena.new_ok harena
  have htable : Occupancy.new arena.blocksPerBank = .ok (.empty arena.blocksPerBank) := by
    have hblocks := hsound.blocks_lt (hsize ▸ Nat.pos_of_ne_zero husable.positive.block)
    unfold Bytes.sizeLimit at hblocks
    rw [Occupancy.new_eq, if_pos]
    unfold Word.limit
    omega
  have hpos : s.blocks * s.banks - 1 ≠ 0 := by omega
  have hindex : Recency.withCapacity (K := K) (s.blocks * s.banks - 1) = .ok (.empty _) :=
    if_pos hgranted.index
  have hnew : ∃ e : Engine K, new s memory = .ok e := by
    simp [new, harena, htable, husable.positive.capacity_eq, hpos, hindex, bind, Except.bind,
      Except.mapError, pure, Except.pure]
  obtain ⟨e, he⟩ := hnew
  exact ⟨e, he, new_laid he⟩

-- For words of any value, and for every document of settings that is read. The divisions cut off,
-- so that no product is longer than a word; and a sizing that passes its check lacks nothing but
-- memory.
theorem laid_of_words (slab block total : UInt64) (direct : Bool) :
    let s := ofWords slab block total direct
    (∀ f, s.check = .error f → ∃ fault, f = .error (.invalidConfig fault)) ∧
    (s.Positive → s.blocksPerBank = .ok s.blocks ∧ s.bankCount = .ok s.banks ∧
      s.blocks * s.banks * s.blockSize ≤ s.totalMemory ∧ Exact slab block total s) ∧
    (s.check = .ok () ↔ s.Usable) ∧
    (s.check = .ok () → ∀ memory, s.Granted memory →
      ∃ e : Engine K, new s memory = .ok e ∧ Laid s e) ∧
    ∀ text settings, Settings.ofToml text = .ok settings →
      settings.sizing.check = .ok () ∧ ∀ memory, settings.sizing.Granted memory →
        ∃ e : Engine K, new settings.sizing memory = .ok e ∧ Laid settings.sizing e := by
  intro s
  refine ⟨fun _ => check_error, ?_, check_eq_ok_iff, fun h _ => new_of_granted h, ?_⟩
  · intro hpositive
    exact ⟨hpositive.blocksPerBank_eq, hpositive.bankCount_eq, s.total_le,
      exact_ofWords hpositive⟩
  · intro text settings hread
    have hcheck := Settings.check_of_ofToml hread
    exact ⟨hcheck, fun _ => new_of_granted hcheck⟩

-- Two banks of four blocks, and a document whose banks are not quite filled by their blocks.
theorem laid_of_words_small :
    let text := "[block_cache]\nslab_size = 70\nblock_size = 16\ntotal_memory = 150\n"
    (∃ e : Engine Nat, new (ofWords 64 16 128 false) = .ok e ∧ Laid (ofWords 64 16 128 false) e) ∧
    ∃ settings, Settings.ofToml text = .ok settings ∧ settings.sizing = ⟨70, 16, 150, true⟩ ∧
      ∃ e : Engine Nat, new settings.sizing = .ok e ∧ Laid settings.sizing e := by
  intro text
  have hread : (Settings.ofToml text).toOption.map (·.sizing) = some ⟨70, 16, 150, true⟩ := by
    decide +kernel
  cases hsettings : Settings.ofToml text with
  | error f =>
    rw [hsettings] at hread
    cases hread
  | ok settings =>
    rw [hsettings] at hread
    have hsizing : settings.sizing = ⟨70, 16, 150, true⟩ := Option.some.inj hread
    have hgranted : settings.sizing.Granted .ample := by
      rw [hsizing]
      exact ⟨⟨_, rfl⟩, fun _ => rfl, by decide⟩
    obtain ⟨_, _, _, hbuilt, hread⟩ := laid_of_words (K := Nat) 64 16 128 false
    exact ⟨hbuilt rfl .ample ⟨⟨_, rfl⟩, fun _ => rfl, by decide⟩, settings, rfl, hsizing,
      (hread text settings hsettings).2 .ample hgranted⟩

end Engine

end Blockwise
