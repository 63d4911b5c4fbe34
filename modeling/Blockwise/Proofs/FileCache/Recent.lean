import Blockwise.Proofs.FileCache
import Blockwise.Proofs.Ranges

namespace Blockwise

open Act

namespace FileCache

variable {c c' : FileCache} {m m' : Metered FileCache} {name source dest : String}
  {file block offset : Nat} {blocks : List Nat} {data : Bytes}

-- A block that is used comes before those that were used earlier.
def use (block : Nat) (blocks : List Nat) : List Nat := block :: blocks.filter (· ≠ block)

theorem length_use_le (block : Nat) (blocks : List Nat) :
    (use block blocks).length ≤ blocks.length + 1 := by
  have hle := List.length_filter_le (· ≠ block) blocks
  rw [use, List.length_cons]
  omega

theorem mem_use {other : Nat} (h : other ∈ blocks) : other ∈ use block blocks := by
  by_cases heq : other = block
  · exact heq ▸ List.mem_cons_self
  · exact List.mem_cons_of_mem _ (List.mem_filter.mpr ⟨h, decide_eq_true heq⟩)

-- The blocks of a file of a size, the last one first, as a file that is written leaves them.
def backward (size : Nat) : List Nat := (List.range (Grid.count size)).reverse

theorem mem_backward {size : Nat} : block ∈ backward size ↔ block < Grid.count size := by
  rw [backward, List.mem_reverse, List.mem_range]

theorem length_backward (size : Nat) : (backward size).length = Grid.count size := by
  rw [backward, List.length_reverse, List.length_range]

-- A file grows at its end, where a block may be under way.
theorem use_backward {size size' : Nat} (hafter : Grid.count size' = block + 1)
    (hbefore : Grid.count size = block ∨ Grid.count size = block + 1) :
    use block (backward size) = backward size' := by
  have hkept : (List.range block).reverse.filter (· ≠ block) = (List.range block).reverse := by
    refine List.filter_eq_self.mpr fun other hother => ?_
    rw [List.mem_reverse, List.mem_range] at hother
    exact decide_eq_true (Nat.ne_of_lt hother)
  have hlast : (List.range (block + 1)).reverse = block :: (List.range block).reverse := by
    rw [List.range_succ, List.reverse_append, List.reverse_singleton, List.singleton_append]
  rw [use, backward, backward, hafter, hlast]
  rcases hbefore with hbefore | hbefore
  · rw [hbefore, hkept]
  · rw [hbefore, hlast, List.filter_cons_of_neg (by simp), hkept]

-- The blocks that were used last, the latest first, are those of the name.
def Recent (c : FileCache) (name : String) (blocks : List Nat) : Prop :=
  blocks ≠ [] → ∃ file, c.names[name]? = some file ∧
    blocks.map (BlockKey.mk file) <+: c.engine.keys

theorem recent_nil (c : FileCache) (name : String) : c.Recent name [] := fun h => absurd rfl h

theorem Recent.holds (h : c.Recent name blocks) (hblock : block ∈ blocks) : c.Holds name block := by
  obtain ⟨file, hname, hprefix⟩ := h (List.ne_nil_of_mem hblock)
  exact ⟨file, hname, hprefix.subset (List.mem_map_of_mem hblock)⟩

-- Putting a key in front keeps what stands behind it in order.
theorem prefix_map_use {keys : List BlockKey} (h : blocks.map (BlockKey.mk file) <+: keys)
    (block : Nat) : (use block blocks).map (BlockKey.mk file) <+:
      ⟨file, block⟩ :: keys.filter (· ≠ ⟨file, block⟩) := by
  have hfilter : (blocks.filter (· ≠ block)).map (BlockKey.mk file) =
      (blocks.map (BlockKey.mk file)).filter (· ≠ ⟨file, block⟩) := by
    rw [List.filter_map]
    congr 1
    refine List.filter_congr fun other _ => ?_
    simp
  rw [use, List.map_cons, hfilter, List.cons_prefix_cons]
  exact ⟨rfl, h.filter _⟩

theorem map_prefix_of_recent (h : c.Recent name blocks) (hname : c.names[name]? = some file) :
    blocks.map (BlockKey.mk file) <+: c.engine.keys := by
  by_cases hnil : blocks = []
  · rw [hnil]
    exact List.nil_prefix
  · obtain ⟨file', hfile, hprefix⟩ := h hnil
    obtain rfl := Option.some.inj (hname.symm.trans hfile)
    exact hprefix

theorem Recent.found (h : c.Recent name blocks) (hfound : Found name block c c') :
    c'.Recent name (use block blocks) := by
  intro _
  obtain ⟨file, n, e, hname, hmoved, rfl, _⟩ := hfound
  refine ⟨file, hname, ?_⟩
  show (use block blocks).map (BlockKey.mk file) <+: e.keys
  rw [hmoved.keys]
  exact prefix_map_use (map_prefix_of_recent h hname) block

-- Looking a block up evicts nothing.
theorem Holds.found {other : String} {n : Nat} (h : c.Holds other n)
    (hfound : Found name block c c') : c'.Holds other n := by
  obtain ⟨file', hname', hmem⟩ := h
  obtain ⟨file, _, e, _, hmoved, rfl, _⟩ := hfound
  have hmem' : (⟨file', n⟩ : BlockKey) ∈ e.keys := by
    rw [hmoved.keys, List.mem_cons, List.mem_filter]
    by_cases heq : (⟨file', n⟩ : BlockKey) = ⟨file, block⟩
    · exact .inl heq
    · exact .inr ⟨hmem, decide_eq_true heq⟩
  exact ⟨file', hname', hmem'⟩

-- A block that is published may evict others, but none of those that were used last.
theorem Recent.filed (h : m.part.Recent name blocks)
    (hfiled : Filed name file block offset data m m')
    (hfew : (use block blocks).length ≤ m.part.engine.capacity) :
    m'.part.Recent name (use block blocks) := by
  intro _
  obtain ⟨⟨c, hnumbered, hpart⟩, _, hstored⟩ := hfiled
  have hnames : m'.part.names = c.names := by rw [hpart]; rfl
  refine ⟨file, hnames ▸ hnumbered.named, ?_⟩
  have hold : blocks.map (BlockKey.mk file) <+: m.part.engine.keys := by
    by_cases hnil : blocks = []
    · rw [hnil]
      exact List.nil_prefix
    · obtain ⟨file', hfile, hprefix⟩ := h hnil
      exact hnumbered.kept file' hfile ▸ hprefix
  have hkeys := hstored.keys
  simp only at hkeys
  rw [hkeys, List.prefix_take_iff, List.length_map]
  exact ⟨prefix_map_use hold block, hfew⟩

-- A new name takes the blocks along; those of a name that is replaced make no difference.
theorem Recent.renamed (h : c.Recent source blocks) (hs : c.Sound) (tally : Tally) (dest : String) :
    Ends (rename source dest) ⟨c, tally⟩ (fun _ m' => m'.part.Recent dest blocks)
      (fun _ _ => False) := by
  refine (rename_dropped (m := ⟨c, tally⟩) hs source dest).imp ?_ fun _ _ => id
  intro _ m' hdone hne
  obtain ⟨file, hsource, hprefix⟩ := h hne
  simp only [hsource] at hdone
  have hnamed : (c.renamed source dest file).names[dest]? = some file := by
    rw [names_renamed, if_pos rfl]
  split at hdone
  · subst hdone
    exact ⟨file, hnamed, hprefix⟩
  · next old hold =>
    have hother : old ≠ file := by
      intro heq
      have hno := (hs.names_ne_of_replaced hsource hold dest).2.2
      exact hno (heq ▸ hnamed)
    refine ⟨file, hdone.names ▸ hnamed, ?_⟩
    rw [hdone.keys]
    have hkept : (blocks.map (BlockKey.mk file)).filter
        (fun key => ¬(key.file = old ∧ key.block ∈ (c.renamed source dest file).listed old)) =
        blocks.map (BlockKey.mk file) := by
      refine List.filter_eq_self.mpr fun key hkey => ?_
      obtain ⟨block, _, rfl⟩ := List.mem_map.mp hkey
      exact decide_eq_true fun hdropped => hother hdropped.1.symm
    exact hkept ▸ hprefix.filter _

end FileCache

end Blockwise
