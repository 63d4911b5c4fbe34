import Std.Data.TreeMap.Lemmas
import Mathlib.Tactic.Common

namespace Blockwise

namespace Maps

variable {K V : Type} [Ord K] [Std.TransOrd K]

theorem getElem?_empty_ne (key : K) (v : V) : (∅ : Std.TreeMap K V)[key]? ≠ some v := by
  rw [Std.TreeMap.getElem?_emptyc]
  exact (Option.some_ne_none v).symm

variable [Std.LawfulEqOrd K]

-- What is in order of keys and has the keys of a map, and no others, is the list of its keys.
theorem eq_keys {m : Std.TreeMap K V} {keys : List K}
    (hsorted : keys.Pairwise fun a b => compare a b = .lt)
    (hmem : ∀ key, key ∈ keys ↔ m[key]?.isSome = true) : keys = m.keys := by
  have hnodup : keys.Nodup := by
    refine hsorted.imp ?_
    rintro a _ hlt rfl
    exact Std.OrientedCmp.not_lt_of_lt hlt hlt
  have hsame (key : K) : key ∈ keys ↔ key ∈ m.keys := by
    rw [hmem, Std.TreeMap.mem_keys, Std.TreeMap.mem_iff_isSome_getElem?]
  have hperm := (List.perm_ext_iff_of_nodup hnodup Std.TreeMap.nodup_keys).mpr hsame
  refine hperm.eq_of_pairwise ?_ hsorted Std.TreeMap.ordered_keys
  exact fun a b _ _ hlt hgt => absurd hgt (Std.OrientedCmp.not_lt_of_lt hlt)

variable [DecidableEq K]

theorem getElem?_insert (m : Std.TreeMap K V) (key key' : K) (v : V) :
    (m.insert key v)[key']? = if key = key' then some v else m[key']? := by
  rw [Std.TreeMap.getElem?_insert]
  simp only [Std.LawfulEqCmp.compare_eq_iff_eq]

theorem getElem?_erase (m : Std.TreeMap K V) (key key' : K) :
    (m.erase key)[key']? = if key = key' then none else m[key']? := by
  rw [Std.TreeMap.getElem?_erase]
  simp only [Std.LawfulEqCmp.compare_eq_iff_eq]

end Maps

end Blockwise
