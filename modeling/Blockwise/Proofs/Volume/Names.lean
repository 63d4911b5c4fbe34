import Std.Data.String.ToNat
import Blockwise.Volume.Directory
import Mathlib.Data.List.Basic
import Mathlib.Tactic.Common

namespace Blockwise

namespace Directory

variable {d : Directory} {a b : String} {s t : Nat}

-- A file name without the sign that ends it in the cache.
def Plain (name : String) : Prop := ':' ∉ name.toList

instance (name : String) : Decidable (Plain name) := inferInstanceAs (Decidable (':' ∉ name.toList))

-- The cache name of a version of a file. The colon keeps versions and files in progress from
-- sharing a name, as long as no file is named like a version of another.
def version (d : Directory) (name : String) (stamp : Nat) : String :=
  d.location name ++ ":" ++ toString stamp

theorem colon_not_mem_digits (n : Nat) : ':' ∉ (toString n).toList := by
  have hdigits : (toString n).toList = Nat.toDigits 10 n := Nat.toList_repr
  intro hmem
  rw [hdigits] at hmem
  have hdigit := Nat.isDigit_of_mem_toDigits (by decide) (by decide) hmem
  revert hdigit
  decide

theorem eq_of_append_colon {u v u' v' : List Char} (hu : ':' ∉ u) (hv : ':' ∉ v)
    (h : u ++ ':' :: u' = v ++ ':' :: v') : u = v ∧ u' = v' := by
  induction u generalizing v with
  | nil =>
    cases v with
    | nil => exact ⟨rfl, (List.cons.inj h).2⟩
    | cons c v =>
      have hhead : ':' = c := (List.cons.inj h).1
      exact absurd (hhead ▸ List.mem_cons_self) hv
  | cons c u ih =>
    cases v with
    | nil =>
      have hhead : c = ':' := (List.cons.inj h).1
      exact absurd (hhead ▸ List.mem_cons_self) hu
    | cons c' v =>
      obtain ⟨rfl, htail⟩ := List.cons.inj h
      obtain ⟨rfl, hrest⟩ := ih (fun hmem => hu (List.mem_cons_of_mem _ hmem))
        (fun hmem => hv (List.mem_cons_of_mem _ hmem)) htail
      exact ⟨rfl, hrest⟩

theorem location_toList (d : Directory) (name : String) :
    (d.location name).toList = (d.name ++ "/").toList ++ name.toList := by
  rw [location, String.toList_append]

theorem version_toList (d : Directory) (name : String) (stamp : Nat) :
    (d.version name stamp).toList =
      (d.name ++ "/").toList ++ (name.toList ++ ':' :: (toString stamp).toList) := by
  have hcolon : ":".toList = [':'] := rfl
  rw [version, String.toList_append, String.toList_append, location_toList, hcolon]
  simp only [List.append_assoc, List.singleton_append]

theorem location_inj (h : d.location a = d.location b) : a = b := by
  have hlist := congrArg String.toList h
  rw [location_toList, location_toList] at hlist
  exact String.toList_inj.mp (List.append_cancel_left hlist)

-- A version of one file is named like another file would be.
theorem version_eq_location (d : Directory) (name : String) (stamp : Nat) :
    d.version name stamp = d.location (name ++ ":" ++ toString stamp) := by
  simp only [version, location, String.append_assoc]

-- A version is read back from its end, so colons in the name of its file do no harm.
theorem version_inj (h : d.version a s = d.version b t) : a = b ∧ s = t := by
  have hlist := congrArg String.toList h
  rw [version_toList, version_toList] at hlist
  have hparts := congrArg List.reverse (List.append_cancel_left hlist)
  simp only [List.reverse_append, List.reverse_cons, List.append_assoc, List.singleton_append]
    at hparts
  have hdigits (n : Nat) : ':' ∉ (toString n).toList.reverse := by
    rw [List.mem_reverse]
    exact colon_not_mem_digits n
  obtain ⟨hstamp, hname⟩ := eq_of_append_colon (hdigits s) (hdigits t) hparts
  refine ⟨String.toList_inj.mp (List.reverse_injective hname), ?_⟩
  exact Nat.repr_injective (String.toList_inj.mp (List.reverse_injective hstamp))

-- Neither file is named like a version of the other one.
def Apart (a b : String) : Prop :=
  ∀ stamp : Nat, a ≠ b ++ ":" ++ toString stamp ∧ b ≠ a ++ ":" ++ toString stamp

theorem Apart.symm (h : Apart a b) : Apart b a := fun stamp => (h stamp).symm

theorem apart_self (a : String) : Apart a a := by
  intro stamp
  have hne : a ≠ a ++ ":" ++ toString stamp := by
    intro hsame
    have hlength := congrArg String.length hsame
    rw [String.length_append, String.length_append] at hlength
    have hcolon : ":".length = 1 := rfl
    omega
  exact ⟨hne, hne⟩

theorem apart_plain (ha : Plain a) (hb : Plain b) : Apart a b := by
  have hcolon (c : String) (stamp : Nat) : ':' ∈ (c ++ ":" ++ toString stamp).toList := by
    rw [String.toList_append, String.toList_append]
    exact List.mem_append_left _ (List.mem_append_right _ List.mem_cons_self)
  refine fun stamp => ⟨?_, ?_⟩
  · rintro rfl
    exact ha (hcolon b stamp)
  · rintro rfl
    exact hb (hcolon a stamp)

theorem Apart.location_ne_version (h : Apart a b) : d.location a ≠ d.version b s := by
  rw [version_eq_location]
  exact fun hsame => (h s).1 (location_inj hsame)

end Directory

end Blockwise
