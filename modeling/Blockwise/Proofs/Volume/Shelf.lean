import Blockwise.Proofs.Maps
import Blockwise.Proofs.Stream.Writing
import Blockwise.Proofs.Volume.Names
import Blockwise.Volume.World

namespace Blockwise

open Act

-- A store is calm when it is open and its guard lets every call pass.
structure Shelf where
  files : Std.TreeMap String MemoryFile := ∅
  clock : Nat := 0
  calm : Bool := true

namespace Shelf

def publish (sh : Shelf) (name : String) (data : Bytes) : Shelf :=
  { sh with files := sh.files.insert name ⟨data, sh.clock + 1⟩, clock := sh.clock + 1 }

def erase (sh : Shelf) (name : String) : Shelf := { sh with files := sh.files.erase name }

-- What a flush of an output makes of the shelf.
def flush (sh : Shelf) (o : MemoryOutput) : Shelf :=
  if o.dirty then sh.publish o.name o.buffer else sh

-- Why a file is not found.
def Missing (sh : Shelf) (name : String) (e : Failure) : Prop :=
  sh.files[name]? = none ∧ e = .error (.fileNotFound name)

end Shelf

namespace MemoryStore

variable {t : MemoryStore} {name : String} {purpose : Purpose} {quiet : Bool}

-- The shelf of a store behind a guard that is quiet or not.
def shelf (quiet : Bool) (t : MemoryStore) : Shelf := ⟨t.files, t.clock, quiet && !t.closed⟩

theorem not_calm_of_closed (h : t.closed = true) : (t.shelf quiet).calm ≠ true := by
  simp [shelf, h]

theorem ends_requireOpen {done : Unit → MemoryStore → Prop} {failed : Failure → MemoryStore → Prop}
    (hdone : done () t) (hfailed : t.closed = true → ∀ e, failed e t) :
    Ends requireOpen t done failed := by
  simp only [requireOpen, ends_bind, ends_get]
  split
  · next hclosed => exact hfailed hclosed _
  · exact hdone

theorem ends_find {done : MemoryFile → MemoryStore → Prop} {failed : Failure → MemoryStore → Prop}
    (hdone : ∀ file, t.files[name]? = some file → done file t)
    (hfailed : t.files[name]? = none → failed (.error (.fileNotFound name)) t) :
    Ends (find name) t done failed := by
  simp only [find, ends_bind, ends_get]
  cases hfile : t.files[name]? with
  | none => exact hfailed hfile
  | some file => exact hdone file hfile

theorem openInput_ends (quiet : Bool) (t : MemoryStore) (name : String) (purpose : Purpose) :
    Ends ((volume true).openInput name purpose) t
      (fun input t' => t'.shelf quiet = t.shelf quiet ∧
        ∃ file, (t.shelf quiet).files[name]? = some file ∧ input = ⟨name, file.data⟩)
      (fun e t' => t'.shelf quiet = t.shelf quiet ∧
        ((t.shelf quiet).calm = true → (t.shelf quiet).Missing name e)) := by
  simp only [volume, ends_bind]
  refine ends_requireOpen ?_ fun hclosed _ => ⟨rfl, fun h => absurd h (not_calm_of_closed hclosed)⟩
  refine ends_find (fun file hfile => ?_) fun hnone => ⟨rfl, fun _ => ⟨hnone, rfl⟩⟩
  exact ⟨rfl, file, hfile, rfl⟩

theorem create_ends (quiet : Bool) (t : MemoryStore) (name : String) (purpose : Purpose) :
    Ends ((volume true).create name purpose) t
      (fun out t' => t'.shelf quiet = (t.shelf quiet).publish name ByteArray.empty ∧ out = { name })
      (fun _ t' => t'.shelf quiet = t.shelf quiet) := by
  simp only [volume, ends_bind]
  refine ends_requireOpen ?_ fun _ _ => rfl
  exact ⟨rfl, rfl⟩

theorem stamp_ends (quiet : Bool) (t : MemoryStore) (name : String) :
    Ends ((volume true).stamp name) t
      (fun stamp t' => t'.shelf quiet = t.shelf quiet ∧
        ∃ file, (t.shelf quiet).files[name]? = some file ∧ stamp = file.stamp)
      (fun e t' => t'.shelf quiet = t.shelf quiet ∧ (t.shelf quiet).Missing name e) := by
  simp only [volume, Bool.not_true, Bool.false_eq_true, if_false, ends_bind]
  refine ends_find (fun file hfile => ?_) fun hnone => ⟨rfl, hnone, rfl⟩
  exact ⟨rfl, file, hfile, rfl⟩

theorem delete_ends (quiet : Bool) (t : MemoryStore) (name : String) :
    Ends ((volume true).delete name) t
      (fun _ t' => t'.shelf quiet = (t.shelf quiet).erase name)
      (fun _ t' => t'.shelf quiet = t.shelf quiet) := by
  simp only [volume, delete, ends_bind]
  refine ends_requireOpen ?_ fun _ _ => rfl
  exact ends_find (fun _ _ => rfl) fun _ => rfl

theorem write_ends (quiet : Bool) (t : MemoryStore) (o : MemoryOutput) (data : Bytes) :
    Ends (sink.write data) (o, t)
      (fun _ p => p.2.shelf quiet = t.shelf quiet ∧ o.closed = false ∧
        p.1 = { o with buffer := o.buffer ++ data, dirty := true })
      (fun _ p => p.2.shelf quiet = t.shelf quiet ∧ p.1 = o) := by
  simp only [sink, ends_bind, ends_get]
  cases hclosed : o.closed with
  | true => exact ⟨rfl, rfl⟩
  | false => exact ⟨rfl, rfl, rfl⟩

theorem flush_ends (quiet : Bool) (t : MemoryStore) (o : MemoryOutput) :
    Ends flush (o, t)
      (fun _ p => p.2.shelf quiet = (t.shelf quiet).flush o ∧ p.1 = { o with dirty := false })
      (fun _ p => p.2.shelf quiet = t.shelf quiet ∧ p.1 = o) := by
  obtain ⟨name, buffer, dirty, closed⟩ := o
  cases dirty <;> exact ⟨rfl, rfl⟩

-- A closed output has nothing left to publish, so closing it again is like a flush, too.
theorem close_ends (quiet : Bool) (t : MemoryStore) (o : MemoryOutput)
    (hdone : o.closed = true → o.dirty = false) :
    Ends sink.close (o, t)
      (fun _ p => p.2.shelf quiet = (t.shelf quiet).flush o ∧
        p.1 = { o with dirty := false, closed := true })
      (fun _ p => p.2.shelf quiet = t.shelf quiet ∧ p.1 = o) := by
  obtain ⟨name, buffer, dirty, closed⟩ := o
  simp only [sink, ends_bind, ends_get]
  cases closed with
  | true =>
    obtain rfl : dirty = false := hdone rfl
    exact ⟨rfl, rfl⟩
  | false =>
    simp only [Bool.false_eq_true, if_false, ends_bind, ends_modify]
    refine (flush_ends quiet t _).imp ?_ fun _ _ => id
    intro _ p hdone
    obtain ⟨o', t'⟩ := p
    obtain ⟨hshelf, rfl⟩ := hdone
    exact ⟨hshelf, rfl⟩

end MemoryStore

namespace Guarded

variable {γ β δ α : Type} {kind : CallKind} {name : String}

@[simp] theorem ends_onInner {t : Guarded γ β} {x : Act β α} {done : α → Guarded γ β → Prop}
    {failed : Failure → Guarded γ β → Prop} :
    Ends (onInner x) t done failed ↔ Ends x t.inner (fun a inner => done a { t with inner })
      (fun e inner => failed e { t with inner }) := ends_onPart

-- A guard without faults stays so, and one with faults has some left.
theorem ask_ends (kind : CallKind) (name : String) (t : Guarded Faults β) :
    Ends (ask Faults.verdict kind name) t
      (fun _ t' => t'.inner = t.inner ∧ t'.guard.isEmpty = t.guard.isEmpty)
      (fun _ t' => t'.inner = t.inner ∧ t'.guard.isEmpty = t.guard.isEmpty ∧
        t.guard.isEmpty = false) := by
  rw [ask, ends_onPart, ends_mapFailure]
  simp only [Faults.verdict, ends_bind, ends_get]
  cases hfound : t.guard.find? fun f => f.kind = kind && name.startsWith f.start with
  | none => exact ⟨trivial, rfl⟩
  | some f =>
    have hsome : t.guard.isEmpty = false :=
      List.isEmpty_eq_false_iff_exists_mem.mpr ⟨f, List.mem_of_find?_eq_some hfound⟩
    by_cases hskip : f.skip = 0
    · simp only [hskip, if_true, ends_bind, ends_throw]
      exact ⟨trivial, trivial, hsome⟩
    · simp only [hskip, if_false, ends_modify]
      exact ⟨trivial, hsome.symm⟩

-- The shelf of a memory store, calm only behind a guard without faults.
def shelf (t : Guarded Faults MemoryStore) : Shelf := t.inner.shelf t.guard.isEmpty

theorem not_calm_of_faults {t : Guarded Faults MemoryStore} (h : t.guard.isEmpty = false) :
    t.shelf.calm ≠ true := by
  simp [shelf, MemoryStore.shelf, h]

-- A call that is refused by the guard fails like one that was refused behind it.
theorem guarded_ends {t : Guarded Faults MemoryStore} {x : Act MemoryStore α}
    (done : α → Shelf → Prop) (failed : Failure → Prop)
    (hx : ∀ quiet, t.inner.shelf quiet = t.shelf → Ends x t.inner
      (fun a inner => done a (inner.shelf quiet))
      (fun e inner => inner.shelf quiet = t.shelf ∧ (t.shelf.calm = true → failed e))) :
    Ends (do ask Faults.verdict kind name; onInner x) t (fun a t' => done a t'.shelf)
      (fun e t' => t'.shelf = t.shelf ∧ (t.shelf.calm = true → failed e)) := by
  simp only [ends_bind]
  refine (ask_ends kind name t).imp ?_ ?_
  · intro _ t' hpassed
    obtain ⟨hinner, hguard⟩ := hpassed
    rw [ends_onInner, hinner]
    exact hx t'.guard.isEmpty (by rw [hguard, shelf])
  · intro e t' hrefused
    obtain ⟨hinner, hguard, hsome⟩ := hrefused
    exact ⟨by rw [shelf, shelf, hinner, hguard], fun h => absurd h (not_calm_of_faults hsome)⟩

theorem guardSink_ends {t : Guarded Faults MemoryStore} {f : Sink δ MemoryStore}
    {x : Act (δ × MemoryStore) Unit} {out : δ} (done : δ → Shelf → Prop)
    (hx : ∀ quiet, t.inner.shelf quiet = t.shelf → Ends x (out, t.inner)
      (fun _ p => done p.1 (p.2.shelf quiet))
      (fun _ p => p.2.shelf quiet = t.shelf ∧ p.1 = out)) :
    Ends (guardSink Faults.verdict f kind x) (out, t) (fun _ p => done p.1 p.2.shelf)
      (fun _ p => p.2.shelf = t.shelf ∧ p.1 = out) := by
  simp only [guardSink, ends_bind, ends_get, ends_onPart]
  refine (ask_ends kind (f.name out) t).imp ?_ ?_
  · intro _ t' hpassed
    obtain ⟨hinner, hguard⟩ := hpassed
    simp only [hinner]
    exact hx t'.guard.isEmpty (by rw [hguard, shelf])
  · intro e t' hrefused
    obtain ⟨hinner, hguard, _⟩ := hrefused
    exact ⟨by rw [shelf, shelf, hinner, hguard], trivial⟩

end Guarded

end Blockwise
