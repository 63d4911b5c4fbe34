import Blockwise.Proofs.Volume.World

namespace Blockwise

open Act

variable {α : Type}

-- An open output on a file of a shelf. Without anything to publish it is the file.
structure Shelf.Gathers (sh : Shelf) (name : String) (o : MemoryOutput) : Prop where
  named : o.name = name
  opened : o.closed = false
  published : o.dirty = false → sh.files[name]?.map (·.data) = some o.buffer

namespace Shelf

variable {sh : Shelf} {name : String} {o : MemoryOutput}

theorem gathers_new (sh : Shelf) (name : String) :
    (sh.publish name ByteArray.empty).Gathers name { name } where
  named := rfl
  opened := rfl
  published _ := by rw [publish, Maps.getElem?_insert, if_pos rfl, Option.map_some]

theorem Gathers.write (h : sh.Gathers name o) (data : Bytes) :
    sh.Gathers name { o with buffer := o.buffer ++ data, dirty := true } :=
  ⟨h.named, h.opened, fun hclean => nomatch hclean⟩

-- After a flush the file is what the output was given.
theorem Gathers.flushed (h : sh.Gathers name o) : (sh.flush o).calm = sh.calm ∧
    (sh.flush o).files[name]?.map (·.data) = some o.buffer := by
  obtain ⟨rfl, _, hpublished⟩ := h
  unfold flush
  split
  · refine ⟨rfl, ?_⟩
    rw [publish, Maps.getElem?_insert, if_pos rfl, Option.map_some]
  · next hdirty => exact ⟨rfl, hpublished (Bool.eq_false_iff.mpr hdirty)⟩

end Shelf

namespace MemoryStore

variable {t : MemoryStore} {o : MemoryOutput} {name : String} {quiet : Bool}

theorem write_open (quiet : Bool) (t : MemoryStore) (hopen : o.closed = false) (data : Bytes) :
    Ends (sink.write data) (o, t)
      (fun _ p => p.2.shelf quiet = t.shelf quiet ∧
        p.1 = { o with buffer := o.buffer ++ data, dirty := true })
      (fun _ _ => False) := by
  simp only [sink, ends_bind, ends_get, hopen, Bool.false_eq_true, if_false]
  exact ⟨rfl, rfl⟩

theorem close_open (quiet : Bool) (t : MemoryStore) (hopen : o.closed = false) :
    Ends sink.close (o, t)
      (fun _ p => p.2.shelf quiet = (t.shelf quiet).flush o ∧
        p.1 = { o with dirty := false, closed := true })
      (fun _ _ => False) := by
  simp only [sink, ends_bind, ends_get, hopen, Bool.false_eq_true, if_false, ends_modify]
  obtain ⟨name, buffer, dirty, closed⟩ := o
  cases dirty <;> exact ⟨rfl, rfl⟩

theorem create_open (quiet : Bool) (hopen : t.closed = false) (name : String) (purpose : Purpose) :
    Ends ((volume true).create name purpose) t
      (fun out t' => t'.shelf quiet = (t.shelf quiet).publish name ByteArray.empty ∧
        out = { name })
      (fun _ _ => False) := by
  simp only [volume, ends_bind]
  refine ends_requireOpen ?_ fun hclosed _ => ?_
  · exact ⟨rfl, rfl⟩
  · rw [hopen] at hclosed
    cases hclosed

theorem openInput_missing (hopen : t.closed = false) (hnone : t.files[name]? = none)
    (purpose : Purpose) :
    Ends ((volume true).openInput name purpose) t (fun _ _ => False)
      (fun e t' => e = .error (.fileNotFound name) ∧ t' = t) := by
  simp only [volume, ends_bind]
  refine ends_requireOpen ?_ fun hclosed _ => ?_
  · refine ends_find (fun file hfile => ?_) fun _ => ⟨rfl, rfl⟩
    rw [hnone] at hfile
    cases hfile
  · rw [hopen] at hclosed
    cases hclosed

end MemoryStore

namespace Guarded

variable {δ : Type} {t : Guarded Faults MemoryStore} {kind : CallKind} {name : String}

theorem open_of_calm (h : t.shelf.calm = true) : t.inner.closed = false := by
  simp only [shelf, MemoryStore.shelf, Bool.and_eq_true, Bool.not_eq_true'] at h
  exact h.2

theorem ask_calm (h : t.shelf.calm = true) (kind : CallKind) (name : String) :
    ask Faults.verdict kind name t = .ok () t := by
  obtain ⟨guard, inner⟩ := t
  simp only [shelf, MemoryStore.shelf, Bool.and_eq_true, List.isEmpty_iff] at h
  obtain ⟨rfl, _⟩ := h
  rfl

-- A guard without faults might as well not be there.
theorem ends_guarded_calm (h : t.shelf.calm = true) {x : Act MemoryStore α}
    {done : α → Guarded Faults MemoryStore → Prop}
    {failed : Failure → Guarded Faults MemoryStore → Prop}
    (hx : Ends x t.inner (fun a inner => done a { t with inner })
      (fun e inner => failed e { t with inner })) :
    Ends (do ask Faults.verdict kind name; onInner x) t done failed := by
  rw [ends_bind]
  exact ends_of_ok (ask_calm h kind name) (ends_onInner.mpr hx)

theorem ends_guardSink_calm (h : t.shelf.calm = true) {f : Sink δ MemoryStore}
    {x : Act (δ × MemoryStore) Unit} {out : δ} {done : Unit → δ × Guarded Faults MemoryStore → Prop}
    {failed : Failure → δ × Guarded Faults MemoryStore → Prop}
    (hx : Ends x (out, t.inner) (fun a p => done a (p.1, { t with inner := p.2 }))
      (fun e p => failed e (p.1, { t with inner := p.2 }))) :
    Ends (guardSink Faults.verdict f kind x) (out, t) done failed := by
  simp only [guardSink, ends_bind, ends_get, ends_onPart]
  exact ends_of_ok (ask_calm h kind (f.name out)) hx

end Guarded

namespace World

variable {i : Nat} {w : World} {sh : Shelf} {t : Guarded Faults MemoryStore} {o : MemoryOutput}

theorem ends_onMemory {x : Act (Guarded Faults MemoryStore) α} (ht : w.memories[i]? = some t)
    {done : α → World → Prop} {failed : Failure → World → Prop} :
    Ends (onMemory i x) w done failed ↔
      Ends x t (fun a t' => done a { w with memories := w.memories.setIfInBounds i t' })
        (fun e t' => failed e { w with memories := w.memories.setIfInBounds i t' }) := by
  rw [onMemory, ends_onPart]
  simp only [Ends, element, ht]
  cases x t <;> rfl

theorem ends_onHandle {ε : Type} {x : Act (MemoryOutput × Guarded Faults MemoryStore) Unit}
    {y : Act (ε × Guarded Faults DiskStore) Unit} (ht : w.memories[i]? = some t)
    {done : Unit → Sited MemoryOutput ε × World → Prop}
    {failed : Failure → Sited MemoryOutput ε × World → Prop} :
    Ends (onHandle x y) (.memory i o, w) done failed ↔ Ends x (o, t)
      (fun a p => done a
        (.memory i p.1, { w with memories := w.memories.setIfInBounds i p.2 }))
      (fun e p => failed e
        (.memory i p.1, { w with memories := w.memories.setIfInBounds i p.2 })) := by
  simp only [Ends, onHandle, onPart, withElement, ht]
  cases x (o, t) <;> rfl

-- A call to an output of a calm store is a call to the output of the store below the guard.
theorem ends_calm {kind : CallKind} {ε : Type} {x : Act (MemoryOutput × MemoryStore) Unit}
    {y : Act (ε × Guarded Faults DiskStore) Unit} {sh' : Shelf} {o' : MemoryOutput}
    (h : w.shelf i = some sh) (hcalm : sh.calm = true)
    (hx : ∀ quiet t, t.shelf quiet = sh →
      Ends x (o, t) (fun _ p => p.2.shelf quiet = sh' ∧ p.1 = o') (fun _ _ => False)) :
    Ends (onHandle (Guarded.guardSink Faults.verdict MemoryStore.sink kind x) y) (.memory i o, w)
      (fun _ p => p.2.shelf i = some sh' ∧ p.1 = .memory i o') (fun _ _ => False) := by
  obtain ⟨t, ht, rfl⟩ := exists_of_shelf h
  refine (ends_onHandle ht).mpr (Guarded.ends_guardSink_calm hcalm ?_)
  refine (hx t.guard.isEmpty t.inner rfl).imp ?_ fun _ _ => False.elim
  intro _ p hdone
  obtain ⟨hshelf, hout⟩ := hdone
  exact ⟨(shelf_setIfInBounds ht).trans (congrArg some hshelf), congrArg (Sited.memory i) hout⟩

theorem write_gathered (h : w.shelf i = some sh) (hopen : o.closed = false) (data : Bytes) :
    Ends (sink.write data) (.memory i o, w)
      (fun _ p => p.2.shelf i = some sh ∧
        p.1 = .memory i { o with buffer := o.buffer ++ data, dirty := true })
      (fun _ _ => ¬sh.calm = true) := by
  by_cases hcalm : sh.calm = true
  · refine Ends.imp (ends_calm h hcalm fun quiet t ht => ?_) (fun _ _ => id) fun _ _ => False.elim
    rw [← ht]
    exact MemoryStore.write_open quiet t hopen data
  · exact (write_ends h o data).imp (fun _ _ hdone => ⟨hdone.1, hdone.2.2⟩) fun _ _ _ => hcalm

theorem close_gathered (h : w.shelf i = some sh) (hopen : o.closed = false) :
    Ends sink.close (.memory i o, w)
      (fun _ p => p.2.shelf i = some (sh.flush o) ∧
        p.1 = .memory i { o with dirty := false, closed := true })
      (fun _ _ => ¬sh.calm = true) := by
  by_cases hcalm : sh.calm = true
  · refine Ends.imp (ends_calm h hcalm fun quiet t ht => ?_) (fun _ _ => id) fun _ _ => False.elim
    rw [← ht]
    exact MemoryStore.close_open quiet t hopen
  · exact (close_ends h fun hclosed => absurd hclosed (Bool.eq_false_iff.mp hopen)).imp
      (fun _ _ => id) fun _ _ _ => hcalm

end World

namespace OnShelf

variable {i : Nat} {tier : Tier} {sh : Shelf} {s : Site World} {name : String}

theorem create_gathered (h : OnShelf i tier sh s) (name : String) (purpose : Purpose) :
    Ends ((World.cellar i).create name purpose) s
      (fun out s' => OnShelf i tier (sh.publish name ByteArray.empty) s' ∧
        out = .plain (.memory i { name }))
      (fun _ _ => ¬sh.calm = true) := by
  by_cases hcalm : sh.calm = true
  · obtain ⟨t, ht, rfl⟩ := World.exists_of_shelf h.shelf
    simp only [World.cellar, Directory.plain, World.memoryVolume, Volume.lift, Guarded.volume, ends_map,
      Site.ends_onStore]
    refine (World.ends_onMemory ht).mpr (Guarded.ends_guarded_calm hcalm ?_)
    refine (MemoryStore.create_open t.guard.isEmpty (Guarded.open_of_calm hcalm) name purpose).imp
      ?_ fun _ _ => False.elim
    intro _ inner hdone
    obtain ⟨hshelf, rfl⟩ := hdone
    exact ⟨⟨h.tier, (World.shelf_setIfInBounds ht).trans (congrArg some hshelf)⟩, rfl⟩
  · exact (h.create_ends name purpose).imp (fun _ _ => id) fun _ _ _ => hcalm

theorem openInput_missing (h : OnShelf i tier sh s) (hcalm : sh.calm = true)
    (hnone : sh.files[name]? = none) (purpose : Purpose) :
    Ends ((World.cellar i).openInput name purpose) s (fun _ _ => False)
      (fun e s' => e = .error (.fileNotFound name) ∧ s' = s) := by
  obtain ⟨t, ht, rfl⟩ := World.exists_of_shelf h.shelf
  simp only [World.cellar, Directory.plain, World.memoryVolume, Volume.lift, Guarded.volume, ends_map,
    Site.ends_onStore]
  refine (World.ends_onMemory ht).mpr (Guarded.ends_guarded_calm hcalm ?_)
  refine (MemoryStore.openInput_missing (Guarded.open_of_calm hcalm) hnone purpose).imp
    (fun _ _ => id) ?_
  intro _ inner hfailed
  obtain ⟨he, rfl⟩ := hfailed
  refine ⟨he, ?_⟩
  obtain ⟨hi, rfl⟩ := Array.getElem?_eq_some_iff.mp ht
  rw [Array.setIfInBounds_def, dif_pos hi, Array.set_getElem_self]

end OnShelf

namespace Directory

variable {i : Nat} {tier : Tier} {sh : Shelf} {s : Site World} {name : String}

theorem create_gathered (h : OnShelf i tier sh s) (d : Directory) (name : String)
    (purpose : Purpose) :
    Ends (d.create (World.cellar i) name purpose) s
      (fun out s' => OnShelf i tier (sh.publish name ByteArray.empty) s' ∧
        (out = .plain (.memory i { name }) ∨ out = (Output.plain (.memory i { name })).cached
          (d.location name) (d.cacheName (World.cellar i) name)))
      (fun _ _ => ¬sh.calm = true) := by
  simp only [create, ends_bind]
  refine (h.create_gathered name purpose).imp ?_ fun _ _ => id
  intro _ s' hdone
  obtain ⟨hs', rfl⟩ := hdone
  split
  · exact ⟨hs', .inr rfl⟩
  · exact ⟨hs', .inl rfl⟩

theorem openInput_missing (h : OnShelf i tier sh s) (hcalm : sh.calm = true)
    (hnone : sh.files[name]? = none) (d : Directory) (purpose : Purpose) :
    Ends (d.openInput World.feed (World.cellar i) name purpose) s (fun _ _ => False)
      (fun e s' => e = .error (.fileNotFound name) ∧ s' = s) := by
  rw [openInput, ends_bind]
  exact (h.openInput_missing hcalm hnone purpose).imp (fun _ _ => False.elim) fun _ _ => id

end Directory

end Blockwise
