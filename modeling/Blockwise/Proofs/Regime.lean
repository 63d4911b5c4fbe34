import Blockwise.Proofs.Ends

namespace Blockwise

variable {σ τ δ α β : Type}

-- A failure that a caller handles.
def Failure.Handled : Failure → Prop
  | .error _ => True
  | .breach _ => False

-- What every call of a family keeps: an invariant of the state, and an order in which states follow
-- each other.
structure Regime (σ : Type) where
  holds : σ → Prop
  moves : σ → σ → Prop
  refl : ∀ s, moves s s
  trans : ∀ {s s' s''}, moves s s' → moves s' s'' → moves s s''

namespace Regime

variable {g : Regime σ} {s s' s'' : σ}

-- A state that may be left behind by a call.
def Leaves (g : Regime σ) (s s' : σ) : Prop := g.holds s' ∧ g.moves s s'

theorem Leaves.refl (h : g.holds s) : g.Leaves s s := ⟨h, g.refl s⟩

theorem Leaves.trans (h : g.Leaves s s') (h' : g.Leaves s' s'') : g.Leaves s s'' :=
  ⟨h'.1, g.trans h.2 h'.2⟩

-- Only an invariant.
def only (holds : σ → Prop) : Regime σ where
  holds := holds
  moves _ _ := True
  refl _ := trivial
  trans _ _ := trivial

-- A state and a handle on it that is sound.
def withHandle (g : Regime σ) (sound : δ → Prop) : Regime (δ × σ) where
  holds p := sound p.1 ∧ g.holds p.2
  moves p p' := g.moves p.2 p'.2
  refl p := g.refl p.2
  trans := g.trans

theorem leaves_withHandle {sound : δ → Prop} {h h' : δ} (hsound : sound h') (hs : g.Leaves s s') :
    (g.withHandle sound).Leaves (h, s) (h', s') := ⟨⟨hsound, hs.1⟩, hs.2⟩

-- Any number of states side by side, none of which goes away.
def each (n : Nat) (g : Regime τ) : Regime (Array τ) where
  holds ts := ts.size = n ∧ ∀ t ∈ ts, g.holds t
  moves ts ts' := ∀ (i : Nat) (t : τ), ts[i]? = some t → ∃ t', ts'[i]? = some t' ∧ g.moves t t'
  refl _ _ t ht := ⟨t, ht, g.refl t⟩
  trans h h' i t ht := by
    obtain ⟨t', ht', hmoves⟩ := h i t ht
    obtain ⟨t'', ht'', hmoves'⟩ := h' i t' ht'
    exact ⟨t'', ht'', g.trans hmoves hmoves'⟩

section Each

variable {n i : Nat} {g : Regime τ} {ts : Array τ} {t t' : τ}

theorem exists_of_lt (h : (each n g).holds ts) (hi : i < n) : ∃ t, ts[i]? = some t ∧ g.holds t := by
  have hlt : i < ts.size := h.1.symm ▸ hi
  exact ⟨ts[i], Array.getElem?_eq_getElem hlt, h.2 _ (Array.getElem_mem hlt)⟩

theorem leaves_setIfInBounds (h : (each n g).holds ts) (ht : ts[i]? = some t)
    (hleaves : g.Leaves t t') : (each n g).Leaves ts (ts.setIfInBounds i t') := by
  obtain ⟨hsize, hall⟩ := h
  obtain ⟨hlt, rfl⟩ := Array.getElem?_eq_some_iff.mp ht
  refine ⟨⟨Array.size_setIfInBounds.trans hsize, fun u hu => ?_⟩, fun j u hu => ?_⟩
  · rcases Array.mem_or_eq_of_mem_setIfInBounds hu with hu | rfl
    · exact hall u hu
    · exact hleaves.1
  · by_cases hij : i = j
    · subst hij
      obtain rfl := Option.some.inj (ht.symm.trans hu)
      exact ⟨t', Array.getElem?_setIfInBounds_self_of_lt hlt, hleaves.2⟩
    · exact ⟨u, (Array.getElem?_setIfInBounds_ne hij).trans hu, g.refl u⟩

theorem leaves_modify {f : τ → τ} (h : (each n g).holds ts)
    (hf : ∀ t, g.holds t → g.Leaves t (f t)) (i : Nat) : (each n g).Leaves ts (ts.modify i f) := by
  obtain ⟨hsize, hall⟩ := h
  have hget (j : Nat) (u : τ) (hu : ts[j]? = some u) :
      (ts.modify i f)[j]? = some (if i = j then f u else u) := by
    rw [Array.getElem?_modify, hu]
    split <;> rfl
  refine ⟨⟨Array.size_modify.trans hsize, fun u hu => ?_⟩, fun j u hu => ⟨_, hget j u hu, ?_⟩⟩
  · obtain ⟨j, hj, rfl⟩ := Array.mem_iff_getElem.mp hu
    have hlt : j < ts.size := Array.size_modify ▸ hj
    have hmem := hall ts[j] (Array.getElem_mem hlt)
    have hsome := hget j ts[j] (Array.getElem?_eq_getElem hlt)
    rw [Array.getElem?_eq_getElem hj, Option.some.injEq] at hsome
    rw [hsome]
    split
    · exact (hf _ hmem).1
    · exact hmem
  · split
    · exact (hf u (hall u (Array.mem_of_getElem? hu))).2
    · exact g.refl u

end Each

end Regime

namespace Act

-- From a state of the regime the action goes on in the regime, with a result as given or with a
-- failure that can be handled.
def Safe (g : Regime σ) (x : Act σ α) (done : α → Prop) : Prop :=
  ∀ s, g.holds s → Ends x s (fun a s' => g.Leaves s s' ∧ done a)
    (fun e s' => g.Leaves s s' ∧ e.Handled)

variable {g : Regime σ} {g' : Regime τ} {x : Act σ α} {f : α → Act σ β} {done : α → Prop}
  {done₂ : β → Prop}

theorem Safe.pure {a : α} (h : done a) : Safe g (Pure.pure a) done := fun _ hs => ⟨.refl hs, h⟩

theorem Safe.fail (e : StorageError) : Safe g (fail e) done := fun _ hs => ⟨.refl hs, trivial⟩

theorem Safe.throw {e : Failure} (h : e.Handled) : Safe g (MonadExcept.throw e) done :=
  fun _ hs => ⟨.refl hs, h⟩

theorem Safe.bind (hx : Safe g x done) (hf : ∀ a, done a → Safe g (f a) done₂) :
    Safe g (x >>= f) done₂ := by
  intro s hs
  rw [ends_bind]
  refine (hx s hs).imp ?_ fun _ _ => id
  intro a s' h
  obtain ⟨hleaves, hdone⟩ := h
  exact (hf a hdone s' hleaves.1).imp (fun _ _ h' => ⟨hleaves.trans h'.1, h'.2⟩)
    fun _ _ h' => ⟨hleaves.trans h'.1, h'.2⟩

theorem Safe.map {f : α → β} (hx : Safe g x done) (hf : ∀ a, done a → done₂ (f a)) :
    Safe g (f <$> x) done₂ := by
  intro s hs
  rw [ends_map]
  exact (hx s hs).imp (fun a _ h => ⟨h.1, hf a h.2⟩) fun _ _ => id

theorem Safe.attempt (hx : Safe g x done) :
    Safe g (attempt x) fun result => ∀ a, result = .ok a → done a := by
  intro s hs
  rw [ends_attempt]
  refine (hx s hs).imp (fun a _ h => ⟨h.1, ?_⟩) fun e _ h => ?_
  · intro a' hsame
    obtain rfl := Except.ok.inj hsame
    exact h.2
  · obtain ⟨hleaves, hhandled⟩ := h
    cases e with
    | error e => exact ⟨hleaves, nofun⟩
    | breach b => exact hhandled.elim

-- Before an action goes on, it looks at the state.
theorem Safe.get {f : σ → Act σ β} (hf : ∀ s, g.holds s → Ends (f s) s
    (fun b s' => g.Leaves s s' ∧ done₂ b) (fun e s' => g.Leaves s s' ∧ e.Handled)) :
    Safe g (MonadState.get >>= f) done₂ := fun s hs => hf s hs

theorem Safe.modify {f : σ → σ} (hf : ∀ s, g.holds s → g.Leaves s (f s)) :
    Safe g (modify f) fun _ => True := fun s hs => ⟨hf s hs, trivial⟩

-- A part of the state has a regime of its own.
theorem Safe.onPart {part : σ → τ} {put : σ → τ → σ} {y : Act τ α} (hy : Safe g' y done)
    (hpart : ∀ s, g.holds s → g'.holds (part s))
    (hput : ∀ s t, g.holds s → g'.Leaves (part s) t → g.Leaves s (put s t)) :
    Safe g (onPart part put y) done := by
  intro s hs
  rw [ends_onPart]
  exact (hy _ (hpart s hs)).imp (fun _ t h => ⟨hput s t hs h.1, h.2⟩)
    fun _ t h => ⟨hput s t hs h.1, h.2⟩

theorem Safe.element {n i : Nat} {y : Act τ α} (hy : Safe g' y done) (hi : i < n) :
    Safe (.each n g') (element i y) done := by
  intro ts hts
  obtain ⟨t, ht, hholds⟩ := Regime.exists_of_lt hts hi
  have hends := hy t hholds
  simp only [Ends, Act.element, ht] at hends ⊢
  cases hrun : y t with
  | ok a t' =>
    rw [hrun] at hends
    exact ⟨Regime.leaves_setIfInBounds hts ht hends.1, hends.2⟩
  | error e t' =>
    rw [hrun] at hends
    exact ⟨Regime.leaves_setIfInBounds hts ht hends.1, hends.2⟩

theorem Safe.forM {xs : List α} {f : α → Act σ Unit} (hf : ∀ a, Safe g (f a) fun _ => True) :
    Safe g (xs.forM f) fun _ => True := by
  induction xs with
  | nil => exact .pure trivial
  | cons a rest ih => exact (hf a).bind fun _ _ => ih

theorem Safe.foldlM {xs : List α} {f : β → α → Act σ β} {b : β}
    (hf : ∀ b a, Safe g (f b a) fun _ => True) : Safe g (xs.foldlM f b) fun _ => True := by
  induction xs generalizing b with
  | nil => exact .pure trivial
  | cons a rest ih => exact (hf b a).bind fun _ _ => ih

end Act

end Blockwise
