import Blockwise.Action

namespace Blockwise

namespace Act

variable {ε σ τ σ' τ' α α' β β' : Type}

section Runs

variable {x : EStateM ε σ α} {f : α → EStateM ε σ α'} {s s' : σ} {a : α} {e : ε}

theorem bind_ok (h : x s = .ok a s') : (x >>= f) s = f a s' := by
  simp only [Bind.bind, EStateM.bind, h]

theorem bind_error (h : x s = .error e s') : (x >>= f) s = .error e s' := by
  simp only [Bind.bind, EStateM.bind, h]

theorem lift_ok_apply {x : Except ε α} (h : x = .ok a) : lift x s = .ok a s := by
  subst h
  rfl

theorem get_bind (f : σ → EStateM ε σ α) : (MonadState.get >>= f) s = f s s := rfl

theorem modifyGet_apply (f : σ → α × σ) :
    (modifyGet f : EStateM ε σ α) s = .ok (f s).1 (f s).2 := rfl

end Runs

-- Both succeeded with related results, or both failed with the same failure.
inductive Met (R : σ → τ → Prop) (rel : α → β → Prop) :
    EStateM.Result ε σ α → EStateM.Result ε τ β → Prop where
  | ok {a b s t} (hrel : rel a b) (hstate : R s t) : Met R rel (.ok a s) (.ok b t)
  | error {e s t} (hstate : R s t) : Met R rel (.error e s) (.error e t)

-- From related states both actions end the same way, with related results and in related states
-- again.
def Matches (R : σ → τ → Prop) (rel : α → β → Prop) (x : EStateM ε σ α) (y : EStateM ε τ β) : Prop :=
  ∀ s t, R s t → Met R rel (x s) (y t)

-- A relation on handles and one on worlds, for what changes both.
def Joined (rel : α → β → Prop) (R : σ → τ → Prop) (s : α × σ) (t : β × τ) : Prop :=
  rel s.1 t.1 ∧ R s.2 t.2

-- Both ended, in either way, with related handles and in related worlds.
theorem Met.joined {R : σ → τ → Prop} {rel : α → β → Prop} {good : α' → β' → Prop}
    {r : EStateM.Result ε (α' × σ) α} {r' : EStateM.Result ε (β' × τ) β}
    (h : Met (Joined good R) rel r r') :
    (∃ a b o u s t, r = .ok a (o, s) ∧ r' = .ok b (u, t) ∧ rel a b ∧ good o u ∧ R s t) ∨
      ∃ e o u s t, r = .error e (o, s) ∧ r' = .error e (u, t) ∧ good o u ∧ R s t := by
  cases h with
  | ok hrel hstate => exact .inl ⟨_, _, _, _, _, _, rfl, rfl, hrel, hstate.1, hstate.2⟩
  | error hstate => exact .inr ⟨_, _, _, _, _, rfl, rfl, hstate.1, hstate.2⟩

-- The same on both sides, with what holds of it.
def Same (good : α → Prop) (a b : α) : Prop := a = b ∧ good a

variable {R : σ → τ → Prop} {R' : σ' → τ' → Prop} {rel : α → β → Prop} {rel' : α' → β' → Prop}

-- Every action goes side by side with itself.
theorem Matches.refl (x : EStateM ε σ α) : Matches Eq Eq x x := by
  rintro s _ rfl
  cases x s with
  | ok a s' => exact .ok rfl rfl
  | error e s' => exact .error rfl

theorem Matches.pure {a : α} {b : β} (h : rel a b) :
    Matches R rel (Pure.pure a : EStateM ε σ α) (Pure.pure b) := fun _ _ hs => .ok h hs

theorem Matches.throw (e : ε) :
    Matches R rel (MonadExcept.throw e : EStateM ε σ α) (MonadExcept.throw e) :=
  fun _ _ hs => .error hs

theorem Matches.fail (e : StorageError) :
    Matches R rel (fail e : Act σ α) (fail e : Act τ β) := fun _ _ hs => .error hs

theorem Matches.lift (x : Except ε α) : Matches R Eq (lift x) (lift x) := by
  intro s t hs
  cases x with
  | ok a => exact .ok rfl hs
  | error e => exact .error hs

theorem Matches.bind {x : EStateM ε σ α} {y : EStateM ε τ β} {f : α → EStateM ε σ α'}
    {g : β → EStateM ε τ β'} (h : Matches R rel x y)
    (hf : ∀ a b, rel a b → Matches R rel' (f a) (g b)) : Matches R rel' (x >>= f) (y >>= g) := by
  intro s t hs
  have hmet := h s t hs
  simp only [Bind.bind, EStateM.bind]
  generalize x s = r at hmet ⊢
  generalize y t = r' at hmet ⊢
  cases hmet with
  | ok hrel hstate => exact hf _ _ hrel _ _ hstate
  | error hstate => exact .error hstate

theorem Matches.map {x : EStateM ε σ α} {y : EStateM ε τ β} {f : α → α'} {g : β → β'}
    (h : Matches R rel x y) (hf : ∀ a b, rel a b → rel' (f a) (g b)) :
    Matches R rel' (f <$> x) (g <$> y) := by
  have hx : f <$> x = x >>= fun a => Pure.pure (f a) := (bind_pure_comp f x).symm
  have hy : g <$> y = y >>= fun b => Pure.pure (g b) := (bind_pure_comp g y).symm
  rw [hx, hy]
  exact h.bind fun a b hab => .pure (hf a b hab)

-- An action that looks at the state goes on from the states as they are.
theorem Matches.get {f : σ → EStateM ε σ α} {g : τ → EStateM ε τ β}
    (hf : ∀ s t, R s t → Met R rel (f s s) (g t t)) :
    Matches R rel (MonadState.get >>= f) (MonadState.get >>= g) := fun s t hs => hf s t hs

theorem Matches.modify {f : σ → σ} {g : τ → τ} (h : ∀ s t, R s t → R (f s) (g t)) :
    Matches R Eq (modify f : EStateM ε σ PUnit) (modify g) := fun s t hs => .ok rfl (h s t hs)

-- Parts of the states go side by side, and related parts are put back.
theorem Matches.onPart {part : σ → σ'} {put : σ → σ' → σ} {part' : τ → τ'} {put' : τ → τ' → τ}
    {x : EStateM ε σ' α} {y : EStateM ε τ' β} (h : Matches R' rel x y)
    (hpart : ∀ s t, R s t → R' (part s) (part' t))
    (hput : ∀ s t s' t', R s t → R' s' t' → R (put s s') (put' t t')) :
    Matches R rel (onPart part put x) (onPart part' put' y) := by
  intro s t hs
  have hmet := h _ _ (hpart s t hs)
  unfold Act.onPart
  generalize x (part s) = r at hmet ⊢
  generalize y (part' t) = r' at hmet ⊢
  cases hmet with
  | ok hrel hstate => exact .ok hrel (hput s t _ _ hs hstate)
  | error hstate => exact .error (hput s t _ _ hs hstate)

theorem Matches.attempt {x : Act σ α} {y : Act τ α} (h : Matches R Eq x y) :
    Matches R Eq (attempt x) (attempt y) := by
  intro s t hs
  have hmet := h s t hs
  unfold Act.attempt
  generalize x s = r at hmet ⊢
  generalize y t = r' at hmet ⊢
  cases hmet with
  | ok hrel hstate => exact .ok (congrArg Except.ok hrel) hstate
  | @error e _ _ hstate =>
    cases e with
    | error e => exact .ok rfl hstate
    | breach b => exact .error hstate

theorem Matches.forM {xs : List α} {f : α → EStateM ε σ Unit} {g : α → EStateM ε τ Unit}
    (h : ∀ a ∈ xs, Matches R Eq (f a) (g a)) : Matches R Eq (xs.forM f) (xs.forM g) := by
  induction xs with
  | nil => exact .pure rfl
  | cons a rest ih =>
    obtain ⟨hfirst, hrest⟩ := List.forall_mem_cons.mp h
    exact hfirst.bind fun _ _ _ => ih hrest

theorem Matches.foldlM {xs : List α'} {f : α → α' → EStateM ε σ α} {g : α → α' → EStateM ε τ α}
    (h : ∀ a x, Matches R Eq (f a x) (g a x)) (a : α) :
    Matches R Eq (xs.foldlM f a) (xs.foldlM g a) := by
  induction xs generalizing a with
  | nil => exact .pure rfl
  | cons x rest ih =>
    refine (h a x).bind fun _ b hb => ?_
    subst hb
    exact ih _

-- An action that changes nothing may come first on one side.
theorem Matches.skip {x : EStateM ε σ α'} {a : α'} {f : α' → EStateM ε σ α} {y : EStateM ε τ β}
    (hx : ∀ s t, R s t → x s = .ok a s) (h : Matches R rel (f a) y) :
    Matches R rel (x >>= f) y := by
  intro s t hs
  rw [bind_ok (hx s t hs)]
  exact h s t hs

-- What a run of calls answers, one after the other, whichever of them fail.
def answers {κ ρ : Type} (step : κ → EStateM ε σ ρ) : σ → List κ → List (Except ε ρ)
  | _, [] => []
  | s, call :: calls =>
    let (answer, s') := outcome (step call) s
    answer :: answers step s' calls

theorem Matches.answers {κ ρ : Type} {step : κ → EStateM ε σ ρ} {step' : κ → EStateM ε τ ρ}
    {calls : List κ} (h : ∀ call ∈ calls, Matches R Eq (step call) (step' call)) {s : σ} {t : τ}
    (hs : R s t) : Act.answers step s calls = Act.answers step' t calls := by
  induction calls generalizing s t with
  | nil => rfl
  | cons call calls ih =>
    obtain ⟨hfirst, hrest⟩ := List.forall_mem_cons.mp h
    have hmet := hfirst s t hs
    simp only [Act.answers, outcome]
    generalize step call s = r at hmet ⊢
    generalize step' call t = r' at hmet ⊢
    cases hmet with
    | ok hsame hstate =>
      subst hsame
      exact congrArg _ (ih hrest hstate)
    | error hstate => exact congrArg _ (ih hrest hstate)

end Act

end Blockwise
