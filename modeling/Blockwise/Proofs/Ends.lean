import Blockwise.Action

namespace Blockwise

theorem ok_of_bind {ε α β : Type} {y : Except ε α} {f : α → Except ε β} {b : β}
    (h : y >>= f = .ok b) : ∃ a, y = .ok a ∧ f a = .ok b := by
  cases y with
  | error e => cases h
  | ok a => exact ⟨a, rfl, h⟩

theorem ok_of_mapError {ε ε' α : Type} {y : Except ε α} {f : ε → ε'} {a : α}
    (h : y.mapError f = .ok a) : y = .ok a := by
  cases y with
  | error e => cases h
  | ok a' =>
    cases h
    rfl

namespace Act

variable {ε ε' σ τ α β : Type}

-- What holds of the result of an action and of the state it leaves, on success and on failure. Each
-- function gets one statement of this kind, and its callers use nothing else of it.
def Ends (x : EStateM ε σ α) (s : σ) (done : α → σ → Prop) (failed : ε → σ → Prop) : Prop :=
  match x s with
  | .ok a s' => done a s'
  | .error e s' => failed e s'

variable {x : EStateM ε σ α} {f : α → EStateM ε σ β} {s : σ}
  {done done' : α → σ → Prop} {failed failed' : ε → σ → Prop}

theorem Ends.imp (h : Ends x s done failed) (hd : ∀ a s', done a s' → done' a s')
    (hf : ∀ e s', failed e s' → failed' e s') : Ends x s done' failed' := by
  unfold Ends at h ⊢
  cases hx : x s with
  | ok a s' => rw [hx] at h; exact hd a s' h
  | error e s' => rw [hx] at h; exact hf e s' h

theorem Ends.always (hd : ∀ a s', done a s') (hf : ∀ e s', failed e s') : Ends x s done failed := by
  unfold Ends
  cases x s with
  | ok a s' => exact hd a s'
  | error e s' => exact hf e s'

theorem Ends.ok {a : α} {s' : σ} (h : Ends x s done failed) (hx : x s = .ok a s') : done a s' := by
  simpa only [Ends, hx] using h

theorem Ends.error {e : ε} {s' : σ} (h : Ends x s done failed) (hx : x s = .error e s') :
    failed e s' := by
  simpa only [Ends, hx] using h

-- An action that cannot fail ends with a result, and one that cannot succeed with a failure.
theorem Ends.exists_ok (h : Ends x s done fun _ _ => False) : ∃ a s', x s = .ok a s' ∧ done a s' := by
  cases hx : x s with
  | ok a s' => exact ⟨a, s', rfl, h.ok hx⟩
  | error e s' => exact (h.error hx).elim

theorem Ends.exists_error (h : Ends x s (fun _ _ => False) failed) :
    ∃ e s', x s = .error e s' ∧ failed e s' := by
  cases hx : x s with
  | ok a s' => exact (h.ok hx).elim
  | error e s' => exact ⟨e, s', rfl, h.error hx⟩

-- Two statements about one run hold together.
theorem Ends.and (h : Ends x s done failed) (h' : Ends x s done' failed') :
    Ends x s (fun a s' => done a s' ∧ done' a s') (fun e s' => failed e s' ∧ failed' e s') := by
  unfold Ends at h h' ⊢
  cases hx : x s with
  | ok a s' => rw [hx] at h h'; exact ⟨h, h'⟩
  | error e s' => rw [hx] at h h'; exact ⟨h, h'⟩

-- What holds of the answer together with the state that is left, however an action ends.
theorem Ends.settled {P : Except ε α → σ → Prop}
    (h : Ends x s (fun a => P (.ok a)) (fun e => P (.error e))) :
    P (Act.outcome x s).1 (Act.outcome x s).2 := by
  unfold Ends at h
  unfold Act.outcome
  cases hx : x s with
  | ok a s' => rw [hx] at h; exact h
  | error e s' => rw [hx] at h; exact h

-- What an action leaves.
theorem Ends.outcome {left : σ → Prop} (h : Ends x s (fun _ => left) (fun _ => left)) :
    left (outcome x s).2 :=
  Ends.settled (P := fun _ => left) h

theorem ends_of_ok {a : α} {s' : σ} (hx : x s = .ok a s') (h : done a s') : Ends x s done failed := by
  unfold Ends
  rw [hx]
  exact h

-- An action by its result and the state that it leaves.
theorem eq_ok_of_outcome {a : α} (h : (Act.outcome x s).1 = .ok a) :
    x s = .ok a (Act.outcome x s).2 := by
  unfold Act.outcome at h ⊢
  cases hx : x s with
  | ok b s' =>
    rw [hx] at h
    exact congrArg (EStateM.Result.ok · s') (Except.ok.inj h)
  | error e s' =>
    rw [hx] at h
    cases h

theorem eq_error_of_outcome {e : ε} (h : (Act.outcome x s).1 = .error e) :
    x s = .error e (Act.outcome x s).2 := by
  unfold Act.outcome at h ⊢
  cases hx : x s with
  | ok a s' =>
    rw [hx] at h
    cases h
  | error e' s' =>
    rw [hx] at h
    exact congrArg (EStateM.Result.error · s') (Except.error.inj h)

-- How an action ends, where that is known.
theorem Ends.answer {answer : Except ε α} (h : Ends x s (fun a _ => answer = .ok a)
    (fun e _ => answer = .error e)) : (Act.outcome x s).1 = answer :=
  (Ends.settled (P := fun r _ => answer = r) h).symm

-- What is made of a result has no part in the state that is left.
theorem outcome_map (g : α → β) (x : EStateM ε σ α) (s : σ) :
    (outcome (g <$> x) s).2 = (outcome x s).2 := by
  have hm : (g <$> x) s = match x s with
    | .ok a s' => .ok (g a) s'
    | .error e s' => .error e s' := rfl
  unfold outcome
  rw [hm]
  cases x s <;> rfl

@[simp] theorem ends_pure {a : α} : Ends (pure a) s done failed ↔ done a s := Iff.rfl

@[simp] theorem ends_throw {e : ε} :
    Ends (throw e : EStateM ε σ α) s done failed ↔ failed e s := Iff.rfl

@[simp] theorem ends_bind {done : β → σ → Prop} :
    Ends (x >>= f) s done failed ↔ Ends x s (fun a s' => Ends (f a) s' done failed) failed := by
  have hb : (x >>= f) s = match x s with
    | .ok a s' => f a s'
    | .error e s' => .error e s' := rfl
  unfold Ends
  rw [hb]
  cases x s <;> rfl

@[simp] theorem ends_map {g : α → β} {done : β → σ → Prop} :
    Ends (g <$> x) s done failed ↔ Ends x s (fun a s' => done (g a) s') failed := by
  have hm : (g <$> x) s = match x s with
    | .ok a s' => .ok (g a) s'
    | .error e s' => .error e s' := rfl
  unfold Ends
  rw [hm]
  cases x s <;> rfl

@[simp] theorem ends_get {done : σ → σ → Prop} :
    Ends (get : EStateM ε σ σ) s done failed ↔ done s s := Iff.rfl

@[simp] theorem ends_modify {g : σ → σ} {done : PUnit → σ → Prop} :
    Ends (modify g : EStateM ε σ PUnit) s done failed ↔ done ⟨⟩ (g s) := Iff.rfl

@[simp] theorem ends_modifyGet {g : σ → α × σ} :
    Ends (modifyGet g : EStateM ε σ α) s done failed ↔ done (g s).1 (g s).2 := Iff.rfl

@[simp] theorem ends_lift_ok {a : α} : Ends (lift (.ok a)) s done failed ↔ done a s := Iff.rfl

@[simp] theorem ends_lift_error {e : ε} : Ends (lift (.error e)) s done failed ↔ failed e s :=
  Iff.rfl

@[simp] theorem ends_fail {e : StorageError} {failed : Failure → σ → Prop} :
    Ends (fail e) s done failed ↔ failed (.error e) s := Iff.rfl

@[simp] theorem ends_breach {b : Breach} {failed : Failure → σ → Prop} :
    Ends (breach b) s done failed ↔ failed (.breach b) s := Iff.rfl

@[simp] theorem ends_onPart {get : σ → τ} {put : σ → τ → σ} {y : EStateM ε τ α} :
    Ends (onPart get put y) s done failed ↔
      Ends y (get s) (fun a t => done a (put s t)) (fun e t => failed e (put s t)) := by
  unfold Ends onPart
  cases y (get s) <;> rfl

@[simp] theorem ends_mapFailure {g : ε → ε'} {failed : ε' → σ → Prop} :
    Ends (mapFailure g x) s done failed ↔ Ends x s done (fun e s' => failed (g e) s') := by
  unfold Ends mapFailure
  cases x s <;> rfl

@[simp] theorem ends_attempt {x : Act σ α} {done : Except StorageError α → σ → Prop}
    {failed : Failure → σ → Prop} :
    Ends (attempt x) s done failed ↔ Ends x s (fun a s' => done (.ok a) s') fun e s' =>
      match e with
      | .error e => done (.error e) s'
      | .breach b => failed (.breach b) s' := by
  unfold Ends attempt
  rcases x s with ⟨a, s'⟩ | ⟨e, s'⟩
  · rfl
  · cases e <;> rfl

end Act

end Blockwise
