import Blockwise.Failure

namespace Blockwise

-- A failed action keeps the changes made before it failed, so what a broken contract leaves behind
-- is part of every definition built on it.
abbrev Act (σ α : Type) := EStateM Failure σ α

namespace Act

variable {ε ε' σ τ α β : Type}

-- Runs an action on a part of the state and puts the part back however the action ends.
def onPart (get : σ → τ) (put : σ → τ → σ) (x : EStateM ε τ α) : EStateM ε σ α := fun s =>
  match x (get s) with
  | .ok a t => .ok a (put s t)
  | .error e t => .error e (put s t)

-- The same action with its failures read as other failures.
def mapFailure (f : ε → ε') (x : EStateM ε σ α) : EStateM ε' σ α := fun s =>
  match x s with
  | .ok a s' => .ok a s'
  | .error e s' => .error (f e) s'

def lift (x : Except ε α) : EStateM ε σ α := fun s =>
  match x with
  | .ok a => .ok a s
  | .error e => .error e s

def fail (e : StorageError) : Act σ α := throw (.error e)

def breach (b : Breach) : Act σ α := throw (.breach b)

-- Hands an error to the caller as a value; a broken contract still ends the action.
def attempt (x : Act σ α) : Act σ (Except StorageError α) := fun s =>
  match x s with
  | .ok a s' => .ok (.ok a) s'
  | .error (.error e) s' => .ok (.error e) s'
  | .error (.breach b) s' => .error (.breach b) s'

def element (i : Nat) (x : Act τ α) : Act (Array τ) α := fun s =>
  match s[i]? with
  | none => .error (.breach (.indexOutOfBounds s.size i)) s
  | some t =>
    match x t with
    | .ok a t' => .ok a (s.setIfInBounds i t')
    | .error e t' => .error e (s.setIfInBounds i t')

-- The outcome and the state it left, whichever outcome it is.
def outcome (x : EStateM ε σ α) (s : σ) : Except ε α × σ :=
  match x s with
  | .ok a s' => (.ok a, s')
  | .error e s' => (.error e, s')

@[simp] theorem onPart_ok {get : σ → τ} {put : σ → τ → σ} {x : EStateM ε τ α} {s : σ} {a : α}
    {t : τ} (h : x (get s) = .ok a t) : onPart get put x s = .ok a (put s t) := by
  simp [onPart, h]

@[simp] theorem onPart_error {get : σ → τ} {put : σ → τ → σ} {x : EStateM ε τ α} {s : σ} {e : ε}
    {t : τ} (h : x (get s) = .error e t) : onPart get put x s = .error e (put s t) := by
  simp [onPart, h]

end Act

end Blockwise
