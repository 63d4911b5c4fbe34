import Blockwise.Engine

namespace Blockwise

-- Several engines that report to one set of counters.
structure Fleet (K : Type) where
  engines : List (Engine K)
  tally : Tally := {}

namespace Fleet

variable {K : Type} [DecidableEq K]

-- So many engines of one sizing. Without any the sizing is not looked at.
def ofSizing (sizing : Sizing) (count : Nat) (memory : Memory := .ample) :
    Except Failure (Fleet K) :=
  match count with
  | 0 => .ok ⟨[], {}⟩
  | count + 1 => do return ⟨List.replicate (count + 1) (← Engine.new sizing memory), {}⟩

def engine (f : Fleet K) (i : Nat) : Except Breach (Engine K) := Breach.elementAt f.engines i

-- Runs a step on one of the engines. The counters are shared, the engines are not.
def step (i : Nat) (s : Engine.Step K) : EStateM Breach (Fleet K) Engine.Reply := fun f =>
  match f.engine i with
  | .error b => .error b f
  | .ok e =>
    let keep (m : Metered (Engine K)) : Fleet K := ⟨f.engines.set i m.part, m.tally⟩
    match Engine.step s ⟨e, f.tally⟩ with
    | .ok reply m => .ok reply (keep m)
    | .error b m => .error b (keep m)

end Fleet

end Blockwise
