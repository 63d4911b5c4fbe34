import Blockwise.Recency
import Std.Data.TreeMap.Basic

namespace Blockwise

-- An index whose spots are kept under labels, so that one spot can be handed in again and watched
-- from outside.
structure LabelledIndex where
  index : Recency String
  labels : Std.TreeMap String Nat := ∅

namespace LabelledIndex

-- A dropped entry with its spot as it was, and whether this drop was the first to mark it.
structure Dropped where
  key : String
  spot : Spot
  first : Bool
  deriving DecidableEq, Repr

inductive Step where
  | insert (key : String) (bank block : Nat) (label : Option String)
  | get (key : String)
  | peek (key : String)
  | contains (key : String)
  | remove (key : String)
  | mark (label : String)
  | spot (label : String)
  deriving DecidableEq, Repr

inductive Reply where
  | spot (s : Option Spot)
  | flag (b : Option Bool)
  deriving DecidableEq, Repr

def withCapacity (capacity : Nat) : Except Breach LabelledIndex := do
  return { index := ← Recency.withCapacity capacity }

-- The number of the spot to insert: the one under the label if there is one, else a new one.
def choose (x : LabelledIndex) (bank block : Nat) (label : Option String) : Nat × LabelledIndex :=
  match label.bind (x.labels[·]?) with
  | some n => (n, x)
  | none =>
    let (n, index) := x.index.enroll { bank, block }
    match label with
    | some l => (n, { index, labels := x.labels.insert l n })
    | none => (n, { x with index })

def drop (x : LabelledIndex) (key : String) (n : Nat) : Dropped × LabelledIndex :=
  let spot := x.index.spot n
  let (first, index) := x.index.retire n
  (⟨key, spot, first⟩, { x with index })

def show? (x : LabelledIndex) (n : Option Nat) : Reply := .spot (n.map x.index.spot)

def step (x : LabelledIndex) : Step → Reply × List Dropped × LabelledIndex
  | .insert key bank block label =>
    let (n, x) := x.choose bank block label
    let (result, index) := x.index.insert key n
    let x := { x with index }
    match result with
    | .grown => (.spot none, [], x)
    | .displaced old => (x.show? (some old), [], x)
    | .evicted key old => let (d, x) := x.drop key old; (.spot none, [d], x)
  | .get key => let (n, index) := x.index.get key; let x := { x with index }; (x.show? n, [], x)
  | .peek key => (x.show? (x.index.peek key), [], x)
  | .contains key => (.flag (some (x.index.contains key)), [], x)
  | .remove key =>
    match x.index.remove key with
    | (none, _) => (.flag (some false), [], x)
    | (some n, index) =>
      let (d, x) := { x with index }.drop key n
      (.flag (some true), [d], x)
  | .mark label =>
    match x.labels[label]? with
    | none => (.flag none, [], x)
    | some n => let (first, index) := x.index.retire n; (.flag (some first), [], { x with index })
  | .spot label => (x.show? x.labels[label]?, [], x)

end LabelledIndex

end Blockwise
