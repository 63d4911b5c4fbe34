namespace Blockwise

-- What both document formats are read into. Floats and dates fit no setting, so only their presence
-- is kept.
inductive Value where
  | null
  | bool (b : Bool)
  | int (n : Int)
  | float
  | datetime
  | string (s : String)
  | array (items : List Value)
  | table (entries : List (String × Value))
  deriving Repr, Inhabited

namespace Value

-- The entry of a table under a key; a later one takes the place of an earlier one.
def get? (key : String) : Value → Option Value
  | table entries => (entries.filter (·.1 = key)).getLast?.map (·.2)
  | _ => none

end Value

end Blockwise
