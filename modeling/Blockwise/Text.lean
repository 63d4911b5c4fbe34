namespace Blockwise

namespace Text

def isDigit (c : Char) : Bool := decide ('0' ≤ c) && decide (c ≤ '9')

-- Makes names comparable between runs: digits at the end, after a colon, are written as a hash
-- sign.
def maskStamp (s : String) : String :=
  let back := s.toList.reverse
  match back.takeWhile isDigit, back.dropWhile isDigit with
  | _ :: _, ':' :: rest => String.ofList (('#' :: ':' :: rest).reverse)
  | _, _ => s

end Text

end Blockwise
