import Blockwise.Bytes
import Blockwise.Word

namespace Blockwise

namespace Word

variable {a b size offset len : Nat} {breach : Breach}

theorem sum_of_lt (h : a + b < limit) : sum a b = .ok (a + b) := if_pos h

theorem product_of_lt (h : a * b < limit) : product a b = .ok (a * b) := if_pos h

-- What a range is refused for that ends too late. An end that is no word comes first.
def overrun (offset len : Nat) (breach : Breach) : Breach :=
  if offset + len < limit then breach else .additionOverflow

theorem within_of_le (hsize : size < limit) (h : offset + len ≤ size) :
    within size offset len breach = .ok () := by
  simp [within, sum_of_lt (Nat.lt_of_le_of_lt h hsize), Nat.not_lt.mpr h, bind, Except.bind, pure,
    Except.pure]

theorem within_of_lt (h : size < offset + len) :
    within size offset len breach = .error (overrun offset len breach) := by
  unfold within overrun sum
  by_cases hword : offset + len < limit
  · simp [hword, h, bind, Except.bind, throw, throwThe, MonadExceptOf.throw]
  · simp [hword, bind, Except.bind]

theorem lt_limit_of_lt_sizeLimit (h : a < Bytes.sizeLimit) : a < limit := by
  unfold Bytes.sizeLimit at h
  unfold limit
  omega

end Word

end Blockwise
