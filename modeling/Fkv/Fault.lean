import Mathlib.Init

namespace Fkv

/-- How a call can leave what the source defines: a failed assert, an element
of `heads[]` outside the array, or a loop that outlives its budget. -/
inductive Fault
  | assertFailed
  | headsOutOfRange
  | outOfFuel
  deriving DecidableEq, Repr

end Fkv
