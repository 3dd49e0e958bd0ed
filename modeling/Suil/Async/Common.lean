import Suil.Lib.Narrow

/-! What several components share: constants, and the timeout of `computeWaitTimeout`. -/
namespace Suil.Async

def INVALID_FD : ℤ := -1

def THREAD_ID_ANY : ℕ := 2 ^ 16 - 1

/-- The timeout for the deadline of the first timer. With times at or above 0 the difference is a
64-bit number. -/
def waitTimeout (first : Option ℤ) (fastnow : ℤ) : ℤ :=
  match first with
  | none => -1
  | some dd =>
    let at_ := dd - fastnow
    if at_ ≤ 0 then 0 else Narrow.int at_

end Suil.Async
