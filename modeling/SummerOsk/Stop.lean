/-!
# Calls that do not return
-/

namespace SummerOsk

/-- Why a call does not return. -/
inductive Stop where
  | panic (msg : String)
  /-- It sleeps for a lock that is held. -/
  | sleep
  deriving DecidableEq, Repr

end SummerOsk
