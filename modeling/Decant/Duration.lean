/-!
# Spans of time

* `Duration` — a span of time in nanoseconds.
-/

namespace Decant

/-- A span of time, possibly negative. -/
structure Duration where
  nanos : Int
  deriving DecidableEq, Repr

namespace Duration

/-- The empty span. -/
def zero : Duration := ⟨0⟩

instance : Inhabited Duration := ⟨zero⟩

end Duration

end Decant
