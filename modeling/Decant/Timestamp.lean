/-!
# Points in time

* `Timestamp` — seconds since the start of 1970 and the nanoseconds after them.
* `Timestamp.compare` — the order of points in time.
* `TimeFormat` — a way to write points in time as text.
-/

namespace Decant

/-- A point in time. The seconds round towards minus infinity. Nanoseconds of one billion and more
belong to a leap second that follows the given one. -/
structure Timestamp where
  /-- Whole seconds since the start of 1970. -/
  seconds : Int
  nanos : Nat
  deriving DecidableEq, Repr

namespace Timestamp

/-- The start of 1970, which stands for "no time". -/
def epoch : Timestamp := ⟨0, 0⟩

instance : Inhabited Timestamp := ⟨epoch⟩

/-- Earlier points in time come first. -/
def compare (s t : Timestamp) : Ordering :=
  (Ord.compare s.seconds t.seconds).then (Ord.compare s.nanos t.nanos)

/-- What keeps a text from denoting a point in time. -/
inductive Fault where
  | invalid
  | tooShort
  | tooLong
  | outOfRange
  deriving DecidableEq, Repr

/-- The wording of a fault. -/
def Fault.message : Fault → String
  | .invalid => "input contains invalid characters"
  | .tooShort => "premature end of input"
  | .tooLong => "trailing input"
  | .outOfRange => "input is out of range"

end Timestamp

/-- A way to write points in time as text: which one a text denotes, or what keeps it from one.
Decoding works with any. -/
class TimeFormat where
  parse : String → Except Timestamp.Fault Timestamp

end Decant
