/-!
# Type tags

* `Tag` — the kind of the next value, announced by a source before any value is extracted.
* `Tag.name` — the lowercase name shown in messages; names are distinct (`Tag.name_injective`).
* `Tag.isLeaf` — whether values of a tag hold no other values.
-/

namespace Decant

/-- The kind of a value. `unknown` stands for "no value has been observed yet". -/
inductive Tag where
  | unknown
  | nil
  | bool
  | int
  | uint
  | float
  | string
  | bytes
  | time
  | duration
  | error
  | array
  | map
  deriving DecidableEq, Repr

namespace Tag

/-- Before anything is observed the tag is unknown. -/
instance : Inhabited Tag := ⟨unknown⟩

/-- Every tag, in order of declaration. -/
def all : List Tag :=
  [unknown, nil, bool, int, uint, float, string, bytes, time, duration, error, array, map]

/-- The lowercase name of a tag. -/
def name : Tag → String
  | unknown => "<unknown>"
  | nil => "nil"
  | bool => "bool"
  | int => "int"
  | uint => "uint"
  | float => "float"
  | string => "string"
  | bytes => "bytes"
  | time => "time"
  | duration => "duration"
  | error => "error"
  | array => "array"
  | map => "map"

instance : ToString Tag := ⟨name⟩

/-- Values of a leaf tag contain no nested values; nil is not counted as a leaf. -/
def isLeaf : Tag → Bool
  | nil | array | map | unknown => false
  | _ => true

theorem name_injective {s t : Tag} (h : s.name = t.name) : s = t := by
  revert h; cases s <;> cases t <;> decide

end Tag

end Decant
