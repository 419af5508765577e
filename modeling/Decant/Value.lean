import Decant.Duration
import Decant.Tag
import Decant.Timestamp

/-!
# Values of no fixed type

* `ErrorValue` — an error that a stream carries as data.
* `Value` — a value shaped by the tags observed while decoding it.
* `Value.beq` — equality of values; floats compare as numbers, so a NaN differs from itself.
* `Value.get?` — the first entry of a map under a string key.
* `Value.size` — the number of values in a value, itself included.
-/

namespace Decant

/-- An error that a stream carries as data. -/
structure ErrorValue where
  message : String
  deriving DecidableEq, Repr

instance : Inhabited ErrorValue := ⟨⟨""⟩⟩

/-- A value of no fixed type. Strings that are not well-formed text are kept as bytes; map entries
keep the order they were decoded in. -/
inductive Value where
  | nil
  | bool (b : Bool)
  | int (n : Int64)
  | uint (n : UInt64)
  | float (x : Float)
  | string (s : String)
  | bytes (b : ByteArray)
  | time (t : Timestamp)
  | duration (d : Duration)
  | error (e : ErrorValue)
  | array (items : List Value)
  | map (entries : List (Value × Value))

namespace Value

instance : Inhabited Value := ⟨nil⟩

/-- The tag that a source announces for a value. -/
def tag : Value → Tag
  | nil => .nil
  | bool _ => .bool
  | int _ => .int
  | uint _ => .uint
  | float _ => .float
  | string _ => .string
  | bytes _ => .bytes
  | time _ => .time
  | duration _ => .duration
  | error _ => .error
  | array _ => .array
  | map _ => .map

/-- Whether a value is nil. -/
def isNil : Value → Bool
  | nil => true
  | _ => false

/-- The text of a string value. -/
def asString? : Value → Option String
  | string s => some s
  | _ => none

/-- The value of the first map entry whose key is the given string. -/
def get? (v : Value) (key : String) : Option Value :=
  match v with
  | map entries => (entries.find? fun entry => entry.1.asString? == some key).map (·.2)
  | _ => none

mutual
/-- Equality of values, with floats compared as numbers. -/
def beq : Value → Value → Bool
  | nil, nil => true
  | bool a, bool b => a == b
  | int a, int b => a == b
  | uint a, uint b => a == b
  | float a, float b => a == b
  | string a, string b => a == b
  | bytes a, bytes b => a == b
  | time a, time b => a == b
  | duration a, duration b => a == b
  | error a, error b => a == b
  | array a, array b => beqItems a b
  | map a, map b => beqEntries a b
  | _, _ => false

/-- Equality of arrays, item by item. -/
def beqItems : List Value → List Value → Bool
  | [], [] => true
  | a :: as, b :: bs => beq a b && beqItems as bs
  | _, _ => false

/-- Equality of maps, entry by entry. -/
def beqEntries : List (Value × Value) → List (Value × Value) → Bool
  | [], [] => true
  | (k, v) :: as, (l, w) :: bs => beq k l && beq v w && beqEntries as bs
  | _, _ => false
end

instance : BEq Value := ⟨beq⟩

mutual
/-- The number of values in a value, itself included. -/
def size : Value → Nat
  | array items => 1 + sizeItems items
  | map entries => 1 + sizeEntries entries
  | _ => 1

/-- The number of values in the items of an array. -/
def sizeItems : List Value → Nat
  | [] => 0
  | v :: vs => v.size + sizeItems vs

/-- The number of values in the entries of a map. -/
def sizeEntries : List (Value × Value) → Nat
  | [] => 0
  | (k, v) :: es => k.size + v.size + sizeEntries es
end

theorem tag_ne_unknown (v : Value) : v.tag ≠ .unknown := by
  cases v <;> simp [tag]

end Value

/-! ## Values of basic types -/

/-- Types whose values have one natural form as a `Value`. -/
class ToValue (α : Type) where
  toValue : α → Value

export ToValue (toValue)

instance : ToValue Bool := ⟨.bool⟩
instance : ToValue Int64 := ⟨.int⟩
instance : ToValue Int32 := ⟨fun n => .int n.toInt64⟩
instance : ToValue UInt64 := ⟨.uint⟩
instance : ToValue UInt32 := ⟨fun n => .uint n.toUInt64⟩
instance : ToValue Float := ⟨.float⟩
instance : ToValue String := ⟨.string⟩
instance : ToValue ByteArray := ⟨.bytes⟩
instance : ToValue Timestamp := ⟨.time⟩
instance : ToValue Duration := ⟨.duration⟩
instance : ToValue ErrorValue := ⟨.error⟩
instance : ToValue (List Value) := ⟨.array⟩

end Decant
