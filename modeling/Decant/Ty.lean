/-!
# Destination types

* `Ty` — the type of a destination, which picks how it is decoded. Records and types with decoding
  rules of their own are referred to by name.
* `IntKind.low`, `IntKind.high` — the range of an integer type.
* `Ty.size` — the number of types in a type, itself included.
-/

namespace Decant

/-- The integer types. Machine words have 64 bits. -/
inductive IntKind where
  | i8
  | i16
  | i32
  | i64
  | isize
  | u8
  | u16
  | u32
  | u64
  | usize
  deriving DecidableEq, Repr

namespace IntKind

/-- The name of an integer type. -/
def name : IntKind → String
  | i8 => "i8"
  | i16 => "i16"
  | i32 => "i32"
  | i64 => "i64"
  | isize => "isize"
  | u8 => "u8"
  | u16 => "u16"
  | u32 => "u32"
  | u64 => "u64"
  | usize => "usize"

/-- Every integer type. -/
def all : List IntKind := [i8, i16, i32, i64, isize, u8, u16, u32, u64, usize]

/-- Whether a type holds negative numbers. -/
def isSigned : IntKind → Bool
  | i8 | i16 | i32 | i64 | isize => true
  | u8 | u16 | u32 | u64 | usize => false

/-- The number of bits of a type. -/
def bits : IntKind → Nat
  | i8 | u8 => 8
  | i16 | u16 => 16
  | i32 | u32 => 32
  | i64 | isize | u64 | usize => 64

/-- The least number of a type. -/
def low (k : IntKind) : Int := if k.isSigned then -(1 <<< (k.bits - 1)) else 0

/-- The greatest number of a type. -/
def high (k : IntKind) : Int :=
  if k.isSigned then (1 <<< (k.bits - 1)) - 1 else (1 <<< k.bits) - 1

/-- Whether a number belongs to a type. -/
def holds (k : IntKind) (n : Int) : Bool := k.low ≤ n && n ≤ k.high

theorem holds_iff {k : IntKind} {n : Int} : k.holds n = true ↔ k.low ≤ n ∧ n ≤ k.high := by
  simp [holds]

theorem holds_zero (k : IntKind) : k.holds 0 = true := by cases k <;> decide

end IntKind

/-- Types whose values are taken from a single leaf token. -/
inductive Scalar where
  | bool
  | int (kind : IntKind)
  /-- Floats of 32 bits. -/
  | single
  /-- Floats of 64 bits. -/
  | double
  | text
  | blob
  | time
  | duration
  deriving DecidableEq, Repr

/-- How a map type finds its keys. -/
inductive MapKind where
  | hashed
  | sorted
  deriving DecidableEq, Repr

/-- The sum of the sizes of some things. -/
def total {α : Type} (size : α → Nat) : List α → Nat
  | [] => 0
  | x :: xs => size x + total size xs

theorem le_total_of_mem {α : Type} (size : α → Nat) {x : α} : ∀ {xs : List α}, x ∈ xs →
    size x ≤ total size xs
  | y :: xs, h => by
    unfold total
    rcases List.mem_cons.1 h with rfl | h
    · omega
    · have : size x ≤ total size xs := le_total_of_mem size h
      omega

/-- The type of a destination. -/
inductive Ty where
  | scalar (s : Scalar)
  /-- An error carried as data. -/
  | errorValue
  /-- A value of no fixed type. -/
  | dynamic
  /-- A type that cannot be decoded, with its name and the longer name that messages use. -/
  | unsupported (name path : String)
  | list (item : Ty)
  | array (item : Ty) (length : Nat)
  | map (kind : MapKind) (key value : Ty)
  | option (inner : Ty)
  /-- An owned indirection, shown and decoded as what it holds. -/
  | box (inner : Ty)
  /-- A type defined elsewhere. -/
  | named (name : String)
  deriving DecidableEq, Repr

namespace Ty

abbrev bool : Ty := .scalar .bool
abbrev int (k : IntKind) : Ty := .scalar (.int k)
abbrev i64 : Ty := .int .i64
abbrev u8 : Ty := .int .u8
abbrev text : Ty := .scalar .text

instance : Inhabited Ty := ⟨dynamic⟩

/-- The number of types in a type, itself included. -/
def size : Ty → Nat
  | scalar _ | errorValue | dynamic | unsupported _ _ | named _ => 1
  | list t | array t _ | option t | box t => t.size + 1
  | map _ k v => k.size + v.size + 1

/-- The defined types that occur in a type. -/
def names : Ty → List String
  | scalar _ | errorValue | dynamic | unsupported _ _ => []
  | named n => [n]
  | list t | array t _ | option t | box t => t.names
  | map _ k v => k.names ++ v.names

end Ty

end Decant
