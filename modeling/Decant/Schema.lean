import Decant.Fields
import Decant.Routine

/-!
# Type definitions

* `Definition` — what a named type is: a record, or a type with a decoding rule of its own.
* `Schema` — the definitions that types refer to.
* `Schema.initial` — the content of a destination before anything is decoded, which nil restores.
* `Schema.size` — the number of types in all definitions.
-/

namespace Decant

/-- What is registered under an encoded field name: a member of the record, by position, or nothing
that can be decoded. -/
inductive Target where
  | member (index : Nat)
  | unsupported (path : String)
  deriving DecidableEq, Repr

/-- A member of a record. -/
structure Member where
  name : String
  ty : Ty
  deriving DecidableEq, Repr

/-- What a named type is. -/
inductive Definition where
  /-- A record, with its registrations of encoded names in order. Its initial content is that of its
  members unless it has one of its own. -/
  | record (members : List Member) (registrations : List (String × Target))
      (initial : Option Content := none)
  /-- A type that takes full control of its decoding. The types that its routine decodes into are
  listed. -/
  | custom (initial : Content) (uses : List Ty) (routine : Routine Work .decoder)
  /-- A type that decodes itself from the bytes of a text. -/
  | text (initial : Content) (accept : Content → ByteArray → Content × Option Error)
  /-- A type that is built from an error carried as data. -/
  | error (initial : Content) (build : ErrorValue → Content)

namespace Definition

/-- The types that a definition mentions. -/
def types : Definition → List Ty
  | record members _ _ => members.map (·.ty)
  | custom _ uses _ => uses
  | text _ _ | error _ _ => []

end Definition

/-- The initial content of a scalar. -/
def Scalar.initial : Scalar → Content
  | bool => .bool false
  | int _ => .int 0
  | single => .single 0
  | double => .double 0
  | text => .text ""
  | blob => .blob ByteArray.empty
  | time => .time Timestamp.epoch
  | duration => .duration Duration.zero

/-- Type definitions by name, and how points in time are written as text. -/
structure Schema where
  definitions : List (String × Definition)
  [times : TimeFormat]

namespace Schema

/-- The schema that defines nothing. -/
def empty [TimeFormat] : Schema := ⟨[]⟩

/-- The definition of a name. -/
def find? (s : Schema) (name : String) : Option Definition :=
  (s.definitions.find? fun d => d.1 == name).map (·.2)

/-- The number of types in all definitions. -/
def size (s : Schema) : Nat :=
  total (fun d => total Ty.size d.2.types + 1) s.definitions

/-- The initial content of a type; the first argument bounds how deep records lie directly inside
each other. -/
def initialAt (s : Schema) : Nat → Ty → Content
  | 0, _ => .unit
  | n + 1, t =>
    match t with
    | .scalar k => k.initial
    | .errorValue => .error ⟨""⟩
    | .dynamic => .dynamic .nil
    | .unsupported _ _ => .unit
    | .list t => if t = .u8 then .blob ByteArray.empty else .list []
    | .array t k => .list (List.replicate k (s.initialAt n t))
    | .map _ _ _ => .map []
    | .option _ => .absent
    | .box t => s.initialAt n t
    | .named name =>
      match s.find? name with
      | some (.record _ _ (some c)) => c
      | some (.record members _ none) => .record (members.map fun m => s.initialAt n m.ty)
      | some (.custom c _ _) => c
      | some (.text c _) => c
      | some (.error c _) => c
      | none => .unit

/-- The content of a destination before anything is decoded. -/
def initial (s : Schema) (t : Ty) : Content := s.initialAt (t.size + s.size + 1) t

end Schema

end Decant
