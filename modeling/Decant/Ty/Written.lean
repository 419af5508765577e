import Decant.Ty

/-!
# The names of destination types

* `Ty.name` — the written form of a type, without spaces.
* `Ty.path` — the longer form that messages about unsupported types use.
* `Ty.ofName?` — the type that a name stands for.
-/

namespace Decant

/-- The written form of a scalar type. -/
def Scalar.name : Scalar → String
  | bool => "bool"
  | int k => k.name
  | single => "f32"
  | double => "f64"
  | text => "String"
  | blob => "Bytes"
  | time => "DateTime<Utc>"
  | duration => "TimeDelta"

namespace Ty

/-- The written form of a type, without spaces. -/
def name : Ty → String
  | scalar s => s.name
  | errorValue => "ErrorValue"
  | dynamic => "Value"
  | unsupported n _ => n
  | list t => "Vec<" ++ t.name ++ ">"
  | array t n => "[" ++ t.name ++ ";" ++ toString n ++ "]"
  | map .hashed k v => "HashMap<" ++ k.name ++ "," ++ v.name ++ ">"
  | map .sorted k v => "BTreeMap<" ++ k.name ++ "," ++ v.name ++ ">"
  | option t => "Option<" ++ t.name ++ ">"
  | box t => "Box<" ++ t.name ++ ">"
  | named n => n

/-- The longer form of a type that messages use, for the types that a marker may carry. -/
def path : Ty → String
  | scalar .text => "alloc::string::String"
  | unsupported _ p => p
  | t => t.name

/-- The marker type that carries another type and nothing else. -/
def marker (t : Ty) : Ty :=
  .unsupported ("PhantomData<" ++ t.name ++ ">") ("core::marker::PhantomData<" ++ t.path ++ ">")

/-- The type that a word without arguments stands for. -/
def ofWord (word : String) : Ty :=
  match IntKind.all.find? fun k => k.name == word with
  | some k => .int k
  | none =>
    match word with
    | "bool" => .bool
    | "f32" => .scalar .single
    | "f64" => .scalar .double
    | "String" => .text
    | "Bytes" => .scalar .blob
    | "TimeDelta" => .scalar .duration
    | "ErrorValue" => .errorValue
    | "Value" => .dynamic
    | _ => .named word

/-- The type that a word with one argument stands for. -/
def ofApplied (word : String) (t : Ty) : Ty :=
  match word with
  | "Vec" => .list t
  | "Option" => .option t
  | "Box" => .box t
  | "DateTime" => .scalar .time
  | "PhantomData" => marker t
  | _ => .named (word ++ "<" ++ t.name ++ ">")

/-- The type that a word with two arguments stands for. -/
def ofPair? (word : String) (k v : Ty) : Option Ty :=
  match word with
  | "HashMap" => some (.map .hashed k v)
  | "BTreeMap" => some (.map .sorted k v)
  | _ => none

/-- Whether a character belongs to a word. -/
def inWord (c : Char) : Bool := c.isAlphanum || c == '_'

/-- Read a type from the front of a text; the first argument bounds how deep types nest. -/
def read? : Nat → List Char → Option (Ty × List Char)
  | 0, _ => none
  | fuel + 1, '[' :: cs =>
    match read? fuel cs with
    | some (t, ';' :: rest) =>
      match (String.ofList (rest.takeWhile Char.isDigit)).toNat?, rest.dropWhile Char.isDigit with
      | some n, ']' :: rest => some (.array t n, rest)
      | _, _ => none
    | _ => none
  | fuel + 1, cs =>
    let word := String.ofList (cs.takeWhile inWord)
    match cs.dropWhile inWord with
    | '<' :: rest =>
      match read? fuel rest with
      | some (t, '>' :: rest) => some (ofApplied word t, rest)
      | some (t, ',' :: rest) =>
        match read? fuel rest with
        | some (u, '>' :: rest) => (ofPair? word t u).map (·, rest)
        | _ => none
      | _ => none
    | rest => if word.isEmpty then none else some (ofWord word, rest)

/-- The type that a name stands for. -/
def ofName? (s : String) : Option Ty :=
  match read? (s.length + 1) s.toList with
  | some (t, []) => some t
  | _ => none

end Ty

end Decant
