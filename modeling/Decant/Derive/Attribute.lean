import Decant.Derive.Lexeme

/-!
# Decoding attributes

* `Derive.Fault` — why decoding cannot be derived, one constructor per cause.
* `Derive.Capability.ofAttributes` — the decoding capability that an item selects.
* `Derive.Options.ofAttributes` — the decoding options of a field.

Only attributes whose path is exactly `decode` count. The arguments stand in brackets of any kind.
-/

namespace Decant

namespace Derive

/-- Why decoding cannot be derived. -/
inductive Fault where
  /-- The attribute has no arguments. -/
  | noArguments
  /-- The attribute has a value instead of arguments. -/
  | valueForArguments
  /-- An identifier is missing, possibly because the arguments end. -/
  | noIdentifier (atEnd : Bool)
  /-- A word that is reserved stands for an identifier. -/
  | reservedWord (word : String)
  | noEquals
  /-- A string literal is missing, possibly because the arguments end. -/
  | noText (atEnd : Bool)
  | noComma
  | unknownCapability
  | furtherCapability
  | secondCapability
  | unknownOption
  | renamedTwice
  | renamedButSkipped
  | keysNotUnique
  | notRecordLike
  | fieldsNotNamed
  deriving DecidableEq, Repr

namespace Fault

/-- How messages begin where the arguments end too early. -/
def atEndText (atEnd : Bool) : String := if atEnd then "unexpected end of input, " else ""

/-- The wording of a fault. -/
def message : Fault → String
  | noArguments => "expected attribute arguments in parentheses: `decode(...)`"
  | valueForArguments => "expected `(`"
  | noIdentifier atEnd => atEndText atEnd ++ "expected identifier"
  | reservedWord w => "expected identifier, found keyword `" ++ w ++ "`"
  | noEquals => "expected `=`"
  | noText atEnd => atEndText atEnd ++ "expected string literal"
  | noComma => "expected `,`"
  | unknownCapability => "Decoding capability must be `custom`, `text`, or `error`."
  | furtherCapability => "Expected a single decoding capability."
  | secondCapability => "At most one decoding capability may be selected."
  | unknownOption => "Field option must be `rename = \"...\"` or `skip`."
  | renamedTwice => "Field may only be renamed once."
  | renamedButSkipped => "Skipped field cannot be renamed."
  | keysNotUnique => "Field names must be unique."
  | notRecordLike =>
    "`Decode` may only be derived on structs, unless a capability such as `#[decode(custom)]` " ++
      "is selected."
  | fieldsNotNamed =>
    "`Decode` may only be derived on structs with named fields, unless a capability such as " ++
      "`#[decode(custom)]` is selected."

end Fault

/-- Read an identifier. -/
def identifier : List Lexeme → Except Fault (String × List Lexeme)
  | .word w :: rest => if w ∈ Lexeme.reserved then .error (.reservedWord w) else .ok (w, rest)
  | [] => .error (.noIdentifier true)
  | _ => .error (.noIdentifier false)

/-- The arguments of an attribute, or nothing if it is no decoding attribute. -/
def arguments? : List Lexeme → Option (Except Fault (List Lexeme))
  | [.word "decode"] => some (.error .noArguments)
  | .word "decode" :: .opening _ :: rest => some (.ok rest.dropLast)
  | .word "decode" :: .punct '=' :: _ => some (.error .valueForArguments)
  | _ => none

/-- A decoding rule that an item selects for itself. -/
inductive Capability where
  | custom
  | text
  | error
  deriving DecidableEq, Repr

namespace Capability

/-- The capability that the arguments of an attribute name. -/
def ofArguments (ls : List Lexeme) : Except Fault Capability := do
  let (w, rest) ← identifier ls
  let capability ←
    match w with
    | "custom" => pure custom
    | "text" => pure text
    | "error" => pure error
    | _ => throw .unknownCapability
  if rest.isEmpty then return capability else throw .furtherCapability

/-- The capability that attributes select, after those before them selected one or none. -/
def select : Option Capability → List (List Lexeme) → Except Fault (Option Capability)
  | selected, [] => .ok selected
  | selected, a :: attributes =>
    match arguments? a with
    | none => select selected attributes
    | some ls => do
      let capability ← ofArguments (← ls)
      if selected.isSome then throw .secondCapability
      select (some capability) attributes

/-- The capability that the attributes of an item select. -/
def ofAttributes (attributes : List (List Lexeme)) : Except Fault (Option Capability) :=
  select none attributes

end Capability

/-- The decoding options of a field. -/
structure Options where
  rename : Option String
  skip : Bool
  deriving DecidableEq, Repr

namespace Options

/-- No options. -/
def none : Options := ⟨.none, false⟩

mutual
/-- Read options separated by commas; a comma may follow the last one. -/
def read (o : Options) : List Lexeme → Except Fault Options
  | [] => .ok o
  | .word w :: rest =>
    if w ∈ Lexeme.reserved then .error (.reservedWord w)
    else if w = "skip" then readMore { o with skip := true } rest
    else if w = "rename" then
      match rest with
      | .punct '=' :: .text key _ :: rest =>
        if o.rename.isSome then .error .renamedTwice
        else readMore { o with rename := some key } rest
      | [.punct '='] => .error (.noText true)
      | .punct '=' :: _ => .error (.noText false)
      | _ => .error .noEquals
    else .error .unknownOption
  | _ => .error (.noIdentifier false)

/-- Read the options behind one option. -/
def readMore (o : Options) : List Lexeme → Except Fault Options
  | [] => .ok o
  | .punct ',' :: rest => read o rest
  | _ => .error .noComma
end

/-- Add the options of a further attribute. -/
def merge (o p : Options) : Except Fault Options :=
  if o.rename.isSome && p.rename.isSome then .error .renamedTwice
  else .ok ⟨p.rename.or o.rename, o.skip || p.skip⟩

/-- The options of attributes, after those before them. -/
def gather : Options → List (List Lexeme) → Except Fault Options
  | o, [] => .ok o
  | o, a :: attributes =>
    match arguments? a with
    | .none => gather o attributes
    | some ls => do
      let p ← read none (← ls)
      gather (← o.merge p) attributes

/-- The decoding options of a field. -/
def ofAttributes (attributes : List (List Lexeme)) : Except Fault Options := gather none attributes

end Options

end Derive

end Decant
