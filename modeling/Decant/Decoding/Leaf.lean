import Decant.Decoding.Walk
import Decant.Duration.Written

/-!
# Decoding leaves

* `Decoding.readScalar` — the content of a scalar type from a token whose tag was observed.
* `Decoding.narrow` — a number as the content of an integer type that holds it.
* `Decoding.scalar` — decode into a scalar: nil restores the initial content, and the destination
  is written only after everything else succeeded.
* `Decoding.bytes`, `Decoding.text`, `Decoding.error` — byte lists, types that decode themselves
  from text, and types that are built from an error carried as data.
-/

namespace Decant

/-- The tag that an integer type expects: an integer for signed types, else an unsigned one. -/
def IntKind.expected (k : IntKind) : Tag := if k.isSigned then .int else .uint

namespace Decoding

variable {δ : Type}

/-- A number as the content of an integer type that holds it. -/
def narrow (k : IntKind) (n : Int) : Decoding δ Content :=
  if k.holds n then pure (.int n) else fail (.outOfRange n k.name)

/-- The content of a scalar type from a token whose tag was observed and is not nil. -/
def readScalar (times : TimeFormat) (s : Scalar) (tag : Tag) : Decoding δ Content :=
  match s with
  | .bool =>
    match tag with
    | .bool => do return .bool (← ask .bool)
    | found => fail (.typeConversion found .bool)
  | .int k =>
    match tag with
    | .int => do
      let n : Int64 ← ask .int
      narrow k n.toInt
    | .uint => do
      let n : UInt64 ← ask .uint
      narrow k n.toNat
    | found => fail (.typeConversion found k.expected)
  | .single =>
    match tag with
    | .int => do
      let n : Int64 ← ask .int
      return .single n.toFloat32
    | .uint => do
      let n : UInt64 ← ask .uint
      return .single n.toFloat32
    | .float => do
      let x : Float ← ask .float
      return .single x.toFloat32
    | found => fail (.typeConversion found .float)
  | .double =>
    match tag with
    | .int => do
      let n : Int64 ← ask .int
      return .double n.toFloat
    | .uint => do
      let n : UInt64 ← ask .uint
      return .double n.toFloat
    | .float => do return .double (← ask .float)
    | found => fail (.typeConversion found .float)
  | .text => do return .text (← readString tag .string)
  | .blob => do return .blob (← readText tag .bytes)
  | .time =>
    match tag with
    | .time => do return .time (← ask .time)
    | tag => do
      match times.parse (← readString tag .time) with
      | .ok t => return .time t
      | .error fault => fail (.timestamp fault)
  | .duration =>
    match tag with
    | .duration => do return .duration (← ask .duration)
    | tag => do
      let s ← readString tag .duration
      match Duration.ofText? s with
      | some d => return .duration d
      | none => fail (.duration s)

/-- Decode into a scalar. Nil restores the initial content. -/
def scalar (times : TimeFormat) (s : Scalar) : Strategy := do
  let tag : Tag ← ask .type
  if tag = .nil then
    let _ ← ask .nil
    set s.initial
  else
    set (← readScalar times s tag)
  return tag

/-- Decode raw bytes. -/
def bytes : Strategy := do
  let tag : Tag ← ask .type
  set (Content.blob (← readText tag .bytes))
  return tag

/-- What a type answers that took some bytes: its content, and why it refused them. -/
def taken (tag : Tag) (outcome : Content × Option Error) : Strategy := do
  set outcome.1
  match outcome.2 with
  | none => return tag
  | some e => fail e

/-- Decode into a type that takes the bytes of a text itself. What it does to its content before it
refuses stays. -/
def text (accept : Content → ByteArray → Content × Option Error) : Strategy := do
  let tag : Tag ← ask .type
  let bytes ← readText tag .string
  taken tag (accept (← get) bytes)

/-- Decode into a type that is built from an error carried as data, or from the text of one. Nil
restores the initial content. -/
def error (initial : Content) (build : ErrorValue → Content) : Strategy := do
  let tag : Tag ← ask .type
  match tag with
  | .nil =>
    let _ ← ask .nil
    set initial
  | .error => set (build (← ask .error))
  | .string | .bytes => set (build ⟨Utf8.lossy (← readText tag .error)⟩)
  | found => fail (.typeConversion found .error)
  return tag

end Decoding

end Decant
