import Decant.Decoding.Perform

/-!
# Decoding values of no fixed type

* `Decoding.dynamic` — decode a value shaped by the tags observed.
* `Decoding.dynamicEntries` — the entries of a map, or those that a routine makes of them.
* `Decoding.discard` — decode a value of no fixed type and drop it.
-/

namespace Decant

namespace Decoding

variable {δ : Type}

/-- Decode a value of no fixed type by the strategy for such values. -/
def value (f : Strategy) : Decoding δ Value := do
  let (_, c) ← fresh (.dynamic .nil) f
  return c.toDynamic

/-- Decode a value of no fixed type and drop it. -/
def discard (f : Strategy) : Decoding δ Unit := do
  let _ ← value f

/-- The items of an array of no fixed type. -/
def dynamicItems (resolve : Ty → Decoding Content Strategy) (rounds : Nat) :
    Decoding Content (List Value) := do
  let f ← resolve .dynamic
  let (_, items) ← fresh [] <| walk .array rounds .array fun _ => do
    let v ← value f
    modify (· ++ [v])
  return items

/-- One entry of a map of no fixed type. -/
def dynamicEntry (f : Strategy) (i : Nat) : Decoding δ (Value × Value) := do
  let k ← value f
  let _ ← ask (.toValue i)
  let v ← value f
  return (k, v)

/-- The entries of a map of no fixed type, in order, or those that a routine makes of them. -/
def dynamicEntries (entryRoutine : Option EntryRoutine) (resolve : Ty → Decoding Content Strategy)
    (rounds : Nat) : Decoding Content (List (Value × Value)) :=
  match entryRoutine with
  | some routine => do
    let (_, h) ← fresh (⟨Entries.empty, none⟩ : Hand Entries) <|
      walk .map rounds .map fun i => perform (through <| resolve ·) rounds i (routine i)
    return h.state.made
  | none => do
    let f ← resolve .dynamic
    let (_, entries) ← fresh [] <| walk .map rounds .map fun i => do
      let entry ← dynamicEntry f i
      modify (· ++ [entry])
    return entries

/-- The value after a tag. Strings that are not well-formed text are kept as bytes. -/
def readDynamic (entryRoutine : Option EntryRoutine) (resolve : Ty → Decoding Content Strategy)
    (rounds : Nat) : Tag → Decoding Content Value
  | .nil => do
    let _ ← ask .nil
    return .nil
  | .bool => do return .bool (← ask .bool)
  | .int => do return .int (← ask .int)
  | .uint => do return .uint (← ask .uint)
  | .float => do return .float (← ask .float)
  | .string => do
    let b : ByteArray ← ask .string
    match Utf8.read? b with
    | some s => return .string s
    | none => return .bytes b
  | .bytes => do return .bytes (← ask .bytes)
  | .time => do return .time (← ask .time)
  | .duration => do return .duration (← ask .duration)
  | .error => do return .error (← ask .error)
  | .array => do return .array (← dynamicItems resolve rounds)
  | .map => do return .map (← dynamicEntries entryRoutine resolve rounds)
  | .unknown => fail (.unsupportedTag .unknown)

/-- Decode a value shaped by the tags observed. -/
def dynamic (entryRoutine : Option EntryRoutine) (resolve : Ty → Decoding Content Strategy)
    (rounds : Nat) : Strategy := do
  let tag : Tag ← ask .type
  let v ← readDynamic entryRoutine resolve rounds tag
  set (Content.dynamic v)
  return tag

end Decoding

end Decant
