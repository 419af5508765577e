import Decant.Decoder
import Decant.Timestamp.Rfc3339
import Decant.Ty.Written

/-!
# A catalog of destination types

* `Catalog.definitions` — records, nested and recursive ones among them, and types that decode by
  hand, from text and from errors.
* `Catalog.schema` — the catalog together with the wrapper records that some types mention.
-/

namespace Decant

namespace Catalog

/-! ## Records -/

/-- A member with the encoded name it is registered under; a skipped one has none. -/
structure Entry where
  member : Member
  key : Option String

/-- A member that is registered under its own name. -/
def plain (name : String) (ty : Ty) : Entry := ⟨⟨name, ty⟩, some name⟩

/-- A member that is registered under another name. -/
def renamed (name : String) (ty : Ty) (key : String) : Entry := ⟨⟨name, ty⟩, some key⟩

/-- A member that is not registered. -/
def skipped (name : String) (ty : Ty) : Entry := ⟨⟨name, ty⟩, none⟩

/-- The registrations of members from a position on. -/
def registrations : Nat → List Entry → List (String × Target)
  | _, [] => []
  | i, e :: es =>
    match e.key with
    | some key => (key, .member i) :: registrations (i + 1) es
    | none => registrations (i + 1) es

/-- A record whose members are registered in the order written. -/
def record (entries : List Entry) : Definition :=
  .record (entries.map (·.member)) (registrations 0 entries)

/-- The definition of a record that wraps a type. -/
def wrapper (inner : Ty) : Definition := record [plain "inner" inner]

/-! ## Types that decode by hand -/

/-- Keep a content decoded afresh in the scratch list. -/
def collect (t : Ty) (initial : Content) : Routine Work .decoder :=
  .read t initial fun c w => { w with scratch := .list (w.scratch.items ++ [c]) }

/-- Two integers from an array of exactly two; nil gives zeros. -/
def range : Definition :=
  .custom (.list [.int 0, .int 0]) [.i64] <| .block [
    .update fun w => { w with scratch := .list [] },
    .array (fun _ => collect .i64 (.int 0)) fun tag _ w =>
      if tag = .nil then { w with scratch := .absent } else { w with scratch := .present w.scratch },
    .choose fun w =>
      match w.scratch with
      | .present (.list [a, b]) => .update fun w => { w with dest := .list [a, b] }
      | .present (.list items) => .fail (.lengthMismatch 2 items.length)
      | _ => .update fun w => { w with dest := .list [.int 0, .int 0] }]

/-- Text keys with integers, added to those that are already there. -/
def pairs : Definition :=
  .custom (.list []) [.text, .i64] <|
    .map (fun _ => .block [
      .update fun w => { w with scratch := .list [] },
      .key (collect .text (.text "")),
      .value (collect .i64 (.int 0)),
      .update fun w => { w with dest := .list (w.dest.items ++ [w.scratch]) }]) fun _ _ w => w

/-- Decode a type in place. -/
def inPlace (t : Ty) : Routine Work .decoder :=
  .decode t (·.dest) fun c _ w => { w with dest := c }

/-- A value of no fixed type, as it is. -/
def echo : Definition := .custom (.dynamic .nil) [.dynamic] (inPlace .dynamic)

/-- An integer that signals the end if it is negative. -/
def ender : Definition :=
  .custom (.int 0) [.i64] <| .block [
    inPlace .i64,
    .choose fun w =>
      match w.dest with
      | .int n => if n < 0 then .fail .ended else .skip
      | _ => .skip]

/-! ## Types that decode from text and from errors -/

/-- Whether a byte is a lowercase ASCII letter. -/
def isLower (b : UInt8) : Bool := 0x61 ≤ b && b ≤ 0x7A

/-- A text of lowercase ASCII letters. -/
def code : Definition :=
  .text (.text "") fun c bytes =>
    match Utf8.read? bytes with
    | some s => if bytes.toList.all isLower then (.text s, none) else (c, refusal bytes)
    | none => (c, refusal bytes)
where
  refusal (bytes : ByteArray) : Option Error :=
    some (.text s!"invalid code of {bytes.size} bytes")

/-- One of three colors. -/
def color : Definition :=
  .text (.text "Red") fun c bytes =>
    match Utf8.read? bytes with
    | some "red" => (.text "Red", none)
    | some "green" => (.text "Green", none)
    | some "blue" => (.text "Blue", none)
    | _ => (c, some (.text "no such color"))

/-- All texts so far, and their number. A single exclamation mark is taken in and then refused. -/
def accumulator : Definition :=
  .text (.list [.int 0, .blob ByteArray.empty]) fun c bytes =>
    let grown : Content :=
      match c with
      | .list [.int calls, .blob seen] => .list [.int (calls + 1), .blob (seen ++ bytes)]
      | c => c
    (grown, if bytes.toList = [0x21] then some (.text "stop") else none)

/-- An error with a note on where it came from. -/
def remoteError : Definition := .error (.text "") fun e => .text ("remote: " ++ e.message)

/-! ## The catalog -/

/-- The definitions of the catalog. -/
def definitions : List (String × Definition) := [
  ("Point", record [plain "x" (.int .i32), plain "y" (.int .i32)]),
  ("Node", record [plain "label" .text, plain "children" (.list (.named "Node"))]),
  ("Empty", record []),
  ("Shape", record [renamed "name" .text "kind", plain "origin" (.option (.named "Point")),
    plain "tags" (.list .text), skipped "cached" (.int .u64)]),
  ("Tree", record [plain "name" .text, plain "weight" (.option (.scalar .double)),
    plain "children" (.list (.named "Tree")), plain "meta" (.map .sorted .text .dynamic)]),
  ("Keyword", record [plain "type" .text, plain "fn" (.option .i64),
    renamed "blank" .i64 "", renamed "uni" .i64 "é😀"]),
  ("Swapped", record [renamed "a" .i64 "b", renamed "b" .i64 "a"]),
  ("Linked", record [plain "value" .i64, plain "next" (.option (.box (.named "Linked")))]),
  ("Ping", record [plain "n" .u8, plain "pong" (.option (.box (.named "Pong")))]),
  ("Pong", record [plain "s" .text, plain "pings" (.list (.named "Ping"))]),
  ("Everything", record [plain "flag" .bool, plain "small" (.int .i8), plain "big" (.int .u64),
    plain "ratio" (.scalar .single), plain "text" .text, plain "blob" (.scalar .blob),
    plain "raw" (.list .u8), plain "at" (.scalar .time), plain "took" (.scalar .duration),
    plain "failure" .errorValue, plain "any" .dynamic, plain "pair" (.array (.int .i32) 2),
    plain "props" (.map .hashed .text .text)]),
  ("Query", record [plain "range" (.named "Range"), plain "code" (.named "Code"),
    plain "remote" (.named "RemoteError")]),
  ("Config", record [plain "limits" (.map .sorted .text (.named "Point")),
    renamed "shape" (.option (.named "Shape")) "default-shape", plain "acc" (.named "Acc"),
    plain "unsupported" (Ty.marker .u8)]),
  ("Range", range),
  ("Pairs", pairs),
  ("Echo", echo),
  ("Ender", ender),
  ("Code", code),
  ("Color", color),
  ("Acc", accumulator),
  ("RemoteError", remoteError)]

/-- The type that a wrapper's name wraps. -/
def wrapped? (name : String) : Option Ty :=
  match name.toList.dropLast with
  | 'W' :: 'r' :: 'a' :: 'p' :: 'p' :: 'e' :: 'r' :: '<' :: inner =>
    Ty.ofName? (String.ofList inner)
  | _ => none

/-- The wrappers that names stand for, and those inside them; the first argument bounds how deep
wrappers nest. -/
def wrappers : Nat → List String → List (String × Definition)
  | 0, _ => []
  | n + 1, names =>
    names.flatMap fun name =>
      match wrapped? name with
      | some t => (name, wrapper t) :: wrappers n t.names
      | none => []

/-- The catalog together with the wrappers that some types mention. -/
def schema (types : List Ty) : Schema :=
  let names := types.flatMap Ty.names
  ⟨definitions ++ wrappers (total String.length names + 1) names⟩

end Catalog

end Decant
