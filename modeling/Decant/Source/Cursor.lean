import Decant.Source

/-!
# A value as a source of tokens

* `Cursor` — a position in a value: the value that comes next, the value whose tag was announced,
  and the containers entered and not yet left.

Containers always declare their length, so `next` is asked for between elements only. A call that
takes a value empties the current slot whether it succeeds or not.
-/

namespace Decant

/-- A container that was entered. -/
inductive Frame where
  | array (items : List Value)
  | map (entries : List (Value × Value))

namespace Frame

/-- The kind of a container. -/
def kind : Frame → Container
  | array _ => .array
  | map _ => .map

/-- The number of elements or entries. -/
def length : Frame → Nat
  | array items => items.length
  | map entries => entries.length

/-- The element at a position, or the key of the entry there. -/
def head? : Frame → Nat → Option Value
  | array items, n => items[n]?
  | map entries, n => entries[n]?.map (·.1)

/-- The value of the entry at a position. -/
def value? : Frame → Nat → Option Value
  | array _, _ => none
  | map entries, n => entries[n]?.map (·.2)

/-- The number of values in a container. -/
def size : Frame → Nat
  | array items => Value.sizeItems items
  | map entries => Value.sizeEntries entries

/-- The container that a value is. -/
def ofValue? : Value → Option Frame
  | .array items => some (array items)
  | .map entries => some (map entries)
  | _ => none

end Frame

/-- A position in a value. -/
structure Cursor where
  /-- The value whose tag is announced next. -/
  next : Option Value
  /-- The value whose tag was announced, until it is taken. -/
  current : Option Value
  /-- The containers entered and not yet left, innermost first. -/
  stack : List Frame

namespace Cursor

/-- The position in front of a value. -/
def ofValue (v : Value) : Cursor := ⟨some v, none, []⟩

/-- Announce the tag of the value that comes next. -/
def announce (s : Cursor) : Except Error Tag × Cursor :=
  match s.next with
  | none => (.error .ended, s)
  | some v => (.ok v.tag, { s with next := none, current := some v })

/-- What a value brings to the call that takes it. -/
def give? : (c : Call) → Value → Option c.Reply
  | .nil, .nil => some ()
  | .bool, .bool b => some b
  | .int, .int n => some n
  | .uint, .uint n => some n
  | .float, .float x => some x
  | .string, .string s => some s.toUTF8
  | .bytes, .bytes b => some b
  | .time, .time t => some t
  | .duration, .duration d => some d
  | .error, .error e => some e
  | _, _ => none

/-- The failure of taking a value of another kind than the expected one. -/
def mismatch (found : Option Value) (expected : Tag) : Error :=
  .typeConversion ((found.map Value.tag).getD .unknown) expected

/-- Take the current value. -/
def take (c : Call) (expected : Tag) (s : Cursor) : Answer c × Cursor :=
  let reply : Answer c :=
    match s.current.bind (give? c) with
    | some reply => .ok reply
    | none => .error (mismatch s.current expected)
  (reply, { s with current := none })

/-- Enter the current value. -/
def enter (c : Container) (s : Cursor) : Answer (.enter c) × Cursor :=
  match s.current.bind Frame.ofValue? with
  | some frame =>
    if frame.kind = c then
      (.ok (some frame.length), ⟨frame.head? 0, none, frame :: s.stack⟩)
    else (.error (mismatch s.current c.tag), { s with current := none })
  | none => (.error (mismatch s.current c.tag), { s with current := none })

/-- The innermost container, if it is of the given kind. -/
def innermost (c : Container) (s : Cursor) : Except Error Frame :=
  match s.stack with
  | frame :: _ => if frame.kind = c then .ok frame else .error (.unsupportedTag c.tag)
  | [] => .error (.unsupportedTag c.tag)

/-- Put a value of the innermost container next. -/
def go (c : Container) (pick : Frame → Option Value) (s : Cursor) : Except Error Unit × Cursor :=
  match s.innermost c with
  | .error e => (.error e, s)
  | .ok frame =>
    match pick frame with
    | some v => (.ok (), { s with next := some v })
    | none => (.error .ended, s)

/-- Leave the innermost container. -/
def leave (c : Container) (s : Cursor) : Except Error Unit × Cursor :=
  match s.innermost c with
  | .error e => (.error e, s)
  | .ok _ => (.ok (), { s with stack := s.stack.tail })

/-- The number of values within reach. -/
def extent (s : Cursor) : Nat :=
  (s.next.map Value.size).getD 0 + (s.current.map Value.size).getD 0 +
    s.stack.foldr (fun f n => f.size + n) 0

instance : TokenSource Cursor where
  answer
    | .type => announce
    | .nil => take .nil .nil
    | .bool => take .bool .bool
    | .int => take .int .int
    | .uint => take .uint .uint
    | .float => take .float .float
    | .string => take .string .string
    | .bytes => take .bytes .bytes
    | .time => take .time .time
    | .duration => take .duration .duration
    | .error => take .error .error
    | .enter c => enter c
    | .next c n => go c (·.head? n)
    | .leave c _ => leave c
    | .toValue n => go .map (·.value? n)
  extent := extent

end Cursor

end Decant
