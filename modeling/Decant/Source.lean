import Decant.Error
import Decant.Value

/-!
# Sources of typed tokens

* `Container` — the two kinds of value that hold other values.
* `Call` — what a decoder may ask of a source, and `Call.Reply`, what each answer brings.
* `TokenSource` — a state that answers calls.
* `Exchange` — a call with the answer it got.

A source announces the tag of the next value and then hands the value out. Inside a container of
known length `next` stands between the elements only; where the length is not known it stands
before every element, and the answer `Error.ended` says that there are no more.
-/

namespace Decant

/-- The kinds of value that hold other values. -/
inductive Container where
  | array
  | map
  deriving DecidableEq, Repr

/-- The tag of a container. -/
def Container.tag : Container → Tag
  | array => .array
  | map => .map

/-- What a decoder may ask of a source. -/
inductive Call where
  /-- Take the type indicator of the next value. -/
  | type
  | nil
  | bool
  | int
  | uint
  | float
  /-- Take a string value as raw bytes. -/
  | string
  | bytes
  | time
  | duration
  | error
  /-- Enter a container. -/
  | enter (c : Container)
  /-- Go on to element or entry `n` of a container. -/
  | next (c : Container) (n : Nat)
  /-- Leave a container after `n` elements or entries. -/
  | leave (c : Container) (n : Nat)
  /-- Move from the key of entry `n` to its value. -/
  | toValue (n : Nat)
  deriving DecidableEq, Repr

namespace Call

/-- What the answer to a call brings. Entering a container brings its length, if it is known. -/
def Reply : Call → Type
  | type => Tag
  | nil => Unit
  | bool => Bool
  | int => Int64
  | uint => UInt64
  | float => Float
  | string => ByteArray
  | bytes => ByteArray
  | time => Timestamp
  | duration => Duration
  | error => ErrorValue
  | enter _ => Option Nat
  | next _ _ => Unit
  | leave _ _ => Unit
  | toValue _ => Unit

/-- The name of a call in messages and records. -/
def name : Call → String
  | type => "type"
  | nil => "nil"
  | bool => "bool"
  | int => "int"
  | uint => "uint"
  | float => "float"
  | string => "string"
  | bytes => "bytes"
  | time => "time"
  | duration => "duration"
  | error => "error"
  | enter c => c.tag.name ++ "_begin"
  | next c n => s!"{c.tag.name}_next({n})"
  | leave c n => s!"{c.tag.name}_end({n})"
  | toValue n => s!"map_value({n})"

/-- Whether a failure of the call only says that a container holds nothing more. -/
def isNext : Call → Bool
  | next _ _ => true
  | _ => false

end Call

/-- The answer to a call: what it brings, or why it failed. -/
abbrev Answer (c : Call) : Type := Except Error c.Reply

/-- A state that answers calls. -/
class TokenSource (σ : Type) where
  /-- Answer a call and move on. -/
  answer : (c : Call) → σ → Answer c × σ
  /-- A bound on how much the source can still hand out. -/
  extent : σ → Nat

/-- A call with the answer it got. -/
structure Exchange where
  call : Call
  answer : Answer call

end Decant
