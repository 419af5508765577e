import Decant.Tag
import Decant.Text.Quoted
import Decant.Text.Utf8
import Decant.Timestamp

/-!
# Errors of decoding

* `Error` — why decoding stopped, one constructor per cause.
* `Error.message` — the wording of an error.
* `Error.truncated` — an end signal that leaves a value reads as a truncated stream.
-/

namespace Decant

/-- Why decoding stopped. -/
inductive Error where
  /-- The end of a container or a stream was reached. -/
  | ended
  /-- The observed value cannot be stored in the destination. -/
  | typeConversion (found expected : Tag)
  /-- A number does not fit in the destination, which is named. -/
  | outOfRange (value : Int) (target : String)
  /-- A destination of fixed length received another number of elements. -/
  | lengthMismatch (expected found : Nat)
  /-- The source ran out of tokens in the middle of a value. -/
  | truncated
  /-- The destination type has no decode strategy. -/
  | unsupported (typeName : String)
  /-- The source announced a tag that cannot be handled here. -/
  | unsupportedTag (tag : Tag)
  /-- A string value was not well-formed text. -/
  | utf8 (fault : Utf8.Fault)
  /-- A text was not a timestamp. -/
  | timestamp (fault : Timestamp.Fault)
  /-- A text was not a span of time. -/
  | duration (input : String)
  /-- A type that decodes itself from text refused it. -/
  | text (message : String)
  /-- The source itself failed. -/
  | parser (message : String)
  deriving DecidableEq, Repr

namespace Error

/-- The wording of an error. -/
def message : Error → String
  | ended => "Reached the end of the stream."
  | typeConversion found expected =>
    s!"Cannot convert a value of type {found} to {expected}."
  | outOfRange value target => s!"Value {value} is out of range for {target}."
  | lengthMismatch expected found =>
    s!"Array length mismatch, expected {expected} but {found} elements were decoded."
  | truncated => "Unexpectedly reached the end of the token stream."
  | unsupported typeName => s!"The decoder doesn't support values of type {typeName}."
  | unsupportedTag tag => s!"The parser returned an unsupported value type ({tag})."
  | utf8 fault => s!"Invalid UTF-8 in string value: {fault.message}."
  | timestamp fault => s!"Invalid timestamp: {fault.message}."
  | duration input => "Invalid duration " ++ Quoted.text input ++ "."
  | text message => message
  | parser message => message

/-- Whether an error is the end signal of a container or a stream. -/
def isEnd : Error → Bool
  | ended => true
  | _ => false

/-- An end signal that leaves a value reads as a truncated stream; other errors stay. -/
def truncate : Error → Error
  | ended => truncated
  | e => e

theorem truncate_ne_ended (e : Error) : e.truncate ≠ ended := by
  cases e <;> simp [truncate]

theorem truncate_truncate (e : Error) : e.truncate.truncate = e.truncate := by
  cases e <;> rfl

theorem truncate_of_ne {e : Error} (h : e ≠ ended) : e.truncate = e := by
  cases e with
  | ended => exact absurd rfl h
  | _ => rfl

theorem isEnd_iff (e : Error) : e.isEnd = true ↔ e = ended := by
  cases e <;> simp [isEnd]

end Error

end Decant
