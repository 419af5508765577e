import Decant.Source

/-!
# Scripted sources

* `Token` — one step of a script: a value, a mark inside a container, or a failure.
* `Script` — the tokens still to be replayed, a source of tokens.

Asking for the type leaves a value's token in place; every other call removes the token in front
and succeeds only if it is the one that belongs to the call.
-/

namespace Decant

/-- One step of a script. -/
inductive Token where
  | nil
  | bool (b : Bool)
  | int (n : Int64)
  | uint (n : UInt64)
  | float (x : Float)
  /-- A string value, given by its bytes. -/
  | string (b : ByteArray)
  | bytes (b : ByteArray)
  | time (t : Timestamp)
  | duration (d : Duration)
  | error (e : ErrorValue)
  /-- The start of a container, with its length if it is declared. -/
  | enter (c : Container) (length : Option Nat)
  /-- A further element or entry follows. -/
  | next
  /-- A container holds nothing more, or the stream ends. -/
  | stop
  /-- The move from a key to its value. -/
  | value
  /-- A container is left. -/
  | close
  /-- A failure of the source. -/
  | fail (message : String)
  /-- A value whose tag is unknown. -/
  | unknown
  /-- A tag whose value cannot be handed out: the source fails, or ends if no message is given. -/
  | bad (tag : Tag) (message : Option String)

namespace Token

/-- The tag that a token announces, if it stands for a value. -/
def tag? : Token → Option Tag
  | nil => some .nil
  | bool _ => some .bool
  | int _ => some .int
  | uint _ => some .uint
  | float _ => some .float
  | string _ => some .string
  | bytes _ => some .bytes
  | time _ => some .time
  | duration _ => some .duration
  | error _ => some .error
  | enter c _ => some c.tag
  | unknown => some .unknown
  | bad tag _ => some tag
  | next | stop | value | close | fail _ => none

/-- The name of a token in messages. -/
def name : Token → String
  | nil => "nil"
  | bool _ => "bool"
  | int _ => "int"
  | uint _ => "uint"
  | float _ => "float"
  | string _ => "string"
  | bytes _ => "bytes"
  | time _ => "time"
  | duration _ => "duration"
  | error _ => "error"
  | enter c _ => c.tag.name
  | next => "next"
  | stop => "end"
  | value => "value"
  | close => "close"
  | fail _ => "fail"
  | unknown => "unknown"
  | bad _ _ => "bad"

/-- What a token brings to the call it belongs to. -/
def give? : (c : Call) → Token → Option c.Reply
  | .nil, nil => some ()
  | .bool, bool b => some b
  | .int, int n => some n
  | .uint, uint n => some n
  | .float, float x => some x
  | .string, string b => some b
  | .bytes, bytes b => some b
  | .time, time t => some t
  | .duration, duration d => some d
  | .error, error e => some e
  | .enter .array, enter .array length => some length
  | .enter .map, enter .map length => some length
  | .next _ _, next => some ()
  | .leave _ _, close => some ()
  | .toValue _, value => some ()
  | _, _ => none

/-- How a token fails a call that it does not belong to. -/
def refusal (call : String) : Token → Error
  | stop | bad _ none => .ended
  | fail m | bad _ (some m) => .parser m
  | t => .parser s!"{call} called at {t.name}"

/-- The answer of a token to a call that removes it. -/
def answer (c : Call) (t : Token) : Answer c :=
  match give? c t with
  | some reply => .ok reply
  | none => .error (t.refusal c.name)

end Token

/-- A source that replays tokens. -/
structure Script where
  tokens : List Token

namespace Script

/-- Announce the tag of the token in front, which stays if it stands for a value. -/
def announce (s : Script) : Except Error Tag × Script :=
  match s.tokens with
  | [] => (.error .ended, s)
  | t :: rest =>
    match t.tag? with
    | some tag => (.ok tag, s)
    | none => (.error (t.refusal Call.type.name), ⟨rest⟩)

/-- Remove the token in front and let it answer. -/
def replay (c : Call) (s : Script) : Answer c × Script :=
  match s.tokens with
  | [] => (.error (.parser s!"script exhausted at {c.name}"), s)
  | t :: rest => (t.answer c, ⟨rest⟩)

instance : TokenSource Script where
  answer
    | .type => announce
    | c => replay c
  extent s := s.tokens.length

end Script

end Decant
