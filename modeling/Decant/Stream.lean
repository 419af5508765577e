import Decant.Decoder

/-!
# Streams of elements

* `Stream` — a cursor over the elements of a top-level array, which is never held as a whole. A
  top-level value that is no array is a stream of one element.
* `Stream.next` — decode the next element. Once the stream has ended or failed, every later call
  gives the same error and asks the source nothing.
* `Stream.failure?` — the error that ended the stream, unless it ended naturally.
-/

namespace Decant

/-- A cursor over the elements of a top-level array. -/
structure Stream where
  /-- The top-level tag, once observed. -/
  tag : Tag
  /-- The number of elements decoded so far. -/
  count : Nat
  /-- The number of elements, if known. -/
  limit : Option Nat
  /-- The error that every later call gives. -/
  terminal : Option Error
  deriving DecidableEq, Repr

/-- A stream together with the destination of the next element. -/
structure Streaming where
  stream : Stream
  dest : Content

namespace Stream

/-- A stream that was not yet asked for anything. -/
def start : Stream := ⟨.unknown, 0, none, none⟩

/-- The error that ended the stream, unless it ended naturally. -/
def failure? (s : Stream) : Option Error := s.terminal.filter fun e => !e.isEnd

/-- Change the stream. -/
def change (f : Stream → Stream) : Decoding Streaming Unit :=
  modify fun s => { s with stream := f s.stream }

/-- Decode an element into the destination, through a decoder of its own. -/
def element (m : Strategy) : Decoding Streaming Unit := do
  let _ ← Decoding.focus (·.dest) (fun c s => { s with dest := c }) (Decoding.truncated m)

/-- Go on to the next element of an array, unless there are no more. -/
def advance : Decoding Streaming Unit := do
  let s := (← get).stream
  if s.limit.any (· ≤ s.count) then
    if s.tag = .array then
      let _ ← Decoding.ask (.leave .array s.count)
    Decoding.fail .ended
  if s.limit.isNone || s.count != 0 then
    match ← Decoding.attempt (Decoding.ask (.next .array s.count)) with
    | .ok _ => pure ()
    | .error e =>
      if e.isEnd then
        change fun s => { s with limit := some s.count }
        let _ ← Decoding.ask (.leave .array s.count)
      Decoding.fail e

/-- Decode an element after the first call, or the first element of an array. -/
def step (m : Strategy) : Decoding Streaming Unit := do
  advance
  element m
  change fun s => { s with count := s.count + 1 }

/-- Observe the top-level tag, and enter an array. A value of another kind is decoded at once. -/
def first (m : Strategy) : Decoding Streaming Unit := do
  let tag : Tag ← Decoding.ask .type
  change fun s => { s with tag := tag }
  if tag = .array then
    let limit ← Decoding.ask (.enter .array)
    change fun s => { s with limit := limit }
    step m
  else
    change fun s => { s with limit := some 1 }
    element (m.serving tag)
    change fun s => { s with count := 1 }

/-- Decode the next element by the given decoding of one value. -/
def nextBy (m : Strategy) : Decoding Streaming Unit := do
  let s := (← get).stream
  match s.terminal with
  | some e => Decoding.fail e
  | none =>
    match ← Decoding.attempt (if s.tag = .unknown then first m else step m) with
    | .ok _ => pure ()
    | .error e =>
      let count := (← get).stream.count
      Decoding.note (if e.isEnd then .streamEnded count else .streamFailed count e)
      change fun s => { s with terminal := some e }
      Decoding.fail e

/-- Decode the next element as a value of a type. -/
def next (s : Setup) (n : Nat) (t : Ty) : Decoding Streaming Unit := nextBy (s.call n t)

/-- Decode the next element of a source as a value of a type. -/
def nextFrom {σ : Type} [TokenSource σ] (s : Setup) (t : Ty) (state : Streaming) (src : σ)
    (reg : Registry) : Run σ (Ending Streaming Unit) :=
  s.lead [t] (fun n => next s n t) state src reg

end Stream

end Decant
