import Decant.Duration

/-!
# Spans of time written as text

* `Duration.ofText?` — the span that a text denotes: an optional sign, then either a bare `0` or
  groups of a decimal number and a unit, whose values add up.
* `Duration.Written.group?_length` — a group takes at least one character, so reading ends.

A whole number of units is exact and may reach 2⁶³ nanoseconds, the magnitude of the smallest span.
The fraction of a unit is scaled in floating point, which keeps long fractions from overflowing.
-/

namespace Decant

namespace Duration

namespace Written

/-- The nanoseconds of a unit. -/
def unit? : List Char → Option Nat
  | ['n', 's'] => some 1
  | ['u', 's'] => some 1000
  | ['µ', 's'] => some 1000
  | ['μ', 's'] => some 1000
  | ['m', 's'] => some 1000000
  | ['s'] => some 1000000000
  | ['m'] => some 60000000000
  | ['h'] => some 3600000000000
  | _ => none

/-- The magnitude of the smallest span, the largest total that may be reached. -/
def limit : Nat := 1 <<< 63

/-- The value of decimal digits. -/
def numeral (digits : List Char) : Nat :=
  digits.foldl (fun n c => 10 * n + (c.toNat - '0'.toNat)) 0

/-- The value of the digits of a fraction and how many of them count: the first digit that would
carry the value past the limit ends it. -/
def fraction : Nat → Nat → List Char → Nat × Nat
  | value, count, [] => (value, count)
  | value, count, c :: cs =>
    let next := 10 * value + (c.toNat - '0'.toNat)
    if next ≤ limit then fraction next (count + 1) cs else (value, count)

/-- Ten to the power of the number of digits, by repeated multiplication. -/
def scale : Nat → Float
  | 0 => 1.0
  | n + 1 => scale n * 10.0

/-- The nanoseconds of a fraction of a unit, rounded towards zero. -/
def fractionNanos (unit : Nat) (digits : List Char) : Nat :=
  let (value, count) := fraction 0 0 digits
  if value = 0 then 0
  else
    let part := unit.toUInt64.toFloat / scale count
    (value.toUInt64.toFloat * part).toUInt64.toNat

/-- Whether a character belongs to the name of a unit. -/
def inUnit (c : Char) : Bool := c != '.' && !c.isDigit

/-- The number in front of a unit: digits, and the digits after a point if there is one. -/
def number (cs : List Char) : List Char × List Char × List Char :=
  match cs.dropWhile Char.isDigit with
  | '.' :: rest =>
    (cs.takeWhile Char.isDigit, rest.takeWhile Char.isDigit, rest.dropWhile Char.isDigit)
  | rest => (cs.takeWhile Char.isDigit, [], rest)

/-- Read one group of a number and a unit: its nanoseconds and the characters after it. -/
def group? (cs : List Char) : Option (Nat × List Char) := do
  let (whole, fractional, rest) := number cs
  guard (!whole.isEmpty || !fractional.isEmpty)
  let unit ← unit? (rest.takeWhile inUnit)
  guard (numeral whole * unit ≤ limit)
  let nanos := numeral whole * unit + fractionNanos unit fractional
  guard (nanos ≤ limit)
  return (nanos, rest.dropWhile inUnit)

private theorem length_dropWhile_le {α : Type} (p : α → Bool) (l : List α) :
    (l.dropWhile p).length ≤ l.length :=
  (List.dropWhile_sublist p).length_le

theorem number_length (cs : List Char) : (number cs).2.2.length ≤ cs.length := by
  have h := length_dropWhile_le Char.isDigit cs
  unfold number
  split
  · rename_i rest heq
    rw [heq] at h
    have := length_dropWhile_le Char.isDigit rest
    simp only [List.length_cons] at h ⊢
    omega
  · exact h

/-- A unit has a name. -/
theorem unit?_nil : unit? [] = none := rfl

/-- What follows a group is shorter than what began with it. -/
theorem group?_length {cs rest : List Char} {nanos : Nat} (h : group? cs = some (nanos, rest)) :
    rest.length < cs.length := by
  have hn := number_length cs
  unfold group? at h
  generalize number cs = n at h hn
  obtain ⟨whole, fractional, after⟩ := n
  obtain ⟨_, _, h⟩ := Option.bind_eq_some_iff.1 h
  obtain ⟨unit, hu, h⟩ := Option.bind_eq_some_iff.1 h
  obtain ⟨_, _, h⟩ := Option.bind_eq_some_iff.1 h
  obtain ⟨_, _, h⟩ := Option.bind_eq_some_iff.1 h
  cases h
  cases after with
  | nil => simp [unit?_nil] at hu
  | cons c after =>
    by_cases hc : inUnit c
    · have := length_dropWhile_le inUnit after
      simp only [List.dropWhile_cons, hc, if_true, List.length_cons] at hn ⊢
      omega
    · simp [hc, unit?_nil] at hu

/-- Add up groups until the characters end; the running total may not pass the limit. -/
def groups? (total : Nat) (cs : List Char) : Option Nat :=
  match cs with
  | [] => some total
  | c :: cs =>
    match _h : group? (c :: cs) with
    | none => none
    | some (nanos, rest) =>
      if total + nanos ≤ limit then groups? (total + nanos) rest else none
termination_by cs.length
decreasing_by exact group?_length _h

/-- The nanoseconds of an unsigned span: a bare `0`, or one or more groups. -/
def magnitude? : List Char → Option Nat
  | ['0'] => some 0
  | [] => none
  | cs => groups? 0 cs

/-- Take a sign off; true for a minus. -/
def sign : List Char → Bool × List Char
  | '-' :: cs => (true, cs)
  | '+' :: cs => (false, cs)
  | cs => (false, cs)

/-- Give a magnitude its sign; the limit itself is reached by negative spans only. -/
def signed? (negative : Bool) (nanos : Nat) : Option Duration :=
  if negative then some ⟨-nanos⟩
  else if nanos < limit then some ⟨nanos⟩ else none

/-- The span that characters denote. -/
def ofChars? (cs : List Char) : Option Duration :=
  (magnitude? (sign cs).2).bind (signed? (sign cs).1)

end Written

/-- The span that a text denotes. -/
def ofText? (s : String) : Option Duration := Written.ofChars? s.toList

end Duration

end Decant
