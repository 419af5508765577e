import Decant.Timestamp

/-!
# Timestamps written as RFC 3339 text

* `Rfc3339.parse` — the point in time that a text denotes, or the fault that keeps it from one.

A text is read byte by byte from the left. Its first nineteen bytes, up to the second, have a fixed
layout, and whether they are there is checked before any of them. The date is looked up in the
calendar as soon as it is read, and the time of day once its fraction is; how far an offset reaches
is only looked at once the text has ended.
-/

namespace Decant

namespace Rfc3339

open Timestamp (Fault)

/-- A reading step: a result and the bytes that follow it. -/
abbrev Reading (α : Type) := List UInt8 → Except Fault (α × List UInt8)

/-- The value of an ASCII digit. -/
def digit? (b : UInt8) : Option Nat :=
  if 0x30 ≤ b ∧ b ≤ 0x39 then some (b.toNat - 0x30) else none

/-- Expect one byte. -/
def byte (expected : UInt8) : List UInt8 → Except Fault (List UInt8)
  | [] => .error .tooShort
  | b :: bs => if b = expected then .ok bs else .error .invalid

/-- The leading digits, at most `most` of them: their number, their value and the rest. -/
def digits : Nat → List UInt8 → Nat × Nat × List UInt8
  | most, bs => go most 0 0 bs
where
  go : Nat → Nat → Nat → List UInt8 → Nat × Nat × List UInt8
    | 0, count, value, bs => (count, value, bs)
    | _ + 1, count, value, [] => (count, value, [])
    | most + 1, count, value, b :: bs =>
      match digit? b with
      | some d => go most (count + 1) (10 * value + d) bs
      | none => (count, value, b :: bs)

/-- A number of exactly so many digits. -/
def number (width : Nat) : Reading Nat := fun bs =>
  let (count, value, rest) := digits width bs
  if count < width then .error .invalid else .ok (value, rest)

/-- The separator between the date and the time of day: `T`, `t` or a space. -/
def separator : List UInt8 → Except Fault (List UInt8)
  | [] => .error .tooShort
  | b :: bs => if b = 0x54 ∨ b = 0x74 ∨ b = 0x20 then .ok bs else .error .invalid

/-- An optional fraction of a second, in nanoseconds; digits past the ninth are skipped. -/
def fraction : Reading Nat
  | [0x2E] => .error .tooShort
  | 0x2E :: bs =>
    let (count, value, rest) := digits 9 bs
    if count = 0 then .error .invalid
    else .ok (value * Nat.pow 10 (9 - count), rest.dropWhile fun b => (digit? b).isSome)
  | bs => .ok (0, bs)

/-- The sign of an offset: `+`, `-` or the minus sign U+2212; true for negative ones. -/
def offsetSign : Reading Bool
  | [] => .error .tooShort
  | 0x2B :: bs => .ok (false, bs)
  | 0x2D :: bs => .ok (true, bs)
  | 0xE2 :: 0x88 :: 0x92 :: bs => .ok (true, bs)
  | _ => .error .invalid

/-- Two digits; the first may not exceed `limit`. -/
def pair (limit : Nat) : Reading Nat
  | a :: b :: bs =>
    match digit? a, digit? b with
    | some m, some n => if m ≤ limit then .ok (10 * m + n, bs) else .error .outOfRange
    | _, _ => .error .invalid
  | _ => .error .tooShort

/-- The offset of local time from universal time, in seconds. -/
def offset : Reading Int
  | 0x5A :: bs => .ok (0, bs)
  | 0x7A :: bs => .ok (0, bs)
  | bs => do
    let (negative, bs) ← offsetSign bs
    let (hours, bs) ← pair 9 bs
    let bs ← byte 0x3A bs
    let (minutes, bs) ← pair 5 bs
    let seconds : Int := 3600 * hours + 60 * minutes
    .ok (if negative then -seconds else seconds, bs)

/-- Whether a year of the Gregorian calendar has a leap day. -/
def isLeapYear (year : Nat) : Bool :=
  year % 4 = 0 && (year % 100 != 0 || year % 400 = 0)

/-- The number of days of a month. -/
def daysInMonth (year month : Nat) : Nat :=
  if month = 2 then if isLeapYear year then 29 else 28
  else if month = 4 ∨ month = 6 ∨ month = 9 ∨ month = 11 then 30
  else 31

/-- The days before the first of January of a year, counted from the first of January of year 0. -/
def daysBeforeYear (year : Nat) : Nat :=
  365 * year + (year + 3) / 4 - (year + 99) / 100 + (year + 399) / 400

/-- The days of a year before the first of a month. -/
def daysBeforeMonth (year month : Nat) : Nat :=
  (List.range (month - 1)).foldl (fun n m => n + daysInMonth year (m + 1)) 0

/-- The day number of a date, counted from the first of January 1970. -/
def dayNumber (year month day : Nat) : Int :=
  (daysBeforeYear year + daysBeforeMonth year month + (day - 1) : Int) - 719528

/-- The largest offset: 23 hours and 59 minutes. -/
def maxOffset : Int := (23 * 60 + 59) * 60

/-- Whether a date exists. -/
def isDate (year month day : Nat) : Bool :=
  1 ≤ month && month ≤ 12 && 1 ≤ day && day ≤ daysInMonth year month

/-- Whether a time of day exists; every minute may have a leap second. -/
def isClock (hour minute second : Nat) : Bool := hour ≤ 23 && minute ≤ 59 && second ≤ 60

/-- The day number of a date in front. -/
def date : Reading Int := fun bs => do
  let (year, bs) ← number 4 bs
  let bs ← byte 0x2D bs
  let (month, bs) ← number 2 bs
  let bs ← byte 0x2D bs
  let (day, bs) ← number 2 bs
  if isDate year month day then .ok (dayNumber year month day, bs) else .error .outOfRange

/-- The time of day in front: its whole seconds, and its nanoseconds past them. A second of 60 is
a leap second after second 59. -/
def clock : Reading (Int × Nat) := fun bs => do
  let (hour, bs) ← number 2 bs
  let bs ← byte 0x3A bs
  let (minute, bs) ← number 2 bs
  let bs ← byte 0x3A bs
  let (second, bs) ← number 2 bs
  let (nanos, bs) ← fraction bs
  if !isClock hour minute second then throw .outOfRange
  let start : Int := 3600 * hour + 60 * minute
  if second = 60 then return ((start + 59, 1000000000 + nanos), bs)
  else return ((start + second, nanos), bs)

/-- The point in time that RFC 3339 text denotes. -/
def parseBytes (bs : List UInt8) : Except Fault Timestamp := do
  if bs.length < 19 then throw .tooShort
  let (day, bs) ← date bs
  let bs ← separator bs
  let ((seconds, nanos), bs) ← clock bs
  let (shift, bs) ← offset bs
  if !bs.isEmpty then throw .tooLong
  if shift < -maxOffset ∨ maxOffset < shift then throw .outOfRange
  return ⟨86400 * day + seconds - shift, nanos⟩

/-- The point in time that a text denotes. -/
def parse (s : String) : Except Fault Timestamp := parseBytes s.toUTF8.toList

instance : TimeFormat := ⟨parse⟩

end Rfc3339

end Decant
