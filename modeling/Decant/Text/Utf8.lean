/-!
# UTF-8 text in byte sequences

* `Utf8.read?` — the text of a byte sequence, if it is well formed.
* `Utf8.fault` — where and how a byte sequence stops being well formed.
* `Utf8.lossy` — the text with every ill-formed stretch replaced by U+FFFD.

A multi-byte sequence is described by its lead byte alone: `Utf8.tail` lists the range that each
following byte has to lie in, so overlong forms, surrogates and code points past U+10FFFF are
refused at the byte that gives them away.
-/

namespace Decant

namespace Utf8

/-- The ranges of the bytes that follow a lead byte, or `none` if no sequence starts with it. -/
def tail (b : UInt8) : Option (List (UInt8 × UInt8)) :=
  if b < 0x80 then some []
  else if 0xC2 ≤ b ∧ b ≤ 0xDF then some [(0x80, 0xBF)]
  else if b = 0xE0 then some [(0xA0, 0xBF), (0x80, 0xBF)]
  else if b = 0xED then some [(0x80, 0x9F), (0x80, 0xBF)]
  else if 0xE1 ≤ b ∧ b ≤ 0xEF then some [(0x80, 0xBF), (0x80, 0xBF)]
  else if b = 0xF0 then some [(0x90, 0xBF), (0x80, 0xBF), (0x80, 0xBF)]
  else if 0xF1 ≤ b ∧ b ≤ 0xF3 then some [(0x80, 0xBF), (0x80, 0xBF), (0x80, 0xBF)]
  else if b = 0xF4 then some [(0x80, 0x8F), (0x80, 0xBF), (0x80, 0xBF)]
  else none

/-- How the bytes after a lead byte meet their ranges. -/
inductive Match where
  /-- Every range was met. -/
  | whole
  /-- The byte after this many good ones is out of its range. -/
  | broken (good : Nat)
  /-- The bytes ran out after this many good ones. -/
  | short (good : Nat)
  deriving DecidableEq, Repr

/-- Compare bytes with the ranges they have to lie in. -/
def follow : List (UInt8 × UInt8) → List UInt8 → Match
  | [], _ => .whole
  | _ :: _, [] => .short 0
  | (lo, hi) :: ranges, b :: bs =>
    if lo ≤ b ∧ b ≤ hi then
      match follow ranges bs with
      | .whole => .whole
      | .broken n => .broken (n + 1)
      | .short n => .short (n + 1)
    else .broken 0

/-- One step through a byte sequence: how many bytes it takes, and whether they are well formed. -/
structure Step where
  /-- The number of bytes that form a character, or the ill-formed stretch. -/
  width : Nat
  good : Bool
  /-- The stretch reaches the end of the bytes and could still have become a character. -/
  short : Bool
  deriving DecidableEq, Repr

/-- The step that starts with a given byte. -/
def step (b : UInt8) (bs : List UInt8) : Step :=
  match tail b with
  | none => ⟨1, false, false⟩
  | some ranges =>
    match follow ranges bs with
    | .whole => ⟨1 + ranges.length, true, false⟩
    | .broken n => ⟨1 + n, false, false⟩
    | .short n => ⟨1 + n, false, true⟩

/-- Where a byte sequence stops being well formed. -/
structure Fault where
  /-- The number of bytes before it that are well formed. -/
  validUpTo : Nat
  /-- The length of the ill-formed stretch; absent if the bytes ended inside a character. -/
  width : Option Nat
  deriving DecidableEq, Repr

namespace Fault

/-- The wording of a fault. -/
def message (f : Fault) : String :=
  match f.width with
  | some n => s!"invalid utf-8 sequence of {n} bytes from index {f.validUpTo}"
  | none => s!"incomplete utf-8 byte sequence from index {f.validUpTo}"

end Fault

/-- Scan for the first fault from an index on; `skip` bytes belong to a character already seen. -/
def scan : Nat → Nat → List UInt8 → Option Fault
  | _, _, [] => none
  | index, skip + 1, _ :: bs => scan (index + 1) skip bs
  | index, 0, b :: bs =>
    let s := step b bs
    if s.good then scan (index + 1) (s.width - 1) bs
    else some ⟨index, if s.short then none else some s.width⟩

/-- The first fault of a byte sequence; a well-formed one has none. -/
def fault? (bytes : ByteArray) : Option Fault := scan 0 0 bytes.toList

/-- The bytes of U+FFFD, which stands for an ill-formed stretch. -/
def replacement : List UInt8 := [0xEF, 0xBF, 0xBD]

/-- Replace every ill-formed stretch; `keep` says how the bytes still to skip are treated. -/
def mend : Nat → Bool → List UInt8 → List UInt8
  | _, _, [] => []
  | skip + 1, keep, b :: bs => if keep then b :: mend skip keep bs else mend skip keep bs
  | 0, _, b :: bs =>
    let s := step b bs
    if s.good then b :: mend (s.width - 1) true bs
    else replacement ++ mend (s.width - 1) false bs

/-- The text of a byte sequence, if it is well formed. -/
def read? (bytes : ByteArray) : Option String := String.fromUTF8? bytes

/-- The text of a byte sequence, or the fault that keeps it from being text. -/
def read (bytes : ByteArray) : Except Fault String :=
  match read? bytes with
  | some s => .ok s
  | none => .error ((fault? bytes).getD ⟨bytes.size, none⟩)

/-- The text of a byte sequence with every ill-formed stretch replaced by U+FFFD. -/
def lossy (bytes : ByteArray) : String :=
  match read? bytes with
  | some s => s
  | none => (read? ⟨(mend 0 true bytes.toList).toArray⟩).getD ""

end Utf8

end Decant
