import Decant.Derive.Lexeme

/-!
# Literals

* `Lexeme.string`, `Lexeme.rawString` — what a string literal denotes, and what follows it.
* `Lexeme.afterNumber`, `Lexeme.afterQuoteMark` — what follows the other literals.
* `Lexeme.asIndex` — a number that is the index of a field.

In a string that is not raw, a line end of two characters is one line feed, and a backslash before a
line end joins the lines.
-/

namespace Decant

namespace Lexeme

/-- The value of a hexadecimal digit. -/
def hexDigit? (c : Char) : Option Nat :=
  if '0' ≤ c ∧ c ≤ '9' then some (c.toNat - '0'.toNat)
  else if 'a' ≤ c ∧ c ≤ 'f' then some (c.toNat - 'a'.toNat + 10)
  else if 'A' ≤ c ∧ c ≤ 'F' then some (c.toNat - 'A'.toNat + 10)
  else none

/-- The value of digits in a base, among which underscores do not count. -/
def digitsValue (base : Nat) (cs : List Char) : Nat :=
  (cs.filterMap hexDigit?).foldl (fun n d => base * n + d) 0

/-- The value of hexadecimal digits, among which underscores do not count. -/
def hexValue (cs : List Char) : Nat := digitsValue 16 cs

/-- The value of a whole number, whose base may be marked. -/
def wholeValue : List Char → Nat
  | '0' :: 'x' :: cs => hexValue cs
  | '0' :: 'o' :: cs => digitsValue 8 cs
  | '0' :: 'b' :: cs => digitsValue 2 cs
  | cs => digitsValue 10 cs

/-- The character that a one-letter escape stands for. -/
def simpleEscape? : Char → Option Char
  | 'n' => some '\n'
  | 'r' => some '\r'
  | 't' => some '\t'
  | '0' => some '\x00'
  | '\\' => some '\\'
  | '\'' => some '\''
  | '"' => some '"'
  | _ => none

/-- The state of reading a string literal. -/
inductive Reading where
  | plain
  /-- Behind a backslash. -/
  | escape
  /-- Behind `\x`, with the digits so far. -/
  | byte (digits : List Char)
  /-- Behind `\u`, with the digits so far. -/
  | point (digits : List Char)
  /-- In the blanks that an escaped line end skips. -/
  | skipping

/-- Read a string literal behind its opening quote: the text it denotes and what follows the
closing quote. -/
def string : Reading → List Char → List Char → List Char × List Char
  | _, done, [] => (done.reverse, [])
  | .plain, done, '\r' :: '\n' :: cs => string .plain ('\n' :: done) cs
  | .plain, done, c :: cs =>
    if c = '"' then (done.reverse, cs)
    else if c = '\\' then string .escape done cs
    else string .plain (c :: done) cs
  | .escape, done, c :: cs =>
    match simpleEscape? c with
    | some e => string .plain (e :: done) cs
    | none =>
      if c = 'x' then string (.byte []) done cs
      else if c = 'u' then string (.point []) done cs
      else string .skipping done cs
  | .byte [], done, c :: cs => string (.byte [c]) done cs
  | .byte digits, done, c :: cs =>
    string .plain (Char.ofNat (hexValue (digits ++ [c])) :: done) cs
  | .point digits, done, c :: cs =>
    if c = '\x7d' then string .plain (Char.ofNat (hexValue digits) :: done) cs
    else string (.point (digits ++ [c])) done cs
  | .skipping, done, c :: cs =>
    if c = '"' then (done.reverse, cs)
    else if c = '\\' then string .escape done cs
    else if c = ' ' || c = '\n' || c = '\t' || c = '\r' then string .skipping done cs
    else string .plain (c :: done) cs

/-- Read a raw string literal behind its opening quote: it ends at a quote with as many hashes as
opened it. -/
def rawString (hashes : Nat) : List Char → List Char → List Char × List Char
  | done, [] => (done.reverse, [])
  | done, c :: cs =>
    if c = '"' ∧ (cs.take hashes).length = hashes ∧ (cs.take hashes).all (· == '#') then
      (done.reverse, cs.drop hashes)
    else rawString hashes (c :: done) cs

/-- The number of hashes in front, if a quote follows them. -/
def hashes? (cs : List Char) : Option Nat :=
  match cs.dropWhile (· == '#') with
  | '"' :: _ => some (cs.takeWhile (· == '#')).length
  | _ => none

/-- What follows the suffix in front, which is a word, if there is one. -/
def afterSuffix : List Char → List Char
  | [] => []
  | c :: cs => if startsWord c then cs.dropWhile inWord else c :: cs

/-- Whether a character may stand among the digits of a number. -/
def inDigits (c : Char) : Bool := c.isDigit || c == '_'

/-- What follows the digits of an exponent, if there are any. -/
def afterExponent? (cs : List Char) : Option (List Char) :=
  let cs :=
    match cs.dropWhile (· == '_') with
    | '+' :: rest | '-' :: rest | rest => rest
  if (cs.takeWhile inDigits).any Char.isDigit then some (cs.dropWhile inDigits) else none

/-- What follows an exponent in front; what is no exponent is a suffix. -/
def afterPower : List Char → List Char
  | 'e' :: cs | 'E' :: cs => afterSuffix ((afterExponent? cs).getD ('e' :: cs))
  | cs => afterSuffix cs

/-- What follows a number behind its first digit. A point belongs to the number, unless another
point or a word follows it. -/
def afterNumber (cs : List Char) : List Char :=
  match cs.dropWhile inDigits with
  | '.' :: rest =>
    if rest.head?.any fun c => c == '.' || startsWord c then '.' :: rest
    else afterPower (rest.dropWhile inDigits)
  | rest => afterPower rest

/-- A number in decimal digits. One that has a point is a pair of whole numbers. -/
def inDecimal (cs : List Char) : List Char :=
  let whole (ds : List Char) := Nat.toDigits 10 (wholeValue ds)
  match cs.dropWhile (· != '.') with
  | ['.'] => whole (cs.takeWhile (· != '.')) ++ ['.']
  | '.' :: ds => whole (cs.takeWhile (· != '.')) ++ '.' :: whole ds
  | _ => whole cs

/-- A number that is the index of a field, in its plainest form. -/
def asIndex : Lexeme → Lexeme
  | literal s =>
    if s.toList.head?.any Char.isDigit then literal (String.ofList (inDecimal s.toList))
    else literal s
  | l => l

/-- What follows a word that may be written raw. -/
def afterName : List Char → List Char
  | 'r' :: '#' :: cs => cs.dropWhile inWord
  | cs => cs.dropWhile inWord

/-- What follows a quote mark that starts a character literal or a lifetime, and whether it is a
lifetime. -/
def afterQuoteMark : List Char → Bool × List Char
  | '\\' :: _ :: cs => (false, afterSuffix ((cs.dropWhile (· != '\'')).drop 1))
  | _ :: '\'' :: cs => (false, afterSuffix cs)
  | cs => (true, afterName cs)

end Lexeme

end Decant
