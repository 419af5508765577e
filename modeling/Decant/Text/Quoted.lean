import Decant.Text.Hidden

/-!
# Quoted text

* `Quoted.text` — text between double quotes, as messages show names and inputs: quotes,
  backslashes and the common controls have short escapes, characters with no visible form of their
  own are written as hexadecimal code points, and all others stand for themselves.
* `Quoted.literal` — the same text as a string literal, in which an escaped NUL must not run into
  the digits behind it.
-/

namespace Decant

namespace Quoted

/-- The lowercase hexadecimal digits of a number, without leading zeros. -/
def hex (n : Nat) : List Char := Nat.toDigits 16 n

/-- The code point escape of a character. -/
def codePoint (c : Char) : List Char := ['\\', 'u', '\x7b'] ++ hex c.toNat ++ ['\x7d']

/-- How one character is written inside the quotes. -/
def char (c : Char) : List Char :=
  if c = '\x00' then ['\\', '0']
  else if c = '\t' then ['\\', 't']
  else if c = '\r' then ['\\', 'r']
  else if c = '\n' then ['\\', 'n']
  else if c = '"' then ['\\', '"']
  else if c = '\\' then ['\\', '\\']
  else if Hidden.holds c then codePoint c
  else [c]

/-- Text between double quotes. -/
def text (s : String) : String := String.ofList (['"'] ++ s.toList.flatMap char ++ ['"'])

/-- The inside of a string literal that denotes a text. -/
def literalInside : List Char → List Char
  | [] => []
  | '\x00' :: d :: cs =>
    (if '0' ≤ d ∧ d ≤ '7' then ['\\', 'x', '0', '0'] else char '\x00') ++ literalInside (d :: cs)
  | c :: cs => char c ++ literalInside cs

/-- A string literal that denotes a text. -/
def literal (cs : List Char) : String := String.ofList (['"'] ++ literalInside cs ++ ['"'])

end Quoted

end Decant
