import Decant.Derive.Lexeme.Literal
import Decant.Text.Quoted

/-!
# Reading lexemes

* `Lexeme.scan` — the lexemes of a text.

Comments are blank, but a documentation comment stands for an attribute that holds its text.
-/

namespace Decant

namespace Lexeme

/-! ## Comments -/

/-- The rest of a line, and what follows it from its line feed on. -/
def lineComment : List Char → List Char × List Char
  | [] => ([], [])
  | '\n' :: cs => ([], '\n' :: cs)
  | '\r' :: '\n' :: cs => ([], '\n' :: cs)
  | c :: cs => (c :: (lineComment cs).1, (lineComment cs).2)

/-- The text of a block comment behind its opening, and what follows its end. Further comments may
stand inside; the first argument counts those that are open. -/
def blockComment : Nat → List Char → List Char → List Char × List Char
  | _, done, [] => (done.reverse, [])
  | inner, done, '/' :: '*' :: cs => blockComment (inner + 1) ('*' :: '/' :: done) cs
  | 0, done, '*' :: '/' :: cs => (done.reverse, cs)
  | inner + 1, done, '*' :: '/' :: cs => blockComment inner ('/' :: '*' :: done) cs
  | inner, done, c :: cs => blockComment inner (c :: done) cs

/-- The attribute that a documentation comment stands for; `inner` ones speak of what encloses
them. -/
def documentation (inner : Bool) (doc : List Char) : List Lexeme :=
  .punct '#' :: (if inner then [.punct '!'] else []) ++
    [.opening '[', .word "doc", .punct '=', .text (String.ofList doc) (Quoted.literal doc),
      .closing ']']

/-- What the start of a comment behind its two opening characters makes of its text; `mark` is the
mark of documentation, which does not count if it is doubled. -/
def ofComment (mark : Char) (start doc : List Char) : List Lexeme :=
  match start with
  | '!' :: _ => documentation true (doc.drop 1)
  | a :: b :: _ => if a = mark ∧ b ≠ mark then documentation false (doc.drop 1) else []
  | [a] => if a = mark then documentation false [] else []
  | [] => []

/-- The comment in front, if there is one: what it stands for, and what follows it. -/
def comment? : List Char → Option (List Lexeme × List Char)
  | '/' :: '/' :: cs =>
    let (doc, rest) := lineComment cs
    some (ofComment '/' doc doc, rest)
  | '/' :: '*' :: '*' :: '/' :: cs => some ([], cs)
  | '/' :: '*' :: cs =>
    let (doc, rest) := blockComment 0 [] cs
    some (ofComment '*' cs doc, rest)
  | _ => none

/-! ## Lexemes -/

/-- The string literal behind an opening quote. -/
def quoted (cs : List Char) : (String → Lexeme) × List Char :=
  let (s, rest) := string .plain [] cs
  (text (String.ofList s), afterSuffix rest)

/-- The raw string literal behind its first letters, with so many hashes before its quote. -/
def rawQuoted (hashes : Nat) (cs : List Char) : (String → Lexeme) × List Char :=
  let (s, rest) := rawString hashes [] (cs.drop (hashes + 1))
  (text (String.ofList s), afterSuffix rest)

/-- The lexeme that starts with a word, and what follows it: the word, or a literal that the word
introduces. -/
def introduced (w rest : List Char) : (String → Lexeme) × List Char :=
  match w, rest, hashes? rest with
  | ['r'], _, some n => rawQuoted n rest
  | ['r'], '#' :: rest, none => (word, rest.dropWhile inWord)
  | ['b', 'r'], _, some n | ['c', 'r'], _, some n => (literal, (rawQuoted n rest).2)
  | ['b'], '"' :: rest, _ | ['c'], '"' :: rest, _ => (literal, (quoted rest).2)
  | ['b'], '\'' :: rest, _ => (literal, (afterQuoteMark rest).2)
  | _, rest, _ => (word, rest)

/-- The lexeme that starts with a character, given its text, and what follows it. -/
def next (c : Char) (cs : List Char) : (String → Lexeme) × List Char :=
  if c = '"' then quoted cs
  else if startsWord c then introduced (c :: cs.takeWhile inWord) (cs.dropWhile inWord)
  else if c.isDigit then (literal, afterNumber cs)
  else if c = '\'' then
    let (isLifetime, rest) := afterQuoteMark cs
    (if isLifetime then lifetime else literal, rest)
  else (fun _ => if opens c then opening c else if closes c then closing c else punct c, cs)

/-- The lexemes of characters; the first argument bounds how often one is looked for. -/
def scanChars : Nat → List Char → List Lexeme
  | 0, _ | _, [] => []
  | n + 1, c :: cs =>
    if isBlank c then scanChars n cs
    else
      match comment? (c :: cs) with
      | some (ls, rest) => ls ++ scanChars n rest
      | none =>
        let (lexeme, rest) := next c cs
        let written := (c :: cs).take (cs.length + 1 - rest.length)
        lexeme (String.ofList written) :: scanChars n rest

/-- The lexemes of a text. -/
def scan (s : String) : List Lexeme := scanChars s.length s.toList

end Lexeme

end Decant
