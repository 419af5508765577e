/-!
# Lexemes of declarations

* `Lexeme` — a word, a literal, a lifetime, a punctuation mark or a bracket.
* `Lexeme.written` — the text of a lexeme.

A word that is written raw keeps its `r#`. Only string literals are read for what they denote; all
other literals are alike.
-/

namespace Decant

/-- A smallest unit of the text of a declaration. -/
inductive Lexeme where
  | word (written : String)
  /-- A string literal, by the text it denotes and as it is written. -/
  | text (denoted written : String)
  /-- A literal of another kind. -/
  | literal (written : String)
  /-- A name behind a quote mark. -/
  | lifetime (written : String)
  | punct (c : Char)
  | opening (c : Char)
  | closing (c : Char)
  deriving DecidableEq, Repr

namespace Lexeme

/-- The text of a lexeme. -/
def written : Lexeme → List Char
  | word s | text _ s | literal s | lifetime s => s.toList
  | punct c | opening c | closing c => [c]

/-- Whether a lexeme is a lifetime. -/
def isLifetime : Lexeme → Bool
  | lifetime _ => true
  | _ => false

/-- Whether a character separates lexemes: white space, or a mark of the writing direction. -/
def isBlank (c : Char) : Bool :=
  let n := c.toNat
  n == 0x20 || (0x09 ≤ n && n ≤ 0x0D) || n == 0x85 || n == 0xA0 || n == 0x1680 ||
    (0x2000 ≤ n && n ≤ 0x200A) || n == 0x200E || n == 0x200F || n == 0x2028 || n == 0x2029 ||
    n == 0x202F || n == 0x205F || n == 0x3000

/-- Whether a character may start a word. Beyond ASCII, all but blanks may. -/
def startsWord (c : Char) : Bool := c.isAlpha || c == '_' || (0x80 ≤ c.toNat && !isBlank c)

/-- Whether a character may stand inside a word. -/
def inWord (c : Char) : Bool := startsWord c || c.isDigit

/-- Whether a character opens a group. -/
def opens (c : Char) : Bool := c == '(' || c == '[' || c == '\x7b'

/-- Whether a character closes a group. -/
def closes (c : Char) : Bool := c == ')' || c == ']' || c == '\x7d'

/-- The words that cannot be identifiers. -/
def reserved : List String :=
  ["_", "abstract", "as", "async", "await", "become", "box", "break", "const", "continue", "crate",
   "do", "dyn", "else", "enum", "extern", "false", "final", "fn", "for", "if", "impl", "in", "let",
   "loop", "macro", "match", "mod", "move", "mut", "override", "priv", "pub", "ref", "return",
   "Self", "self", "static", "struct", "super", "trait", "true", "try", "type", "typeof", "unsafe",
   "unsized", "use", "virtual", "where", "while", "yield"]

end Lexeme

end Decant
