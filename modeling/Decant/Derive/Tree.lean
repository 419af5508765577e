import Decant.Derive.Lexeme

/-!
# Lexemes nested by their brackets

* `Derive.Tree` — a lexeme, a group in brackets, or a list in angle brackets.
* `Tree.ofLexemes` — the nesting of lexemes.
* `Tree.written` — the text of a tree.

An angle bracket without a partner inside its group is an operator.
-/

namespace Decant

namespace Derive

/-- Lexemes nested by their brackets. -/
inductive Tree where
  | leaf (l : Lexeme)
  /-- A group, by its opening bracket. -/
  | group (opening : Char) (inside : List Tree)
  /-- A list in angle brackets. -/
  | angles (inside : List Tree)

namespace Tree

/-- Whether a tree is a punctuation mark. -/
def isPunct (c : Char) : Tree → Bool
  | leaf (.punct d) => d == c
  | _ => false

/-- Whether a tree is a group of a kind, by its opening bracket. -/
def isGroup (c : Char) : Tree → Bool
  | group d _ => d == c
  | _ => false

/-- Whether a tree is a word. -/
def isWord (w : String) : Tree → Bool
  | leaf (.word v) => v == w
  | _ => false

/-- A punctuation mark is the leaf of its character. -/
theorem eq_of_isPunct {c : Char} {t : Tree} (h : t.isPunct c = true) : t = leaf (.punct c) := by
  cases t with
  | leaf l => cases l <;> simp_all [isPunct]
  | group => simp [isPunct] at h
  | angles => simp [isPunct] at h

/-! ## Nesting -/

/-- A bracket that is still open, and the trees before it, the last one first. -/
structure Open where
  bracket : Char
  before : List Tree

/-- What has been read: the open brackets, innermost first, and the trees behind the innermost one,
the last one first. -/
structure Partial where
  pending : List Open
  inside : List Tree

namespace Partial

/-- Angle brackets that their group leaves open are operators. -/
def settled : List Open → List Tree → Partial
  | [], inside => ⟨[], inside⟩
  | o :: os, inside =>
    if o.bracket = '<' then settled os (inside ++ leaf (.punct '<') :: o.before)
    else ⟨o :: os, inside⟩

/-- Whether a closing angle bracket is the tip of an arrow. -/
def endsArrow (p : Partial) : Bool :=
  match p.inside with
  | t :: _ => t.isPunct '-' || t.isPunct '='
  | [] => false

/-- Put a lexeme behind what has been read. -/
def push (p : Partial) (l : Lexeme) : Partial :=
  match l with
  | .opening c => ⟨⟨c, p.inside⟩ :: p.pending, []⟩
  | .punct '<' => ⟨⟨'<', p.inside⟩ :: p.pending, []⟩
  | .punct '>' =>
    match p.pending with
    | ⟨'<', before⟩ :: os =>
      if p.endsArrow then ⟨p.pending, leaf l :: p.inside⟩
      else ⟨os, angles p.inside.reverse :: before⟩
    | _ => ⟨p.pending, leaf l :: p.inside⟩
  | .closing _ =>
    match settled p.pending p.inside with
    | ⟨o :: os, inside⟩ => ⟨os, group o.bracket inside.reverse :: o.before⟩
    | ⟨[], inside⟩ => ⟨[], inside⟩
  | l => ⟨p.pending, leaf l :: p.inside⟩

end Partial

/-- The nesting of lexemes whose groups are closed. -/
def ofLexemes (ls : List Lexeme) : List Tree :=
  let p := ls.foldl Partial.push ⟨[], []⟩
  (Partial.settled p.pending p.inside).inside.reverse

/-! ## Text -/

/-- The bracket that closes a group. -/
def closer (c : Char) : Char :=
  if c = '(' then ')' else if c = '[' then ']' else '\x7d'

mutual
/-- The text of a tree. -/
def written : Tree → List Char
  | leaf l => l.written
  | group c ts => c :: writtenAll ts ++ [closer c]
  | angles ts => '<' :: writtenAll ts ++ ['>']

/-- The text of trees. -/
def writtenAll : List Tree → List Char
  | [] => []
  | t :: ts => t.written ++ writtenAll ts
end

end Tree

end Derive

end Decant
