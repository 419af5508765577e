import Decant.Derive.Lexeme.Literal
import Decant.Derive.Tree.Element

/-!
# Arranged trees

* `Tree.Lead` — what the trees in front say of the next one.
* `Tree.arranged` — a tree in its plainest form: lifetimes stand in front of arguments and
  parameters, and what has no effect is left out, such as a colon without bounds.
* `Tree.text` — the text of arranged trees, which holds no spaces.

The arguments of attributes and of macros are left as they are, and so are bounds that hold for
constants only, which have no form of their own.
-/

namespace Decant

namespace Derive

namespace Tree

/-- What the trees in front say of the next one. -/
inductive Lead where
  | plain
  /-- Behind an identifier. -/
  | name
  /-- Behind the exclamation mark of a macro, whose arguments follow. -/
  | mark
  /-- Behind the hash of an attribute; behind the attribute, what was before it holds again. -/
  | hash (before : Lead)
  /-- In the path of an attribute, whose arguments may follow. -/
  | path
  /-- Behind a word that declares something: its name follows, or the arguments of a function
  type. -/
  | declaring
  /-- Behind the name of what is declared, whose parameters may follow. -/
  | declared
  /-- Behind a word that binds the parameters that may follow. -/
  | binder
  /-- At the start of the arguments of a function type. -/
  | arguments
  /-- Behind the word that makes a type of a trait. -/
  | dynamic
  /-- Where a bound may start. -/
  | bounds
  /-- Behind a point, where a field is named or numbered. -/
  | field
  /-- Behind the points of a range. -/
  | range
  /-- In trees that are left as they are, until one of these marks. -/
  | untouched (ends : List Char)

namespace Lead

/-- A bound that is left as it is. -/
def untouchedBound : Lead := untouched ['+', ',', '=', ';', '|']

/-- A type that is left as it is. -/
def untouchedType : Lead := untouched [',', '=', ';', '|']

/-- The reserved words that may name a macro. -/
def reservedNames : List String := ["self", "Self", "super", "crate", "try"]

/-- The lead behind a word that is no part of a path of an attribute or of a macro. -/
def ofWord (w : String) : Lead :=
  if w ∈ ["fn", "struct", "enum", "union", "trait", "type"] then declaring
  else if w = "impl" then declared
  else if w = "for" then binder
  else if w = "dyn" then dynamic
  else if w ∈ Lexeme.reserved ∧ w ∉ reservedNames then plain
  else name

/-- The lead behind one more word. -/
def behindWord (w : String) : Lead → Lead
  | mark => mark
  | path => path
  | declaring => declared
  | arguments => if w = "mut" then untouchedType else ofWord w
  | _ => ofWord w

/-- The lead behind one more punctuation mark. -/
def behindPunct (c : Char) : Lead → Lead
  | hash before => if c = '!' then hash before else plain
  | path => if c = ':' then path else plain
  | name | declaring => if c = '!' then mark else ofPunct plain
  | field | range => if c = '.' then range else ofPunct plain
  | dynamic => if c = '*' then untouchedType else ofPunct plain
  | lead => ofPunct lead
where
  /-- The lead behind a punctuation mark alone. -/
  ofPunct (lead : Lead) : Lead :=
    if c = '#' then hash lead
    else if c = ':' ∨ c = '+' then bounds
    else if c = '.' then field
    else plain

/-- The lead behind one more tree. -/
def next : Lead → Tree → Lead
  | untouched ends, leaf (.punct c) => if c ∈ ends then behindPunct c plain else untouched ends
  | untouched _, leaf (.word "where") | untouched _, group '\x7b' _ => plain
  | untouched ends, _ => untouched ends
  | lead, leaf (.word w) => lead.behindWord w
  | lead, leaf (.punct c) => lead.behindPunct c
  | declared, angles _ => declared
  | hash before, group _ _ => before
  | _, _ => plain

/-- Whether a tree is left as it is. -/
def keeps : Lead → Tree → Bool
  | mark, group _ _ | path, group _ _ => true
  | untouched _, group '\x7b' _ => false
  | untouched _, _ => true
  | _, _ => false

/-- A lexeme in its plainest form. -/
def lexeme : Lead → Lexeme → Lexeme
  | field, l => l.asIndex
  | _, l => l

/-- The lead at the start of a group. -/
def inside : Lead → Lead
  | hash _ => path
  | declaring => arguments
  | _ => plain

/-- The inside of angle brackets. -/
def list : Lead → List Tree → List Tree
  | binder, ts => bindings ts
  | declared, ts => parameters ts
  | _, ts => Tree.arguments ts

end Lead

/-! ## Bounds for constants -/

/-- Whether trees start with the mark of a bound for constants. A block, or a function, may have
that mark too. -/
def marksConstants : List Tree → Bool
  | leaf (.word "const") :: t :: _ =>
    !(t.isGroup '\x7b' || t.isPunct '|' || t.isWord "static" || t.isWord "async" || t.isWord "move")
  | group '[' [leaf (.word "const")] :: _ => true
  | t :: _ => t.isPunct '~'
  | [] => false

/-- Whether trees start with a bound for constants, which may bind lifetimes first. -/
def isForConstants : List Tree → Bool
  | leaf (.word "for") :: angles _ :: ts => marksConstants ts
  | ts => marksConstants ts

/-- Whether a bound in front is left as it is. It may stand in parentheses. -/
def keepsBound : List Tree → Bool
  | group '(' ts :: _ => isForConstants ts
  | ts => isForConstants ts

/-- The lead of trees, once they are looked at. -/
def Lead.before (ts : List Tree) : Lead → Lead
  | bounds => if keepsBound ts then untouchedBound else bounds
  | declared => if keepsBound ts then untouchedBound else declared
  | lead => lead

/-! ## Arranging -/

/-- Whether nothing is declared from here on but the body or the value. -/
def endsHead : List Tree → Bool
  | [] => true
  | t :: _ => t.isGroup '\x7b' || t.isPunct ';' || t.isPunct '=' || t.isWord "where"

/-- Whether a tree has no effect before others: a path mark before the arguments of a function
trait, a colon without bounds, a list without parameters, or conditions that are none. -/
def isIdle (lead : Lead) (t : Tree) (ts : List Tree) : Bool :=
  match lead, t, ts with
  | .declared, angles [], _ => true
  | .untouched _, _, _ => false
  | _, leaf (.punct ':'), leaf (.punct ':') :: group '(' _ :: _ => true
  | .bounds, leaf (.punct ':'), group '(' _ :: _ => true
  | .declared, leaf (.punct ':'), ts => endsHead ts
  | _, leaf (.word "where"), ts => endsHead ts
  | _, _, _ => false

mutual
/-- A tree behind a lead, in its plainest form. -/
def arranged (lead : Lead) : Tree → Tree
  | leaf l => leaf (lead.lexeme l)
  | group c ts =>
    if lead.keeps (group c ts) then group c ts else group c (arrangedAll lead.inside ts)
  | angles ts =>
    if lead.keeps (angles ts) then angles ts else angles (lead.list (arrangedAll .plain ts))

/-- The trees behind a lead, in their plainest form. -/
def arrangedAll (lead : Lead) : List Tree → List Tree
  | [] => []
  | t :: ts =>
    let lead := lead.before (t :: ts)
    if isIdle lead t ts then arrangedAll (lead.next t) ts
    else arranged lead t :: arrangedAll (lead.next t) ts
end

/-- The text of arranged trees, without its spaces. -/
def text (ts : List Tree) : String :=
  String.ofList ((writtenAll (arrangedAll .plain ts)).filter (· != ' '))

end Tree

end Derive

end Decant
