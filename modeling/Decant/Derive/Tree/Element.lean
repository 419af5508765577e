import Decant.Derive.Tree

/-!
# Lists of trees

* `Tree.elements` — the elements of a list, taken apart at its commas.
* `Tree.arguments`, `Tree.parameters` — a list with the lifetimes in front. A lifetime among
  arguments stands alone; one among parameters may have attributes and bounds.
* `Tree.bindings` — a list of parameters that keeps its order.
* `Tree.join_elements` — taking a list apart loses nothing.
-/

namespace Decant

namespace Derive

namespace Tree

/-- An element of a list, and whether a comma follows it. -/
structure Element where
  trees : List Tree
  comma : Bool

/-- The comma between elements. -/
def comma : Tree := leaf (.punct ',')

/-- The elements of a list. -/
def elements : List Tree → List Element
  | [] => []
  | t :: ts =>
    if t.isPunct ',' then ⟨[], true⟩ :: elements ts
    else
      match elements ts with
      | [] => [⟨[t], false⟩]
      | e :: es => ⟨t :: e.trees, e.comma⟩ :: es

/-- The list of elements. -/
def join (es : List Element) : List Tree :=
  es.flatMap fun e => e.trees ++ if e.comma then [comma] else []

/-- Taking a list apart at its commas loses nothing. -/
theorem join_elements (ts : List Tree) : join (elements ts) = ts := by
  induction ts with
  | nil => rfl
  | cons t ts ih =>
    by_cases h : t.isPunct ',' = true
    · simp only [elements, h, if_true]
      simpa [join, comma, eq_of_isPunct h] using ih
    · simp only [elements, h]
      cases he : elements ts with
      | nil => simp_all [join]
      | cons e es => simp_all [join]

/-- Elements with those of a kind in front. A comma is added where the last of these had none. -/
def front (p : Element → Bool) (es : List Element) : List Tree :=
  let first := es.filter p
  let others := es.filter fun e => !p e
  let missing := !others.isEmpty && first.getLast?.any fun e => !e.comma
  join first ++ (if missing then [comma] else []) ++ join others

/-- Split behind the attributes in front. -/
def splitAttributes : List Tree → List Tree × List Tree
  | leaf (.punct '#') :: t :: ts =>
    let (attributes, rest) := splitAttributes ts
    (leaf (.punct '#') :: t :: attributes, rest)
  | ts => ([], ts)

/-- A parameter without the colon behind its name, if no bounds follow. -/
def withoutEmptyBounds : List Tree → List Tree
  | name :: c :: rest =>
    if c.isPunct ':' && (rest.isEmpty || rest.head?.any (isPunct '=')) then name :: rest
    else name :: c :: rest
  | ts => ts

namespace Element

/-- Whether an element is a lifetime alone. -/
def isLifetime (e : Element) : Bool :=
  match e.trees with
  | [leaf l] => l.isLifetime
  | _ => false

/-- Whether an element declares a lifetime. -/
def declaresLifetime (e : Element) : Bool :=
  match (splitAttributes e.trees).2 with
  | leaf l :: _ => l.isLifetime
  | _ => false

/-- A parameter in its plainest form. -/
def plain (e : Element) : Element :=
  let (attributes, ts) := splitAttributes e.trees
  { e with trees := attributes ++ withoutEmptyBounds ts }

end Element

/-- The inside of a list of arguments, with the lifetimes in front. -/
def arguments (ts : List Tree) : List Tree := front Element.isLifetime (elements ts)

/-- The inside of a list of parameters that are bound in the order they are written in. -/
def bindings (ts : List Tree) : List Tree := join ((elements ts).map Element.plain)

/-- The inside of a list of parameters, with the lifetimes in front. -/
def parameters (ts : List Tree) : List Tree :=
  front Element.declaresLifetime ((elements ts).map Element.plain)

end Tree

end Derive

end Decant
