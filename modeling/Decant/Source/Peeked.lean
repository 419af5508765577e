import Decant.Source

/-!
# Sources with a tag taken off in advance

* `Peeked` — a source whose next type indicator was already taken; it is served once, and all other
  calls go to the source beneath.
-/

namespace Decant

/-- A source together with a tag that was taken from it and is still to be served. -/
structure Peeked (σ : Type) where
  /-- The tag to serve, until it has been. -/
  tag : Option Tag
  inner : σ

namespace Peeked

variable {σ : Type} [TokenSource σ]

/-- Let the source beneath answer. -/
def forward (c : Call) (s : Peeked σ) : Answer c × Peeked σ :=
  let (reply, inner) := TokenSource.answer c s.inner
  (reply, ⟨s.tag, inner⟩)

/-- Serve the stored tag, or let the source beneath announce one. -/
def announce (s : Peeked σ) : Except Error Tag × Peeked σ :=
  match s.tag with
  | some tag => (.ok tag, ⟨none, s.inner⟩)
  | none => forward .type s

instance : TokenSource (Peeked σ) where
  answer
    | .type => announce
    | c => forward c
  extent s := TokenSource.extent s.inner

end Peeked

end Decant
