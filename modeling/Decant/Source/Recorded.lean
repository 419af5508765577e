import Decant.Source

/-!
# Sources that keep a record

* `Recorded` — a source together with the calls that reached it, in order.
-/

namespace Decant

/-- A source together with the calls that reached it, in order. -/
structure Recorded (σ : Type) where
  inner : σ
  calls : List Call

namespace Recorded

variable {σ : Type}

/-- A source that was not asked anything yet. -/
def ofSource (s : σ) : Recorded σ := ⟨s, []⟩

instance [TokenSource σ] : TokenSource (Recorded σ) where
  answer c s :=
    let (reply, inner) := TokenSource.answer c s.inner
    (reply, ⟨inner, s.calls ++ [c]⟩)
  extent s := TokenSource.extent s.inner

end Recorded

end Decant
