import Decant.Decoding.Container
import Decant.Decoding.Leaf
import Decant.Decoding.Record

/-!
# The decoder

* `Setup` — the type definitions, and the routine that takes over the entries of maps, if any.
* `Plan.run` — carry out the plan of a type.
* `Setup.run` — decode one value by a compiled type. The number bounds the steps taken.
* `Setup.call` — decode one value of a type, which the registry compiles on first use.
* `Setup.decode` — decode the next value into a destination. An end signal that leaves the value
  reads as a truncated stream.
* `Setup.perform` — carry out a routine on a decoder.
* `Setup.budget` — enough steps for any source of a given extent.
* `Setup.decodeFrom`, `Setup.performOn` — the same, led with a source and a registry.
-/

namespace Decant

/-- What decoding depends on beside the source and the registry. -/
structure Setup where
  schema : Schema
  /-- Takes over each entry of maps of no fixed type. -/
  entryRoutine : Option EntryRoutine

/-- Carry out the plan of a type, given how the strategies of other types are got at: from the
registry, and as the compiled type says. -/
def Plan.run (s : Setup) (resolve nested : Ty → Decoding Content Strategy) (rounds : Nat) (t : Ty) :
    Plan → Strategy
  | .scalar k => Decoding.scalar s.schema.times k
  | .byteList => Decoding.bytes
  | .dynamic => Decoding.dynamic s.entryRoutine resolve rounds
  | .list item => Decoding.list s.schema nested rounds item
  | .array item n => Decoding.array s.schema resolve nested rounds item n
  | .map k v => Decoding.map s.schema nested rounds k v
  | .textMap v => Decoding.textMap s.schema resolve rounds v
  | .option inner => Decoding.option s.schema nested inner
  | .box inner => Decoding.through (nested inner)
  | .record fields _ => Decoding.record (s.schema.initial t) resolve nested rounds fields
  | .custom routine => Decoding.custom (Decoding.through <| resolve ·) rounds routine
  | .text accept => Decoding.text accept
  | .error build => Decoding.error (s.schema.initial t) build
  | .unsupported path => Decoding.fail (.unsupported path)

namespace Setup

/-- The setup without anything that takes over map entries. -/
def plain (schema : Schema) : Setup := ⟨schema, none⟩

/-- Get at the strategy of a type through the registry, given the strategies of compiled types. -/
def fetch (run : Ty → Compiled → Strategy) (t : Ty) : Decoding Content Strategy := do
  return run t (← Decoding.resolve t)

/-- Get at the strategy of a type nested in a compiled one. -/
def reach (run : Ty → Compiled → Strategy) (f : Compiled) (t : Ty) : Decoding Content Strategy :=
  match f.link t with
  | .onDemand => fetch run t
  | .deferred => return Decoding.through (fetch run t)
  | .captured g => return run t g

/-- Decode one value by a compiled type; the result is the tag observed. The number bounds how deep
plans nest and how many rounds a container is walked. -/
def run (s : Setup) : Nat → Ty → Compiled → Strategy
  | 0, _, _ => Decoding.exhausted
  | n + 1, t, f =>
    f.plan.run s (fetch (s.run n)) (reach (s.run n) f) n t

/-- Decode one value of a type, which the registry compiles on first use. -/
def call (s : Setup) (n : Nat) (t : Ty) : Strategy := Decoding.through (fetch (s.run n) t)

/-- Enough steps to decode values of some types from a source of a given extent. -/
def budget (s : Setup) (types : List Ty) (extent : Nat) : Nat :=
  (extent + 2) * (total Ty.size types + s.schema.size + 8)

/-- Decode the next value into a destination. -/
def decode (s : Setup) (n : Nat) (t : Ty) : Decoding Content Unit :=
  Decoding.truncated do
    let _ ← s.call n t

/-- Carry out a routine on a decoder. -/
def perform {δ : Type} (s : Setup) (n : Nat) (routine : Routine δ .decoder) :
    Decoding (Hand δ) Unit :=
  Decoding.perform (s.call n) n 0 routine

/-- Lead a decoding with a source and a registry, within the budget of the source. -/
def lead {σ δ α : Type} [TokenSource σ] (s : Setup) (types : List Ty) (m : Nat → Decoding δ α)
    (dest : δ) (src : σ) (reg : Registry) : Run σ (Ending δ α) :=
  (m (s.budget types (TokenSource.extent src)) dest).run s.schema src reg

/-- Decode the next value of a source into a destination. -/
def decodeFrom {σ : Type} [TokenSource σ] (s : Setup) (t : Ty) (dest : Content) (src : σ)
    (reg : Registry) : Run σ (Ending Content Unit) :=
  s.lead [t] (fun n => s.decode n t) dest src reg

/-- Carry out a routine, which decodes the given types, on a decoder of a source. -/
def performOn {σ δ : Type} [TokenSource σ] (s : Setup) (types : List Ty)
    (routine : Routine δ .decoder) (state : δ) (src : σ) (reg : Registry) :
    Run σ (Ending (Hand δ) Unit) :=
  s.lead types (fun n => s.perform n routine) ⟨state, none⟩ src reg

end Setup

end Decant
