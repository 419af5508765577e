import Decant.Plan

/-!
# The registry of compiled types

* `Registry` — the types compiled so far, in order, and whether nested types are compiled along.
* `Registry.resolve` — a compiled type, compiling it on first use.
* `Registry.compile` — compile a type, in an eager registry after the types nested in it.

An eager registry hands the nested types to the outer one as they are compiled. A recursive type
is cut where it meets itself: the inner occurrence waits for the registry to hold the outer one.
-/

namespace Decant

/-- A cache of compiled types. -/
structure Registry where
  /-- Compile the types nested in a type along with it. -/
  eager : Bool
  /-- The compiled types in order. -/
  compiled : List (Ty × Compiled)

namespace Registry

/-- A registry that has compiled nothing. -/
def empty (eager : Bool) : Registry := ⟨eager, []⟩

/-- What is stored for a type. -/
def find? (r : Registry) (t : Ty) : Option Compiled :=
  (r.compiled.find? fun entry => entry.1 == t).map (·.2)

/-- Whether a type was compiled. -/
def contains (r : Registry) (t : Ty) : Bool := r.compiled.any fun entry => entry.1 == t

/-- The number of compiled types. -/
def size (r : Registry) : Nat := r.compiled.length

/-- Whether nothing was compiled. -/
def isEmpty (r : Registry) : Bool := r.size == 0

/-- The compiled types, in the order in which they were compiled. -/
def types (r : Registry) : List Ty := r.compiled.map (·.1)

/-- Store a compiled type. -/
def insert (r : Registry) (t : Ty) (f : Compiled) : Registry :=
  { r with compiled := r.compiled ++ [(t, f)] }

/-- Link nested types one after the other. -/
def linkAll (link : Ty → Registry → Link Compiled × Registry) :
    List Ty → Registry → List (Ty × Link Compiled) × Registry
  | [], r => ([], r)
  | u :: us, r =>
    let (l, r) := link u r
    let (ls, r) := linkAll link us r
    ((u, l) :: ls, r)

/-- Link a nested type while others are being compiled. Only an eager registry compiles it now,
unless it is stored already or among those being compiled. -/
def link (compile : Ty → Registry → Compiled × Registry) (building : List Ty) (u : Ty)
    (r : Registry) : Link Compiled × Registry :=
  if r.eager then
    match r.find? u with
    | some f => (.captured f, r)
    | none =>
      if building.contains u then (.deferred, r)
      else
        let (f, r) := compile u r
        (.captured f, r)
  else (.onDemand, r)

/-- Compile a type that is not stored, and store it. In an eager registry the nested types come
first. The number bounds how many types are being compiled at once. -/
def compile (s : Schema) : Nat → List Ty → Ty → Registry → Compiled × Registry
  | 0, _, t, r => (⟨s.plan t, []⟩, r)
  | n + 1, building, t, r =>
    let (links, r) := linkAll (link (compile s n (t :: building)) (t :: building)) (s.plan t).nested r
    (⟨s.plan t, links⟩, r.insert t ⟨s.plan t, links⟩)

/-- A compiled type, compiling it on first use. -/
def resolve (s : Schema) (t : Ty) (r : Registry) : Compiled × Registry :=
  match r.find? t with
  | some f => (f, r)
  | none => compile s (t.size + s.size + 1) [] t r

end Registry

end Decant
