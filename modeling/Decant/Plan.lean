import Decant.Schema

/-!
# Compiled decode plans

* `Plan` — how one type is decoded. The types nested in it are left to plans of their own.
* `Schema.plan` — the plan of a type.
* `Plan.nested` — the types that compiling a plan may compile with it, in order.
* `Compiled` — a plan together with how it reaches the types nested in it.
-/

namespace Decant

/-- What a record does with the value of a known field. -/
inductive Slot where
  /-- Decode it into the member at a position. -/
  | member (index : Nat) (ty : Ty)
  | unsupported (path : String)
  deriving DecidableEq, Repr

/-- How one type is decoded. -/
inductive Plan where
  | scalar (s : Scalar)
  /-- Raw bytes into a list of bytes. -/
  | byteList
  | dynamic
  | list (item : Ty)
  | array (item : Ty) (length : Nat)
  | map (key value : Ty)
  /-- A map from text that is filled in place. -/
  | textMap (value : Ty)
  | option (inner : Ty)
  | box (inner : Ty)
  /-- A record, with its name table and the types of its registrations in order. -/
  | record (fields : Fields Slot) (nested : List Ty)
  | custom (routine : Routine Work .decoder)
  | text (accept : Content → ByteArray → Content × Option Error)
  | error (build : ErrorValue → Content)
  | unsupported (path : String)

namespace Plan

/-- The types that compiling a plan may compile with it, in order. -/
def nested : Plan → List Ty
  | list t | array t _ | option t | box t => [t]
  | map k v => [k, v]
  | record _ ts => ts
  | _ => []

end Plan

/-- Whether maps from text to a type are filled in place. -/
def Ty.fillsInPlace : Ty → Bool
  | .dynamic | .scalar .text => true
  | _ => false

theorem Ty.fillsInPlace_iff {t : Ty} : t.fillsInPlace = true ↔ t = .dynamic ∨ t = .text := by
  constructor
  · intro h
    unfold fillsInPlace at h
    split at h
    · exact .inl rfl
    · exact .inr rfl
    · cases h
  · rintro (rfl | rfl) <;> rfl

namespace Definition

/-- What a record does with a field, by the type of the member it addresses. -/
def slot (members : List Member) : Target → Slot
  | .member i =>
    match members[i]? with
    | some m => .member i m.ty
    | none => .unsupported ""
  | .unsupported path => .unsupported path

/-- The type that a slot decodes into. -/
def slotType? : Slot → Option Ty
  | .member _ t => some t
  | .unsupported _ => none

/-- The plan of a defined type. -/
def plan : Definition → Plan
  | record members registrations _ =>
    let slots := registrations.map fun r => (r.1, slot members r.2)
    .record (Fields.ofList slots) (slots.filterMap fun s => slotType? s.2)
  | custom _ _ routine => .custom routine
  | text _ accept => .text accept
  | error _ build => .error build

end Definition

/-- The plan of a type. -/
def Schema.plan (s : Schema) : Ty → Plan
  | .scalar k => .scalar k
  | .errorValue => .error .error
  | .dynamic => .dynamic
  | .unsupported _ path => .unsupported path
  | .list t => if t = .u8 then .byteList else .list t
  | .array t n => .array t n
  | .map .hashed k v => if k = .text ∧ v.fillsInPlace then .textMap v else .map k v
  | .map .sorted k v => .map k v
  | .option t => .option t
  | .box t => .box t
  | .named name =>
    match s.find? name with
    | some d => d.plan
    | none => .unsupported name

/-- How a compiled type reaches a type nested in it. -/
inductive Link (κ : Type) where
  /-- Through the registry, each time a value of the outer type is decoded. -/
  | onDemand
  /-- Through the registry, each time a nested value is decoded: the nested type was being compiled
  itself when the outer one was. -/
  | deferred
  /-- Directly: the nested type was compiled along with the outer one. -/
  | captured (f : κ)

/-- A compiled type: its plan, and how the types nested in it are reached. -/
structure Compiled where
  plan : Plan
  links : List (Ty × Link Compiled)

/-- How a nested type is reached. -/
def Compiled.link (f : Compiled) (t : Ty) : Link Compiled :=
  ((f.links.find? fun l => l.1 == t).map (·.2)).getD .onDemand

end Decant
