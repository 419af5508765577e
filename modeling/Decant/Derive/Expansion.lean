import Decant.Derive.Attribute
import Decant.Derive.Lexeme.Scan
import Decant.Derive.Tree.Arranged

/-!
# Deriving how an item is decoded

* `Derive.Item` — the declaration of a type.
* `Derive.Expansion` — what is derived for it: the decoding strategy, the name table of a record,
  and the generic parameters of the implementation.
* `Derive.expand` — the expansion of an item, or the first fault.
-/

namespace Decant

namespace Derive

/-- A field as it is declared. -/
structure Field where
  name : String
  ty : List Lexeme
  attributes : List (List Lexeme)

/-- The shape of a declared type. -/
inductive Shape where
  /-- Fields with names. -/
  | fields (fs : List Field)
  | tuple
  | unit
  | alternatives
  | union

/-- A declared type, with its generic parameters as written between the angle brackets. -/
structure Item where
  name : String
  generics : List Lexeme
  attributes : List (List Lexeme)
  shape : Shape

/-- A row of the name table of a record. -/
structure Row where
  key : String
  ty : String
  member : String
  deriving DecidableEq, Repr

/-- How a type is decoded. -/
inductive Strategy where
  /-- Member by member, through a name table. -/
  | record (table : List Row)
  | capability (c : Capability)
  deriving DecidableEq, Repr

/-- What is derived for an item. -/
structure Expansion where
  /-- The type that the implementation is for. -/
  self : String
  /-- The generic parameters of the implementation. -/
  params : List String
  strategy : Strategy
  deriving DecidableEq, Repr

/-! ## Generic parameters -/

/-- A generic parameter: its name, and how the implementation declares it. -/
structure Param where
  name : Lexeme
  declared : List Tree

/-- A declaration without its default. -/
def withoutDefault (ts : List Tree) : List Tree := ts.takeWhile fun t => !t.isPunct '='

/-- The colon between a parameter and its bounds. -/
def colon : Tree := .leaf (.punct ':')

/-- The plus sign between bounds. -/
def plus : Tree := .leaf (.punct '+')

/-- The bound that every type parameter gets. -/
def bound : List Tree := Tree.ofLexemes (Lexeme.scan "::unspool::Decode")

/-- The bounds of a type parameter with the one that it gets; the bounds as written may end in a
plus sign. -/
def withBound (bounds : List Tree) : List Tree :=
  match bounds.getLast? with
  | none => bound
  | some t => bounds ++ (if t.isPunct '+' then [] else [plus]) ++ bound

/-- A generic parameter as written. Lifetimes and constants get no bound, and a lifetime without
bounds needs no colon. -/
def param? (ts : List Tree) : Option Param :=
  let (front, ts) := Tree.splitAttributes ts
  match ts with
  | .leaf (.word "const") :: .leaf name :: rest =>
    some ⟨name, front ++ .leaf (.word "const") :: .leaf name :: withoutDefault rest⟩
  | .leaf (.lifetime a) :: rest =>
    some ⟨.lifetime a, front ++ Tree.withoutEmptyBounds (.leaf (.lifetime a) :: rest)⟩
  | .leaf name :: rest =>
    some ⟨name, front ++ .leaf name :: colon :: withBound ((withoutDefault rest).drop 1)⟩
  | _ => none

/-- The generic parameters of an item; lifetimes come before all others. -/
def Item.params (item : Item) : List Param :=
  let ps := (Tree.elements (Tree.ofLexemes item.generics)).filterMap fun e => param? e.trees
  ps.filter (·.name.isLifetime) ++ ps.filter fun p => !p.name.isLifetime

/-- The type that the implementation is for: the item, applied to its parameters by their names. -/
def Item.self (item : Item) : String :=
  let names := (Tree.elements (Tree.ofLexemes item.generics)).map fun e =>
    { e with trees := (param? e.trees).toList.map fun p => Tree.leaf p.name }
  if names.isEmpty then item.name
  else item.name ++ "<" ++ Tree.text (Tree.front Tree.Element.isLifetime names) ++ ">"

/-! ## Records -/

/-- The name that a field is encoded as by default: its identifier, not written raw. -/
def Field.defaultKey (f : Field) : String :=
  match f.name.toList with
  | 'r' :: '#' :: cs => String.ofList cs
  | cs => String.ofList cs

/-- The row of a field, or nothing if the field is skipped. -/
def Field.row (f : Field) : Except Fault (Option Row) := do
  let o ← Options.ofAttributes f.attributes
  if o.skip then
    if o.rename.isSome then throw .renamedButSkipped
    return none
  return some ⟨o.rename.getD f.defaultKey, Tree.text (Tree.ofLexemes f.ty), f.name⟩

/-- The rows of fields, in the order of their declaration. -/
def rows : List Field → Except Fault (List Row)
  | [] => .ok []
  | f :: fs => do
    let row ← f.row
    let rest ← rows fs
    return row.toList ++ rest

/-- The name table of a record, whose keys have to be distinct. -/
def table (fs : List Field) : Except Fault (List Row) := do
  let rs ← rows fs
  if (rs.map (·.key)).Nodup then return rs else throw .keysNotUnique

/-- How an item is decoded if it selects no capability. -/
def Shape.strategy : Shape → Except Fault Strategy
  | fields fs => do return .record (← table fs)
  | tuple | unit => .error .fieldsNotNamed
  | alternatives | union => .error .notRecordLike

/-- What is derived for an item, or the first fault. -/
def expand (item : Item) : Except Fault Expansion := do
  let strategy ←
    match ← Capability.ofAttributes item.attributes with
    | some c => pure (.capability c)
    | none => item.shape.strategy
  return ⟨item.self, item.params.map fun p => Tree.text p.declared, strategy⟩

/-- The traits implemented for an item. -/
def Expansion.traits (e : Expansion) : List String :=
  match e.strategy with
  | .record _ => ["::unspool::Decode", "::unspool::Record"]
  | .capability _ => ["::unspool::Decode"]

end Derive

end Decant
