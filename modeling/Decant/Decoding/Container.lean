import Decant.Decoding.Dynamic

/-!
# Decoding containers

* `Decoding.list`, `Decoding.array` — sequences, of any and of fixed length.
* `Decoding.map` — maps, built apart from fresh entries.
* `Decoding.textMap` — maps from text, filled in place through one scratch entry.
* `Decoding.option` — optional contents.

Lists and maps are built apart and replace the destination at the end. Arrays of fixed length, maps
that are filled in place and present optional contents change it as they go.

How to get at the strategies of nested types is an argument: those that were compiled along with
the container, and those of other types, which the registry holds.
-/

namespace Decant

namespace Decoding

variable {δ : Type}

/-- Decode one item of a list and append it. -/
def item (s : Schema) (t : Ty) (f : Strategy) : Decoding (List Content) Unit := do
  let (_, x) ← fresh (s.initial t) f
  modify (· ++ [x])

/-- Decode a list. -/
def list (s : Schema) (nested : Ty → Decoding Content Strategy) (rounds : Nat) (t : Ty) :
    Strategy := do
  let f ← nested t
  let tag : Tag ← ask .type
  let (_, items) ← fresh [] <| walk .array rounds tag fun _ => item s t f
  set (Content.list items)
  return tag

/-- Decode an array of fixed length. All slots start afresh; elements past the last slot are
dropped, so that the source stays aligned. -/
def array (s : Schema) (resolve nested : Ty → Decoding Content Strategy) (rounds : Nat) (item : Ty)
    (length : Nat) : Strategy := do
  let f ← nested item
  let tag : Tag ← ask .type
  set (Content.list (List.replicate length (s.initial item)))
  let found ← walk .array rounds tag fun i =>
    if i < length then do
      let _ ← focus (Content.item i) (Content.setItem i) f
    else discard (through (resolve .dynamic))
  if tag ≠ .nil ∧ found ≠ length then fail (.lengthMismatch length found)
  return tag

/-- Decode one entry of a map: a fresh key, the move to the value, and a fresh value. -/
def entry (s : Schema) (key value : Ty) (kf vf : Strategy) (i : Nat) :
    Decoding δ (Content × Content) := do
  let (_, k) ← fresh (s.initial key) kf
  let _ ← ask (.toValue i)
  let (_, v) ← fresh (s.initial value) vf
  return (k, v)

/-- Decode a map. The last entry under a key counts. -/
def map (s : Schema) (nested : Ty → Decoding Content Strategy) (rounds : Nat) (key value : Ty) :
    Strategy := do
  let kf ← nested key
  let vf ← nested value
  let tag : Tag ← ask .type
  let (_, c) ← fresh (Content.map []) <| walk .map rounds tag fun i => do
    let (k, v) ← entry s key value kf vf i
    modify (Content.putEntry k v)
  set c
  return tag

/-- A map that is filled in place, with the scratch entry that all of its entries are decoded in. -/
structure Filling where
  made : Content
  key : Content
  value : Content

/-- An emptied or partly filled map, with an empty scratch entry. -/
def Filling.after (s : Schema) (value : Ty) (made : Content) : Filling :=
  ⟨made, s.initial .text, s.initial value⟩

/-- Decode one entry of a map into the scratch entry, and move it from there into the map, which
leaves the scratch entry empty. What an entry that fails has put there is of no use to anyone. -/
def fillEntry (s : Schema) (value : Ty) (kf vf : Strategy) (i : Nat) : Decoding Filling Unit := do
  let _ ← focus Filling.key (fun k m => { m with key := k }) kf
  let _ ← ask (.toValue i)
  let _ ← focus Filling.value (fun v m => { m with value := v }) vf
  modify fun m => Filling.after s value (Content.putEntry m.key m.value m.made)

/-- Decode a map from text in place: it is emptied once the tag was observed, and keeps the entries
that were completed before a failure. -/
def textMap (s : Schema) (resolve : Ty → Decoding Content Strategy) (rounds : Nat) (value : Ty) :
    Strategy := do
  let kf ← resolve .text
  let vf ← resolve value
  let tag : Tag ← ask .type
  set (Content.map [])
  let _ ← focus (Filling.after s value) (fun m _ => m.made) <|
    walk .map rounds tag (fillEntry s value kf vf)
  return tag

/-- The content of a present option. -/
def inside : Content → Content
  | .present c => c
  | c => c

/-- Decode an optional content from its initial content. It stays absent if nil was observed. -/
def optionAfresh (s : Schema) (inner : Ty) (f : Strategy) : Strategy := do
  let (tag, c) ← fresh (s.initial inner) f
  if tag ≠ .nil then set (Content.present c)
  return tag

/-- Decode an optional content: in place if it is present, else from its initial content. It is
absent afterwards exactly if nil was observed. -/
def option (s : Schema) (nested : Ty → Decoding Content Strategy) (inner : Ty) : Strategy := do
  let f ← nested inner
  match ← get with
  | .present _ =>
    let tag ← focus inside (fun c _ => .present c) f
    if tag = .nil then set Content.absent
    return tag
  | _ => optionAfresh s inner f

end Decoding

end Decant
