import Decant.Decoding

/-!
# Contents that are found to be the same

* `Value.same?`, `Content.same?` — a proof that two values, or two contents, are the same, if one is found.
  Of floats none is found, since it cannot be decided whether two of them are the same.
* `Ending.same?` — the same for how a decoding ended.
* `eq_some_of_same` — what a decoding that can be evaluated answers.
-/

namespace Decant

/-- A proof that something is made of the same, if it is. -/
def sameOf? {α β : Type} [DecidableEq α] (make : α → β) (a b : α) : Option (PLift (make a = make b)) :=
  if h : a = b then some ⟨congrArg make h⟩ else none

namespace Value

mutual
/-- A proof that two values are the same, if one is found. -/
def same? : (a b : Value) → Option (PLift (a = b))
  | nil, nil => some ⟨rfl⟩
  | bool a, bool b => sameOf? bool a b
  | int a, int b => sameOf? int a b
  | uint a, uint b => sameOf? uint a b
  | string a, string b => sameOf? string a b
  | bytes a, bytes b => sameOf? bytes a b
  | time a, time b => sameOf? time a b
  | duration a, duration b => sameOf? duration a b
  | error a, error b => sameOf? error a b
  | array a, array b => (sameItems? a b).map fun h => ⟨congrArg array h.down⟩
  | map a, map b => (sameEntries? a b).map fun h => ⟨congrArg map h.down⟩
  | _, _ => none

def sameItems? : (as bs : List Value) → Option (PLift (as = bs))
  | [], [] => some ⟨rfl⟩
  | a :: as, b :: bs => do
    let h ← same? a b
    let hs ← sameItems? as bs
    return ⟨by rw [h.down, hs.down]⟩
  | _, _ => none

def sameEntries? : (as bs : List (Value × Value)) → Option (PLift (as = bs))
  | [], [] => some ⟨rfl⟩
  | (k, v) :: as, (l, w) :: bs => do
    let hk ← same? k l
    let hv ← same? v w
    let hs ← sameEntries? as bs
    return ⟨by rw [hk.down, hv.down, hs.down]⟩
  | _, _ => none
end

end Value

namespace Content

mutual
/-- A proof that two contents are the same, if one is found. -/
def same? : (a b : Content) → Option (PLift (a = b))
  | unit, unit => some ⟨rfl⟩
  | bool a, bool b => sameOf? bool a b
  | int a, int b => sameOf? int a b
  | text a, text b => sameOf? text a b
  | blob a, blob b => sameOf? blob a b
  | time a, time b => sameOf? time a b
  | duration a, duration b => sameOf? duration a b
  | error a, error b => sameOf? error a b
  | dynamic a, dynamic b => (a.same? b).map fun h => ⟨congrArg dynamic h.down⟩
  | list a, list b => (sameItems? a b).map fun h => ⟨congrArg list h.down⟩
  | map a, map b => (sameEntries? a b).map fun h => ⟨congrArg map h.down⟩
  | absent, absent => some ⟨rfl⟩
  | present a, present b => (same? a b).map fun h => ⟨congrArg present h.down⟩
  | record a, record b => (sameItems? a b).map fun h => ⟨congrArg record h.down⟩
  | _, _ => none

def sameItems? : (as bs : List Content) → Option (PLift (as = bs))
  | [], [] => some ⟨rfl⟩
  | a :: as, b :: bs => do
    let h ← same? a b
    let hs ← sameItems? as bs
    return ⟨by rw [h.down, hs.down]⟩
  | _, _ => none

def sameEntries? : (as bs : List (Content × Content)) → Option (PLift (as = bs))
  | [], [] => some ⟨rfl⟩
  | (k, v) :: as, (l, w) :: bs => do
    let hk ← same? k l
    let hv ← same? v w
    let hs ← sameEntries? as bs
    return ⟨by rw [hk.down, hv.down, hs.down]⟩
  | _, _ => none
end

end Content

/-- A proof that two decodings ended in the same way, if one is found. -/
def Ending.same? : (a b : Ending Content Unit) → Option (PLift (a = b))
  | ⟨.ok (), c⟩, ⟨.ok (), d⟩ => (c.same? d).map fun h => ⟨by rw [h.down]⟩
  | ⟨.error a, c⟩, ⟨.error b, d⟩ =>
    if he : a = b then
      (c.same? d).map fun h => ⟨by rw [he, h.down]⟩
    else none
  | _, _ => none

/-- An answer that is found to be the same as an ending is that ending. -/
theorem eq_some_of_same {a : Option (Ending Content Unit)} {e : Ending Content Unit}
    (h : a.any (fun x => (x.same? e).isSome) = true) : a = some e := by
  obtain ⟨x, hx, hsame⟩ := (Option.any_eq_true _ _).1 h
  obtain ⟨⟨rfl⟩, -⟩ := Option.isSome_iff_exists.1 hsame
  exact hx

end Decant
