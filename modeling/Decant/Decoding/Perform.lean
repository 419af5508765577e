import Decant.Decoding.Walk

/-!
# Carrying out routines

* `Hand` — a decoder as a routine sees it: the state of the routine, and the move to a value that
  the source is still to be told of.
* `Decoding.perform` — carry out a routine.
* `Decoding.custom` — decode a destination by a routine, in place.

The decoding of a type is an argument, so that types whose routines decode other types are tied
together elsewhere.
-/

namespace Decant

/-- A decoder as a routine sees it: the state of the routine, and the entry whose key-to-value move
the source is still to be told of. -/
structure Hand (δ : Type) where
  state : δ
  pending : Option Nat

namespace Decoding

variable {δ : Type}

/-- Tell the source of a pending move from a key to its value. The move is never made twice, even
if it fails. -/
def handshake : Decoding (Hand δ) Unit := do
  let h ← get
  match h.pending with
  | none => return ()
  | some i =>
    set { h with pending := none }
    ask (.toValue i)

/-- Change the state of a routine. -/
def change (f : δ → δ) : Decoding (Hand δ) Unit :=
  modify fun h => { h with state := f h.state }

/-- Work through a new decoder on the same state. -/
def onChild (pending : Option Nat) (m : Decoding (Hand δ) Unit) : Decoding (Hand δ) Unit :=
  focus (fun h => ⟨h.state, pending⟩) (fun child h => { h with state := child.state }) m

/-- Decode a value into a content taken from the state, through a decoder that may still have to
move to the value. -/
def decodeInto (call : Ty → Strategy) (t : Ty) (start : δ → Content)
    (finish : Content → Option Error → δ → δ) : Decoding (Hand δ) Unit := do
  match ← attempt (truncated handshake) with
  | .error e =>
    change fun s => finish (start s) (some e) s
    fail e
  | .ok () =>
    let h ← get
    let (r, c) ← isolate (start h.state) (truncated (call t))
    change (finish c (failure? r))
    let _ ← ofResult r

/-- Go through a container for a routine, through a decoder that may still have to move to it. -/
def goThrough (c : Container) (rounds : Nat) (body : Nat → Decoding (Hand δ) Unit)
    (finish : Tag → Nat → δ → δ) : Decoding (Hand δ) Unit := do
  let tag : Tag ← truncated do
    handshake
    ask .type
  let n ← truncated (walk c rounds tag body)
  change (finish tag n)

/-- Carry out a routine. The index is the one of the entry at hand. -/
def perform (call : Ty → Strategy) (rounds : Nat) :
    {h : Handle} → Nat → Routine δ h → Decoding (Hand δ) Unit
  | _, _, .skip => pure ()
  | _, _, .fail e => fail e
  | _, _, .update f => change f
  | _, i, .choose f => do
    let h ← get
    perform call rounds i (f h.state)
  | _, i, .seq a b => do
    perform call rounds i a
    perform call rounds i b
  | _, i, .attempt body finish => do
    let r ← attempt (perform call rounds i body)
    change (finish (failure? r))
  | _, _, .decode t start finish => decodeInto call t start finish
  | _, _, .array body finish =>
    goThrough .array rounds (fun n => perform call rounds n (body n)) finish
  | _, _, .map body finish =>
    goThrough .map rounds (fun n => perform call rounds n (body n)) finish
  | _, i, .key body => onChild none (perform call rounds i body)
  | _, i, .value body => onChild (some i) (perform call rounds i body)

/-- Decode by hand, in place. The observed tag is not known; any but nil serves, so that optional
contents stay present. -/
def custom (call : Ty → Strategy) (rounds : Nat) (routine : Routine Work .decoder) : Strategy := do
  focus (fun c => (⟨⟨c, .unit⟩, none⟩ : Hand Work)) (fun h _ => h.state.dest)
    (perform call rounds 0 routine)
  return .bool

end Decoding

end Decant
