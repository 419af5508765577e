import Decant.Content
import Decant.Error
import Decant.Ty

/-!
# Decoding by hand

* `Routine` — what user code does with a decoder, or with one entry of a map, as data: a type with
  decoding rules of its own, and the function that takes map entries over, are routines.
* `Routine.Careful` — a routine that lets every failure of its decoder through.

A routine keeps a state of its own. The changes made before a failure stay.
-/

namespace Decant

/-- What a routine works on: a decoder, or one entry of a map. -/
inductive Handle where
  | decoder
  /-- An entry hands out decoders for its key and its value. -/
  | entry
  deriving DecidableEq, Repr

/-- A program over a decoder or a map entry with a state in `δ`. -/
inductive Routine (δ : Type) : Handle → Type where
  | skip {h : Handle} : Routine δ h
  | fail {h : Handle} (e : Error) : Routine δ h
  /-- Change the state. -/
  | update {h : Handle} (f : δ → δ) : Routine δ h
  /-- Go on as the state says. -/
  | choose {h : Handle} (f : δ → Routine δ h) : Routine δ h
  | seq {h : Handle} (first second : Routine δ h) : Routine δ h
  /-- Run a routine, note how it ended, and go on either way. -/
  | attempt {h : Handle} (body : Routine δ h) (finish : Option Error → δ → δ) : Routine δ h
  /-- Decode one value into a content taken from the state, and put the content back, also after
  a failure, which is then passed on. -/
  | decode (t : Ty) (start : δ → Content) (finish : Content → Option Error → δ → δ) :
      Routine δ .decoder
  /-- Decode an array with a routine for element `n`; the observed tag and the number of elements
  are noted at the end. -/
  | array (body : Nat → Routine δ .decoder) (finish : Tag → Nat → δ → δ) : Routine δ .decoder
  /-- Decode a map with a routine for entry `n`. -/
  | map (body : Nat → Routine δ .entry) (finish : Tag → Nat → δ → δ) : Routine δ .decoder
  /-- Work on the key of an entry through a new decoder. -/
  | key (body : Routine δ .decoder) : Routine δ .entry
  /-- Work on the value of an entry through a new decoder, which moves the source from the key to
  the value before it asks anything else. -/
  | value (body : Routine δ .decoder) : Routine δ .entry

namespace Routine

variable {δ : Type}

/-- Run routines one after the other. -/
def block {h : Handle} : List (Routine δ h) → Routine δ h
  | [] => skip
  | r :: rs => seq r (block rs)

/-- Decode a fresh content of a type and hand it to the state if that succeeds. -/
def read (t : Ty) (initial : Content) (store : Content → δ → δ) : Routine δ .decoder :=
  decode t (fun _ => initial) fun c e s => if e.isNone then store c s else s

/-- A routine without `attempt`: it lets every failure through. -/
inductive Careful : {h : Handle} → Routine δ h → Prop where
  | skip {h : Handle} : Careful (Routine.skip (h := h))
  | fail {h : Handle} (e : Error) : Careful (Routine.fail (h := h) e)
  | update {h : Handle} (f : δ → δ) : Careful (Routine.update (h := h) f)
  | choose {h : Handle} {f : δ → Routine δ h} (hf : ∀ s, Careful (f s)) : Careful (Routine.choose f)
  | seq {h : Handle} {a b : Routine δ h} (ha : Careful a) (hb : Careful b) :
      Careful (Routine.seq a b)
  | decode (t : Ty) (start : δ → Content) (finish : Content → Option Error → δ → δ) :
      Careful (Routine.decode t start finish)
  | array {body : Nat → Routine δ .decoder} (hb : ∀ n, Careful (body n))
      (finish : Tag → Nat → δ → δ) : Careful (Routine.array body finish)
  | map {body : Nat → Routine δ .entry} (hb : ∀ n, Careful (body n))
      (finish : Tag → Nat → δ → δ) : Careful (Routine.map body finish)
  | key {body : Routine δ .decoder} (hb : Careful body) : Careful (Routine.key body)
  | value {body : Routine δ .decoder} (hb : Careful body) : Careful (Routine.value body)

end Routine

/-- The state of a routine that decodes a destination: the destination, and room to work in. -/
structure Work where
  dest : Content
  scratch : Content

/-- The state of a routine that takes over the entries of a map of no fixed type: the entries made
so far, and the contents held while one is made. -/
structure Entries where
  made : List (Value × Value)
  held : List Content

/-- No entries. -/
def Entries.empty : Entries := ⟨[], []⟩

/-- A routine that takes over each entry of maps of no fixed type. -/
abbrev EntryRoutine : Type := Nat → Routine Entries .entry

end Decant
