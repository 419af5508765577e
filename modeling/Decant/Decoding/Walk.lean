import Decant.Decoding

/-!
# Walking through containers

* `Decoding.walk` — go through the elements of an array or the entries of a map, from the observed
  tag to the call that leaves the container; nil is an empty container.
* `Decoding.readText` — the bytes of a string or byte value; nil reads as no bytes.

Only the call that goes on to the next element may end a container. An end signal of any other call
leaves the walk as an error. A declared length is taken as the number of elements, but each of them
still has to be asked for, so it is never trusted for more than that.
-/

namespace Decant

namespace Decoding

variable {δ : Type}

/-- Go on to element `i` of a container, unless there are no more. -/
def hasNext (c : Container) (i : Nat) : Decoding δ Bool := do
  match ← attempt (ask (.next c i)) with
  | .ok _ => return true
  | .error .ended => return false
  | .error e => fail e

/-- Whether there is an element `i`. The first element of a container of known length is there
without asking. -/
def goesOn (c : Container) (length : Option Nat) (i : Nat) : Decoding δ Bool :=
  if length.isNone || i != 0 then hasNext c i else pure true

/-- Go through the elements of a container from element `i` on; the result is their number. The
first number bounds how many rounds are made. -/
def walkFrom (c : Container) (length : Option Nat) (body : Nat → Decoding δ Unit) :
    Nat → Nat → Decoding δ Nat
  | 0, _ => exhausted
  | rounds + 1, i =>
    if length.any (· ≤ i) then return i
    else do
      if ← goesOn c length i then
        body i
        walkFrom c length body rounds (i + 1)
      else return i

/-- Go through a container whose tag was observed. The result is the number of elements. -/
def walk (c : Container) (rounds : Nat) (tag : Tag) (body : Nat → Decoding δ Unit) :
    Decoding δ Nat :=
  if tag = .nil then do
    let _ ← ask .nil
    return 0
  else if tag = c.tag then do
    let length ← ask (.enter c)
    let n ← walkFrom c length body rounds 0
    let _ ← ask (.leave c n)
    return n
  else fail (.typeConversion tag c.tag)

/-- The bytes of a string or byte value whose tag was observed; nil reads as no bytes. -/
def readText (tag expected : Tag) : Decoding δ ByteArray :=
  match tag with
  | .nil => do
    let _ ← ask .nil
    return ByteArray.empty
  | .string => ask .string
  | .bytes => ask .bytes
  | found => fail (.typeConversion found expected)

/-- Well-formed text of a string or byte value whose tag was observed. -/
def readString (tag expected : Tag) : Decoding δ String := do
  let bytes ← readText tag expected
  match Utf8.read bytes with
  | .ok s => return s
  | .error fault => fail (.utf8 fault)

end Decoding

end Decant
