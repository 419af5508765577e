import Decant.Decoding.Dynamic

/-!
# Decoding records

* `Decoding.field` — decode one field of a record into the member it addresses.
* `Decoding.record` — decode a record through its name table.

A record is changed as its fields come, each from the content its member has. It is reset to its
initial content by nil, and by any failure after its tag was observed.
-/

namespace Decant

namespace Decoding

/-- Decode the value of a field into the member that its slot addresses. Without a slot the value is
dropped. -/
def intoSlot (resolve nested : Ty → Decoding Content Strategy) : Option Slot → Decoding Content Unit
  | some (.member n t) => do
    let _ ← focus (Content.member n) (Content.setMember n) (through (nested t))
  | some (.unsupported path) => fail (.unsupported path)
  | none => discard (through (resolve .dynamic))

/-- Decode one field of a record: its name, the move to the value, and the value. A name that is
not registered is noted. -/
def field (resolve nested : Ty → Decoding Content Strategy) (fields : Fields Slot) (i : Nat) :
    Decoding Content Unit := do
  let tag : Tag ← ask .type
  let name ← readString tag .string
  if (fields.get? name).isNone then note (.discarded name)
  let _ ← ask (.toValue i)
  intoSlot resolve nested (fields.get? name)

/-- Decode a record. After a failure past the tag, and for nil, it is reset to its initial
content. -/
def record (initial : Content) (resolve nested : Ty → Decoding Content Strategy) (rounds : Nat)
    (fields : Fields Slot) : Strategy := do
  let tag : Tag ← ask .type
  match ← attempt (walk .map rounds tag (field resolve nested fields)) with
  | .error e =>
    set initial
    fail e
  | .ok _ =>
    if tag = .nil then set initial
    return tag

end Decoding

end Decant
