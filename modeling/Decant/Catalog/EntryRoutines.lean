import Decant.Decoder

/-!
# A catalog of entry routines

* `EntryRoutine.pairs` — take entries as they are, which is what decoding does on its own.
* Others change entries, drop part of them, or fail on one of them.
-/

namespace Decant

namespace EntryRoutine

/-- Hold a content decoded afresh. -/
def hold (t : Ty) (initial : Content) : Routine Entries .decoder :=
  .read t initial fun c s => { s with held := s.held ++ [c] }

/-- Hold a value of no fixed type. -/
def holdValue : Routine Entries .decoder := hold .dynamic (.dynamic .nil)

/-- Forget what is held. -/
def release : Routine Entries .entry := .update fun s => { s with held := [] }

/-- Make an entry. -/
def push (entry : Value × Value) (s : Entries) : Entries := { s with made := s.made ++ [entry] }

/-- Use what was held as a key and a value. -/
def withHeld (use : Content → Content → Entries → Entries) : Routine Entries .entry :=
  .update fun s =>
    match s.held with
    | [k, v] => use k v s
    | _ => s

/-- Hold the key and the value of an entry, both of no fixed type, and use them. -/
def withBoth (use : Value → Value → Entries → Entries) : Routine Entries .entry :=
  .block [release, .key holdValue, .value holdValue,
    withHeld fun k v => use k.toDynamic v.toDynamic]

/-- Take entries as they are. -/
def pairs : EntryRoutine := fun _ => withBoth fun k v => push (k, v)

/-- Exchange keys and values. -/
def swap : EntryRoutine := fun _ => withBoth fun k v => push (v, k)

/-- Mark text keys and multiply integers by ten, wrapping at 64 bits. -/
def timesTen : EntryRoutine := fun _ =>
  .block [release, .key (hold .text (.text "")), .value (hold .i64 (.int 0)),
    withHeld fun k v s =>
      match k, v with
      | .text k, .int n => push (.string ("k:" ++ k), .int (Int64.ofInt n * 10)) s
      | _, _ => s]

/-- Replace the value of the first entry with an equal key. -/
def replace (key value : Value) : List (Value × Value) → Option (List (Value × Value))
  | [] => none
  | (k, v) :: rest =>
    if k == key then some ((k, value) :: rest) else (replace key value rest).map ((k, v) :: ·)

/-- Keep one entry for equal keys, with the last value. -/
def dedup : EntryRoutine := fun _ => withBoth fun k v s =>
  match replace k v s.made with
  | some made => { s with made := made }
  | none => push (k, v) s

/-- Take keys only, numbered. -/
def keys : EntryRoutine := fun i =>
  .block [release, .key holdValue, .update fun s =>
    match s.held with
    | [k] => push (k.toDynamic, .uint i.toUInt64) s
    | _ => s]

/-- Take entries as they are, and fail after the one at position 1. -/
def failing (e : Error) : EntryRoutine := fun i =>
  .seq (pairs i) (if i = 1 then .fail e else .skip)

/-- Refuse the entry at position 1. -/
def refusing : EntryRoutine := failing (.text "entry 1 refused")

/-- Signal the end at the entry at position 1. -/
def ending : EntryRoutine := failing .ended

end EntryRoutine

end Decant
