import Decant.Catalog

/-!
# Unruly types

Types with rules of their own that nothing keeps user code from writing. All but one of them are reasons why
a result on all types has a condition on such types; `Catalog.rewording` catches a failure and still meets it.

* `Catalog.quiet` — asks the source for nothing.
* `Catalog.swallowing` — gives up inside of a map, and takes that for a success.
* `Catalog.reporting` — keeps the wording of a failure, which it passes on.
* `Catalog.keeping` — the same, but it succeeds.
* `Catalog.rewording` — takes a failure of its decoder, and fails with another one that quotes it.
* `Catalog.onceOnly` — takes one text, and refuses all others.
-/

namespace Decant

namespace Catalog

/-- Nothing is asked for. -/
def quiet : Definition := .custom .unit [] .skip

/-- A map of which the first entry is refused, which counts as a success. -/
def swallowing : Definition :=
  .custom .unit [] <| .attempt (.map (fun _ => .fail (.text "stop")) fun _ _ w => w) fun _ w => w

/-- Decode an integer, and keep only the wording of the failure, if it fails. -/
def wording : Routine Work .decoder :=
  .decode .i64 (fun _ => .int 0) fun _ e w => { w with dest := .text ((e.map Error.message).getD "") }

/-- The wording of a failure, which is passed on. -/
def reporting : Definition := .custom (.text "") [.i64] wording

/-- The wording of a failure, which goes no further. -/
def keeping : Definition := .custom (.text "") [.i64] (.attempt wording fun _ w => w)

/-- Decode an integer in place, and fail with an error of its own if that fails. -/
def rewording : Definition :=
  .custom (.int 0) [.i64] <| .block [
    .attempt (inPlace .i64) fun e w =>
      { w with scratch := (e.map fun e => .present (.text ("no number: " ++ e.message))).getD .absent },
    .choose fun w =>
      match w.scratch with
      | .present (.text s) => .fail (.text s)
      | _ => .skip]

/-- Whether a text was taken; no second one is. -/
def onceOnly : Definition :=
  .text (.bool false) fun c _ =>
    match c with
    | .bool true => (c, some (.text "once"))
    | _ => (.bool true, none)

end Catalog

end Decant
