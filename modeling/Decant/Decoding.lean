import Decant.Dialogue

/-!
# Decoding into a destination

* `Decoding` — a dialogue that works on a destination and ends with a result or an error. What was
  done to the destination before an error stays.
* `Decoding.isolate` — work on a destination apart, and get it back with the result.
* `Decoding.fresh` — a destination that is kept only after success.
* `Decoding.focus` — work on a part of the destination, in place.
* `Strategy` — how one value is decoded; `Decoding.through` — get hold of a strategy and use it.
-/

namespace Decant

/-- How decoding ends: with a result or an error, and what the destination holds then. -/
structure Ending (δ α : Type) where
  result : Except Error α
  dest : δ

/-- A dialogue that works on a destination. -/
def Decoding (δ α : Type) : Type := δ → Dialogue (Ending δ α)

/-- How one value is decoded into a destination. The result is the tag observed. -/
abbrev Strategy : Type := Decoding Content Tag

namespace Decoding

variable {δ γ α β : Type}

/-- The error that a result carries. -/
def failure? : Except Error α → Option Error
  | .error e => some e
  | .ok _ => none

/-- End with a result. -/
protected def pure (a : α) : Decoding δ α := fun d => .done ⟨.ok a, d⟩

/-- Go on with a result; an error ends decoding. -/
protected def bind (m : Decoding δ α) (f : α → Decoding δ β) : Decoding δ β := fun d =>
  (m d).bind fun e =>
    match e.result with
    | .ok a => f a e.dest
    | .error err => .done ⟨.error err, e.dest⟩

instance : Monad (Decoding δ) where
  pure := Decoding.pure
  bind := Decoding.bind

theorem bind_apply (m : Decoding δ α) (f : α → Decoding δ β) (d : δ) :
    (m >>= f) d = (m d).bind fun e =>
      match e.result with
      | .ok a => f a e.dest
      | .error err => .done ⟨.error err, e.dest⟩ := rfl

instance : LawfulMonad (Decoding δ) := by
  refine LawfulMonad.mk' (Decoding δ) (fun m => funext fun d => ?_) (fun _ _ => rfl)
    (fun m f g => funext fun d => ?_)
  · change (m d).bind _ = m d
    refine Eq.trans (congrArg (m d).bind (funext fun e => ?_)) (m d).bind_done
    obtain ⟨result, dest⟩ := e
    cases result <;> rfl
  · rw [bind_apply, bind_apply, Dialogue.bind_bind, bind_apply]
    refine congrArg (m d).bind (funext fun e => ?_)
    obtain ⟨result, dest⟩ := e
    cases result <;> rfl

/-- End with an error. -/
def fail (err : Error) : Decoding δ α := fun d => .done ⟨.error err, d⟩

/-- Run decoding to its end, and get the result or the error. -/
def attempt (m : Decoding δ α) : Decoding δ (Except Error α) := fun d =>
  (m d).bind fun e => .done ⟨.ok e.result, e.dest⟩

instance : MonadExceptOf Error (Decoding δ) where
  throw := fail
  tryCatch m h := Decoding.bind (attempt m) fun
    | .ok a => Decoding.pure a
    | .error e => h e

instance : MonadStateOf δ (Decoding δ) where
  get := fun d => .done ⟨.ok d, d⟩
  set d := fun _ => .done ⟨.ok (), d⟩
  modifyGet f := fun d => .done ⟨.ok (f d).1, (f d).2⟩

/-- Stop because the budget of steps ran out. -/
def exhausted : Decoding δ α := fun _ => .exhausted

/-- Ask the source. -/
def ask (c : Call) : Decoding δ c.Reply := fun d => .ask c fun a => .done ⟨a, d⟩

/-- Ask the registry for a compiled type. -/
def resolve (t : Ty) : Decoding δ Compiled := fun d => .resolve t fun f => .done ⟨.ok f, d⟩

/-- Leave a note. -/
def note (n : Note) : Decoding δ Unit := fun d => .note n (.done ⟨.ok (), d⟩)

/-- End with a result or an error that is at hand. -/
def ofResult : Except Error α → Decoding δ α
  | .ok a => pure a
  | .error e => fail e

/-- An end signal that leaves this decoding reads as a truncated stream. -/
def truncated (m : Decoding δ α) : Decoding δ α := fun d =>
  (m d).bind fun e => .done ⟨e.result.mapError Error.truncate, e.dest⟩

/-- Answer the first request for a type with a tag taken off in advance. -/
def serving (tag : Tag) (m : Decoding δ α) : Decoding δ α := fun d => (m d).serving tag

/-- Work on a destination apart, and get it back with the result or the error. -/
def isolate (start : γ) (m : Decoding γ α) : Decoding δ (Except Error α × γ) := fun d =>
  (m start).bind fun e => .done ⟨.ok (e.result, e.dest), d⟩

/-- Work on a fresh destination, and get it after success. -/
def fresh (start : γ) (m : Decoding γ α) : Decoding δ (α × γ) := do
  let (r, x) ← isolate start m
  let a ← ofResult r
  return (a, x)

/-- Get hold of a strategy and decode a value by it. -/
def through (get : Decoding Content Strategy) : Strategy := do
  let f ← get
  f

/-- Work on a part of the destination in place; what was done to it stays also after an error. -/
def focus (part : δ → γ) (put : γ → δ → δ) (m : Decoding γ α) : Decoding δ α := do
  let d ← get
  let (r, x) ← isolate (part d) m
  set (put x d)
  ofResult r

theorem fresh_apply (start : γ) (m : Decoding γ α) (d : δ) :
    fresh start m d = (m start).bind fun e => .done ⟨e.result.map (·, e.dest), d⟩ := by
  refine (Dialogue.bind_bind _ _ _).trans (congrArg _ (funext fun e => ?_))
  obtain ⟨result, dest⟩ := e
  cases result <;> rfl

theorem focus_apply (part : δ → γ) (put : γ → δ → δ) (m : Decoding γ α) (d : δ) :
    focus part put m d = (m (part d)).bind fun e => .done ⟨e.result, put e.dest d⟩ := by
  refine (Dialogue.bind_bind _ _ _).trans (congrArg _ (funext fun e => ?_))
  obtain ⟨result, dest⟩ := e
  cases result <;> rfl

end Decoding

end Decant
