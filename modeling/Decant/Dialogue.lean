import Decant.Registry
import Decant.Source

/-!
# Dialogues with a source

* `Dialogue` — decoding as a tree: at each node it asks the source a question, asks the registry
  for a compiled type, or leaves a note, and goes on as the answer says.
* `Dialogue.run` — lead a dialogue with a source and a registry.
* `Dialogue.serving` — answer the first request for a type with a tag taken off in advance.
* `Dialogue.run_bind` — one dialogue after the other is led as the two in turn.

A dialogue knows nothing of the source that answers it, so what holds of every branch of the tree
holds for every source.
-/

namespace Decant

/-- What is noted down while decoding. -/
inductive Note where
  /-- A field of a record was skipped because its name is not registered. -/
  | discarded (name : String)
  /-- A stream ended after this many elements. -/
  | streamEnded (count : Nat)
  /-- A stream failed after this many elements. -/
  | streamFailed (count : Nat) (e : Error)
  deriving DecidableEq, Repr

/-- The wording of a note. -/
def Note.message : Note → String
  | discarded name => "discarding unknown field " ++ Quoted.text name
  | streamEnded count => s!"stream ended after {count} elements"
  | streamFailed count e => s!"stream failed after {count} elements: {e.message}"

/-- Decoding as a tree of questions. -/
inductive Dialogue (α : Type) : Type where
  | done (a : α)
  /-- The budget of steps ran out. -/
  | exhausted
  /-- Ask the source. -/
  | ask (c : Call) (next : Answer c → Dialogue α)
  /-- Ask the registry for a compiled type. -/
  | resolve (t : Ty) (next : Compiled → Dialogue α)
  | note (n : Note) (rest : Dialogue α)

/-- How a dialogue went. -/
structure Run (σ α : Type) where
  /-- The result, absent if the budget of steps ran out. -/
  answer : Option α
  /-- What is left of the source. -/
  source : σ
  registry : Registry
  /-- The calls made of the source, with their answers, in order. -/
  exchanges : List Exchange
  notes : List Note

namespace Dialogue

variable {σ α β : Type}

/-- Go on with another dialogue. -/
protected def bind : Dialogue α → (α → Dialogue β) → Dialogue β
  | done a, f => f a
  | exhausted, _ => exhausted
  | ask c next, f => ask c fun a => (next a).bind f
  | resolve t next, f => resolve t fun p => (next p).bind f
  | note n rest, f => note n (rest.bind f)

instance : Monad Dialogue where
  pure := done
  bind := Dialogue.bind

/-- Answer the first request for a type with a tag taken off in advance. -/
def serving (tag : Tag) : Dialogue α → Dialogue α
  | done a => done a
  | exhausted => exhausted
  | ask .type next => next (.ok tag)
  | ask c next => ask c fun a => (next a).serving tag
  | resolve t next => resolve t fun p => (next p).serving tag
  | note n rest => note n (rest.serving tag)

/-- Lead a dialogue with a source and a registry. -/
def run [TokenSource σ] (s : Schema) : Dialogue α → σ → Registry → Run σ α
  | done a, src, reg => ⟨some a, src, reg, [], []⟩
  | exhausted, src, reg => ⟨none, src, reg, [], []⟩
  | ask c next, src, reg =>
    let (a, src) := TokenSource.answer c src
    let r := (next a).run s src reg
    { r with exchanges := ⟨c, a⟩ :: r.exchanges }
  | resolve t next, src, reg =>
    let (p, reg) := reg.resolve s t
    (next p).run s src reg
  | note n rest, src, reg =>
    let r := rest.run s src reg
    { r with notes := n :: r.notes }

/-- Lead a second dialogue after a first that was finished. -/
def andRun [TokenSource σ] (s : Schema) (r : Run σ α) (f : α → Dialogue β) : Run σ β :=
  match r.answer with
  | none => ⟨none, r.source, r.registry, r.exchanges, r.notes⟩
  | some a =>
    let q := (f a).run s r.source r.registry
    { q with exchanges := r.exchanges ++ q.exchanges, notes := r.notes ++ q.notes }

theorem run_bind [TokenSource σ] (s : Schema) (d : Dialogue α) (f : α → Dialogue β) (src : σ)
    (reg : Registry) : (d.bind f).run s src reg = andRun s (d.run s src reg) f := by
  induction d generalizing src reg with
  | done a => simp [Dialogue.bind, run, andRun]
  | exhausted => simp [Dialogue.bind, run, andRun]
  | ask c next ih =>
    simp only [Dialogue.bind, run, ih]
    unfold andRun
    split <;> simp_all
  | resolve t next ih => simp only [Dialogue.bind, run, ih]
  | note n rest ih =>
    simp only [Dialogue.bind, run, ih]
    unfold andRun
    split <;> simp_all

/-- What is done at the end of a dialogue only changes what it comes to. -/
theorem run_map [TokenSource σ] (s : Schema) (d : Dialogue α) (f : α → β) (src : σ) (reg : Registry) :
    let r := d.run s src reg
    (d.bind fun a => done (f a)).run s src reg =
      ⟨r.answer.map f, r.source, r.registry, r.exchanges, r.notes⟩ := by
  intro r
  rw [run_bind]
  unfold andRun
  split
  · simp [r, *]
  · simp [r, *, run]

theorem bind_done (d : Dialogue α) : d.bind done = d := by
  induction d with
  | done a => rfl
  | exhausted => rfl
  | ask c next ih => simp only [Dialogue.bind, ih]
  | resolve t next ih => simp only [Dialogue.bind, ih]
  | note n rest ih => simp only [Dialogue.bind, ih]

theorem bind_bind {γ : Type} (d : Dialogue α) (f : α → Dialogue β) (g : β → Dialogue γ) :
    (d.bind f).bind g = d.bind fun a => (f a).bind g := by
  induction d with
  | done a => rfl
  | exhausted => rfl
  | ask c next ih => simp only [Dialogue.bind, ih]
  | resolve t next ih => simp only [Dialogue.bind, ih]
  | note n rest ih => simp only [Dialogue.bind, ih]

instance : LawfulMonad Dialogue :=
  LawfulMonad.mk' Dialogue (fun d => bind_done d) (fun _ _ => rfl) fun d f g => bind_bind d f g

end Dialogue

end Decant
