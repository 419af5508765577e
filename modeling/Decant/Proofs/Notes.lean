import Decant.Proofs.Composition
import Decant.Stream

/-!
# What is noted while decoding

* `Dialogue.Notes` — every note that a dialogue may leave meets a condition.
* `Note.closes` — the notes that a stream leaves when it is over.
* `Setup.direct_notes` — decoding a value leaves none of them, whatever its type and whatever takes
  over map entries.
-/

namespace Decant

/-- Whether a note says that a stream is over. -/
def Note.closes : Note → Bool
  | discarded _ => false
  | streamEnded _ | streamFailed _ _ => true

namespace Dialogue

variable {α β : Type} {P : Note → Prop}

/-- Every note that may be left meets a condition. -/
def Notes (P : Note → Prop) : Dialogue α → Prop
  | done _ | exhausted => True
  | ask _ next => ∀ a, (next a).Notes P
  | resolve _ next => ∀ f, (next f).Notes P
  | note n rest => P n ∧ rest.Notes P

theorem Notes.bind {d : Dialogue α} {f : α → Dialogue β} (h : d.Notes P) (hf : ∀ a, (f a).Notes P) :
    (d.bind f).Notes P := by
  induction d with
  | done a => exact hf a
  | exhausted => trivial
  | ask c next ih => exact fun a => ih a (h a)
  | resolve t next ih => exact fun p => ih p (h p)
  | note n rest ih => exact ⟨h.1, ih h.2⟩

theorem Notes.serving {d : Dialogue α} (h : d.Notes P) (tag : Tag) : (d.serving tag).Notes P := by
  induction d with
  | done a => trivial
  | exhausted => trivial
  | ask c next ih =>
    cases c with
    | type => exact h (.ok tag)
    | _ => exact fun a => ih a (h a)
  | resolve t next ih => exact fun p => ih p (h p)
  | note n rest ih => exact ⟨h.1, ih h.2⟩

theorem Notes.run {σ : Type} [TokenSource σ] {d : Dialogue α} (h : d.Notes P) (s : Schema) (src : σ)
    (reg : Registry) : ∀ n ∈ (d.run s src reg).notes, P n := by
  induction d generalizing src reg with
  | done a => nofun
  | exhausted => nofun
  | ask c next ih => exact ih _ (h _) _ _
  | resolve t next ih => exact ih _ (h _) _ _
  | note n rest ih =>
    intro n' hn
    rcases List.mem_cons.1 hn with rfl | hn
    · exact h.1
    · exact ih h.2 src reg n' hn

end Dialogue

namespace Decoding

open Dialogue (Notes)

variable {δ γ α β : Type} {P : Note → Prop}

theorem notes_bind {m : Decoding δ α} {f : α → Decoding δ β} (h : ∀ d, (m d).Notes P)
    (hf : ∀ a d, (f a d).Notes P) (d : δ) : ((m >>= f) d).Notes P := by
  apply (h d).bind
  rintro ⟨result, d'⟩
  cases result with
  | ok a => exact hf a d'
  | error e => trivial

theorem notes_attempt {m : Decoding δ α} (h : ∀ d, (m d).Notes P) (d : δ) :
    (attempt m d).Notes P := (h d).bind fun _ => trivial

theorem notes_truncated {m : Decoding δ α} (h : ∀ d, (m d).Notes P) (d : δ) :
    (truncated m d).Notes P := (h d).bind fun _ => trivial

theorem notes_focus (part : δ → γ) (put : γ → δ → δ) {m : Decoding γ α} (h : ∀ d, (m d).Notes P)
    (d : δ) : (focus part put m d).Notes P := by
  rw [focus_apply]
  exact (h (part d)).bind fun _ => trivial

/-- No note says that a stream is over. -/
def closesNothing : Law where
  Holds m := ∀ d, (m d).Notes fun n => n.closes = false
  quiet h d := by
    obtain ⟨e, he⟩ := h d
    rw [he]
    trivial
  exhausted _ := trivial
  ask _ _ _ := fun _ => trivial
  hasNext c i := by
    apply notes_bind (notes_attempt (m := ask (.next c i)) fun _ _ => trivial)
    intro r d
    cases r with
    | ok a => trivial
    | error e => cases e <;> trivial
  discarded _ _ := ⟨rfl, trivial⟩
  bind := notes_bind
  recover h hf he := by
    apply notes_bind (notes_attempt h)
    intro r d
    cases r with
    | ok a => exact hf a d
    | error e =>
      obtain ⟨d', hd⟩ := he e d
      rw [hd]
      trivial
  fresh start := fun h d => by
    rw [fresh_apply]
    exact (h start).bind fun _ => trivial
  focus part put := notes_focus part put
  truncated := notes_truncated
  takesOne h d := by
    obtain ⟨next, hd, hf, ht⟩ := h d
    rw [hd]
    intro a
    cases a with
    | error e =>
      rw [hf]
      trivial
    | ok tag =>
      have htag := ht tag
      generalize next (.ok tag) = x at htag
      cases htag with
      | refuse e => trivial
      | take _ hf hr =>
        intro a
        cases a with
        | error e =>
          rw [hf]
          trivial
        | ok a =>
          obtain ⟨e, he, -⟩ := hr a
          rw [he]
          trivial

/-- Routines leave no notes of their own. -/
theorem perform_notes {call : Ty → Strategy} {rounds : Nat} (hc : ∀ t, closesNothing.Holds (call t)) :
    ∀ {h : Handle} (i : Nat) (r : Routine δ h), closesNothing.Holds (perform call rounds i r)
  | _, _, .skip, _ => trivial
  | _, _, .fail _, _ => trivial
  | _, _, .update _, _ => trivial
  | _, i, .choose f, x => perform_notes hc i (f x.state) x
  | _, i, .seq a b, x => notes_bind (perform_notes hc i a) (fun _ => perform_notes hc i b) x
  | _, i, .attempt body _, x =>
    notes_bind (notes_attempt (perform_notes hc i body))
      (fun _ => closesNothing.quiet fun _ => ⟨_, rfl⟩) x
  | _, _, .decode t start finish, x => by
    rw [perform, decodeInto_apply]
    apply Dialogue.Notes.bind (handshake_notes x)
    rintro ⟨result, y⟩
    cases result with
    | ok u => exact (hc t _).bind fun _ => trivial
    | error e => trivial
  | _, _, .array body finish, x =>
    goThrough_notes (fun i => perform_notes hc i (body i)) finish x
  | _, _, .map body finish, x =>
    goThrough_notes (fun i => perform_notes hc i (body i)) finish x
  | _, i, .key body, x => by
    rw [perform, onChild]
    exact notes_focus _ _ (perform_notes hc i body) x
  | _, i, .value body, x => by
    rw [perform, onChild]
    exact notes_focus _ _ (perform_notes hc i body) x
where
  handshake_notes (x : Hand δ) : (handshake x).Notes fun n => n.closes = false := by
    obtain ⟨state, pending⟩ := x
    cases pending with
    | none => trivial
    | some i => exact fun _ => trivial
  goThrough_notes {c : Container} {body : Nat → Decoding (Hand δ) Unit}
      (hb : ∀ i, closesNothing.Holds (body i)) (finish : Tag → Nat → δ → δ) :
      closesNothing.Holds (goThrough c rounds body finish) := by
    intro x
    rw [goThrough_apply]
    apply Dialogue.Notes.bind (handshake_notes x)
    rintro ⟨result, y⟩
    cases result with
    | error e => trivial
    | ok u =>
      intro a
      cases a with
      | error e => trivial
      | ok tag => exact (closesNothing.walk c tag hb y).bind fun _ => trivial

end Decoding

namespace Setup

open Decoding

theorem closesNothing_kept (s : Setup) : s.KeptBy closesNothing where
  custom n hc _ c := by
    rw [custom_apply]
    exact (perform_notes hc 0 _ _).bind fun _ => trivial
  entry n i hc _ := perform_notes hc i _

/-- **Decoding a value never notes that a stream is over.** -/
theorem direct_notes (s : Setup) (n : Nat) (t : Ty) : closesNothing.Holds (s.direct n t) :=
  direct_holds closesNothing s.closesNothing_kept n t

end Setup

end Decant
