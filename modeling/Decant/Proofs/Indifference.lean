import Decant.Catalog.EntryRoutines
import Decant.Catalog.Unruly
import Decant.Proofs.CatalogContract
import Decant.Proofs.Enough
import Decant.Proofs.Sameness
import Decant.Proofs.TwoDestinations

/-!
# What a destination held does not count

* `Schema.replaces` — the types that forget what their destination held, once they succeed.
* `Routine.Abreast` — two routines that ask their decoders the same from two states. A routine that does
  so with itself is indifferent to its destination (`Routine.Indifferent`).
* `Schema.Indifferent` — the user code that is handed what the destination held does not let it count. Lists,
  arrays and maps hand nothing on (`Schema.indifferent_containers`).
* `Setup.decode_indifferent` — decoding into two destinations makes the same calls, has the same result
  and leaves the same notes, and a type that replaces its destination leaves the same content.

User code that looks at its destination first may do anything (`Setup.onceOnly_minds_destination`). What takes
over the entries of maps never gets to see a destination.
-/

namespace Decant

/-! ## Types that forget -/

/-- The types that replace what their destination held: all but records and the types that decode by
hand or from a text, which may add to it. -/
def Schema.replaces (s : Schema) : Ty → Prop
  | .scalar _ | .errorValue | .dynamic | .list _ | .array _ _ | .map _ _ _ => True
  | .option t | .box t => s.replaces t
  | .named name => ∃ initial build, s.find? name = some (.error initial build)
  | .unsupported _ _ => False

/-- The contents that an optional type lays down, and those of what it holds. -/
def Ty.Admits : Ty → Content → Prop
  | .option _, .absent => True
  | .option t, .present c => t.Admits c
  | .option _, _ => False
  | .box t, c => t.Admits c
  | _, _ => True

theorem Schema.admits_initialAt (s : Schema) : ∀ {n : Nat} {t : Ty}, t.size < n →
    t.Admits (s.initialAt n t)
  | 0, _, h => absurd h (Nat.not_lt_zero _)
  | _ + 1, .option _, _ => trivial
  | n + 1, .box t, h => by
    have hlt : t.size < n := by
      simp only [Ty.size] at h
      omega
    show t.Admits (s.initialAt n t)
    exact s.admits_initialAt hlt
  | _ + 1, .scalar _, _ | _ + 1, .errorValue, _ | _ + 1, .dynamic, _ | _ + 1, .unsupported _ _, _
  | _ + 1, .list _, _ | _ + 1, .array _ _, _ | _ + 1, .map _ _ _, _ | _ + 1, .named _, _ => trivial

/-- A type admits its initial content. -/
theorem Schema.admits_initial (s : Schema) (t : Ty) : t.Admits (s.initial t) :=
  s.admits_initialAt (by omega)

/-- Two contents are equal if a type replaces what it finds, and admits what it found. -/
def Schema.Forgotten (s : Schema) (t : Ty) (found found' left left' : Content) : Prop :=
  s.replaces t → t.Admits found → t.Admits found' → left = left'

/-- A strategy that makes the same of every two destinations, and forgets them if its type does. -/
def Strategy.Indifferent (s : Schema) (t : Ty) (f : Strategy) : Prop :=
  ∀ c c', Dialogue.Abreast (Decoding.Matched (fun _ => s.Forgotten t c c') fun _ => Decoding.Any)
    (f c) (f c')

namespace Decoding

open Dialogue (Abreast)

variable {s : Schema}

theorem indifferent_any {f : Strategy} {t : Ty} (h : f.Indifferent s t) : Indifferent Any f Any :=
  fun c c' _ => (h c c').mono fun _ _ he => he.mono (fun _ _ _ _ => trivial) fun _ _ _ h => h

/-- A strategy that leaves nothing of its destination. -/
theorem Indifferent.forgets {f : Strategy} (h : Indifferent Any f Eq) (t : Ty) : f.Indifferent s t :=
  fun c c' => (h c c' trivial).mono fun _ _ he =>
    he.mono (fun _ _ _ heq _ _ _ => heq) fun _ _ _ h => h

/-- A strategy of a type that does not forget. -/
theorem Indifferent.keeps {f : Strategy} (h : Indifferent Any f Any) {t : Ty} (ht : ¬ s.replaces t) :
    f.Indifferent s t :=
  fun c c' => (h c c' trivial).mono fun _ _ he =>
    he.mono (fun _ _ _ _ hr => absurd hr ht) fun _ _ _ h => h

/-! ### Optional contents -/

theorem admits_start {inner : Ty} {c : Content} (h : (Ty.option inner).Admits c) :
    inner.Admits (optionStart s inner c) := by
  cases c with
  | present c => exact h
  | absent => exact s.admits_initial inner
  | _ => cases h

theorem optionEnd_of_admits {inner : Ty} {c : Content} (h : (Ty.option inner).Admits c) (tag : Tag)
    (d : Content) : optionEnd c ⟨.ok tag, d⟩ = if tag = .nil then .absent else .present d := by
  cases c with
  | present c => cases tag <;> rfl
  | absent => cases tag <;> rfl
  | _ => cases h

/-- What is decoded in place is decoded from what was present, so an optional type forgets what it
held if the type inside does. -/
theorem option_indifferent {nested : Ty → Strategy} {inner : Ty}
    (h : (nested inner).Indifferent s inner) :
    Strategy.Indifferent s (.option inner) (option s (fun u => Pure.pure (nested u)) inner) := by
  intro c c'
  rw [option_apply, option_apply]
  apply (h (optionStart s inner c) (optionStart s inner c')).bind
  intro e e' he
  cases he with
  | error _ => exact .done (.error trivial)
  | @ok tag d d' hd =>
    refine .done (.ok fun hs hc hc' => ?_)
    have hdest : d = d' := hd hs (admits_start hc) (admits_start hc')
    rw [optionEnd_of_admits hc, optionEnd_of_admits hc', hdest]

end Decoding

/-! ## Routines -/

/-- Two routines ask their decoders the same from two states, however the decoders end, and fail with
the same error; a condition on that error and on both states holds at the end. What two states hold may be
handed to types in `P`, of which it is only known that some forget it; any type may decode what is the same in
both. Containers are gone through with an invariant of both states. -/
inductive Routine.Abreast (s : Schema) (P : Ty → Prop) {δ : Type} : {h : Handle} → Routine δ h →
    Routine δ h → (Option Error → δ → δ → Prop) → δ → δ → Prop
  | skip {h : Handle} {Q : Option Error → δ → δ → Prop} {x y : δ} (hq : Q none x y) :
      Abreast s P (.skip (h := h)) .skip Q x y
  | fail {h : Handle} {Q : Option Error → δ → δ → Prop} {x y : δ} {e : Error} (hq : Q (some e) x y) :
      Abreast s P (.fail (h := h) e) (.fail e) Q x y
  | update {h : Handle} {Q : Option Error → δ → δ → Prop} {x y : δ} {f g : δ → δ}
      (hq : Q none (f x) (g y)) : Abreast s P (.update (h := h) f) (.update g) Q x y
  | choose {h : Handle} {Q : Option Error → δ → δ → Prop} {x y : δ} {f g : δ → Routine δ h}
      (hf : Abreast s P (f x) (g y) Q x y) : Abreast s P (.choose f) (.choose g) Q x y
  | seq {h : Handle} {R Q : Option Error → δ → δ → Prop} {x y : δ} {a a' b b' : Routine δ h}
      (ha : Abreast s P a a' R x y) (hb : ∀ x y, R none x y → Abreast s P b b' Q x y)
      (he : ∀ e x y, R (some e) x y → Q (some e) x y) : Abreast s P (.seq a b) (.seq a' b') Q x y
  | attempt {h : Handle} {R Q : Option Error → δ → δ → Prop} {x y : δ} {body body' : Routine δ h}
      {finish finish' : Option Error → δ → δ} (hb : Abreast s P body body' R x y)
      (hq : ∀ e x y, R e x y → Q none (finish e x) (finish' e y)) :
      Abreast s P (.attempt body finish) (.attempt body' finish') Q x y
  | decode {Q : Option Error → δ → δ → Prop} {x y : δ} {t : Ty} (ht : P t) {start start' : δ → Content}
      {finish finish' : Content → Option Error → δ → δ}
      (hq : ∀ c c', s.Forgotten t (start x) (start' y) c c' →
        Q none (finish c none x) (finish' c' none y))
      (he : ∀ c c' e, Q (some e) (finish c (some e) x) (finish' c' (some e) y)) :
      Abreast s P (.decode t start finish) (.decode t start' finish') Q x y
  | afresh {Q : Option Error → δ → δ → Prop} {x y : δ} (t : Ty) {start start' : δ → Content}
      {finish finish' : Content → Option Error → δ → δ} (h : start x = start' y)
      (hq : ∀ c e, Q e (finish c e x) (finish' c e y)) :
      Abreast s P (.decode t start finish) (.decode t start' finish') Q x y
  | array {Q : Option Error → δ → δ → Prop} {x y : δ} {body body' : Nat → Routine δ .decoder}
      {finish finish' : Tag → Nat → δ → δ} (J : Nat → δ → δ → Prop) (hj : J 0 x y)
      (hb : ∀ i x y, J i x y → Abreast s P (body i) (body' i) (fun e x y => match e with
        | none => J (i + 1) x y
        | some e => Q (some e.truncate) x y) x y)
      (hq : ∀ i x y tag, J i x y → Q none (finish tag i x) (finish' tag i y))
      (he : ∀ i x y e, J i x y → Q (some e) x y) :
      Abreast s P (.array body finish) (.array body' finish') Q x y
  | map {Q : Option Error → δ → δ → Prop} {x y : δ} {body body' : Nat → Routine δ .entry}
      {finish finish' : Tag → Nat → δ → δ} (J : Nat → δ → δ → Prop) (hj : J 0 x y)
      (hb : ∀ i x y, J i x y → Abreast s P (body i) (body' i) (fun e x y => match e with
        | none => J (i + 1) x y
        | some e => Q (some e.truncate) x y) x y)
      (hq : ∀ i x y tag, J i x y → Q none (finish tag i x) (finish' tag i y))
      (he : ∀ i x y e, J i x y → Q (some e) x y) :
      Abreast s P (.map body finish) (.map body' finish') Q x y
  | key {Q : Option Error → δ → δ → Prop} {x y : δ} {body body' : Routine δ .decoder}
      (hb : Abreast s P body body' Q x y) : Abreast s P (.key body) (.key body') Q x y
  | value {Q : Option Error → δ → δ → Prop} {x y : δ} {body body' : Routine δ .decoder}
      (hb : Abreast s P body body' Q x y) : Abreast s P (.value body) (.value body') Q x y

/-- A routine for which it does not count what its destination held, which it may hand to types in `P`. -/
def Routine.Indifferent (s : Schema) (P : Ty → Prop) (r : Routine Work .decoder) : Prop :=
  ∀ c c', r.Abreast s P r (fun _ _ _ => True) ⟨c, .unit⟩ ⟨c', .unit⟩

namespace Decoding

open Dialogue (Abreast)

variable {s : Schema} {P : Ty → Prop} {δ : Type} {rounds : Nat} {call : Ty → Strategy}

/-- Two routines leave their decoders with the same move still to make, and a condition on the error
and on both states holds. -/
def Sides (Q : Option Error → δ → δ → Prop) (e : Option Error) (x y : Hand δ) : Prop :=
  x.pending = y.pending ∧ Q e x.state y.state

/-- Two routines come to matching ends. -/
abbrev Level (Q : Option Error → δ → δ → Prop) : Ending (Hand δ) Unit → Ending (Hand δ) Unit → Prop :=
  Matched (fun _ => Sides Q none) fun e => Sides Q (some e)

variable {Q : Option Error → δ → δ → Prop} {x y : δ} {pending : Option Nat}

/-- Both make the move that is pending, or have none to make. -/
theorem handshake_abreast (x y : δ) (pending : Option Nat) :
    Abreast (Matched (fun _ x' y' => x' = ⟨x, none⟩ ∧ y' = ⟨y, none⟩)
      fun _ x' y' => x' = ⟨x, none⟩ ∧ y' = ⟨y, none⟩) (handshake ⟨x, pending⟩)
      (handshake ⟨y, pending⟩) := by
  cases pending with
  | none => exact .done (.ok ⟨rfl, rfl⟩)
  | some i =>
    refine .ask (.toValue i) fun a => ?_
    cases a with
    | ok a => exact .done (.ok ⟨rfl, rfl⟩)
    | error e => exact .done (.error ⟨rfl, rfl⟩)

section

variable {t : Ty} {start start' : δ → Content} {finish finish' : Content → Option Error → δ → δ}
  {R : Content → Content → Prop}

/-- Decoding from two contents comes to whatever the strategy of the type comes to. -/
theorem decodeInto_level {F : Error → Content → Content → Prop}
    (hc : Abreast (Matched (fun _ => R) F) (call t (start x)) (call t (start' y)))
    (hq : ∀ c c', R c c' → Q none (finish c none x) (finish' c' none y))
    (he : ∀ c c' e, F e c c' → Q (some e.truncate) (finish c (some e.truncate) x) (finish' c' (some e.truncate) y))
    (hm : ∀ e, Q (some e) (finish (start x) (some e) x) (finish' (start' y) (some e) y)) :
    Abreast (Level Q) (decodeInto call t start finish ⟨x, pending⟩)
      (decodeInto call t start' finish' ⟨y, pending⟩) := by
  rw [decodeInto_apply, decodeInto_apply]
  apply (handshake_abreast x y pending).bind
  intro e e' h
  cases h with
  | error h =>
    obtain ⟨rfl, rfl⟩ := h
    exact .done (.error ⟨rfl, hm _⟩)
  | ok h =>
    obtain ⟨rfl, rfl⟩ := h
    apply hc.bind
    intro e e' h
    cases h with
    | error h => exact .done (.error ⟨rfl, he _ _ _ h⟩)
    | ok h => exact .done (.ok ⟨rfl, hq _ _ h⟩)

theorem decodeInto_abreast (hc : (call t).Indifferent s t)
    (hq : ∀ c c', s.Forgotten t (start x) (start' y) c c' → Q none (finish c none x) (finish' c' none y))
    (he : ∀ c c' e, Q (some e) (finish c (some e) x) (finish' c' (some e) y)) :
    Abreast (Level Q) (decodeInto call t start finish ⟨x, pending⟩)
      (decodeInto call t start' finish' ⟨y, pending⟩) :=
  decodeInto_level (hc (start x) (start' y)) hq (fun _ _ _ _ => he _ _ _) fun _ => he _ _ _

/-- What starts from the same content ends with the same content, whatever the type. -/
theorem decodeInto_afresh (h : start x = start' y)
    (hq : ∀ c e, Q e (finish c e x) (finish' c e y)) :
    Abreast (Level Q) (decodeInto call t start finish ⟨x, pending⟩)
      (decodeInto call t start' finish' ⟨y, pending⟩) := by
  have hsame : Abreast (Matched (fun _ => Eq) fun _ => Eq) (call t (start x)) (call t (start' y)) := by
    rw [h]
    refine .refl (fun ⟨result, c⟩ => ?_) _
    cases result with
    | ok a => exact .ok rfl
    | error e => exact .error rfl
  refine decodeInto_level hsame (fun c _ hc => hc ▸ hq c none) (fun c _ e hc => hc ▸ hq c _) fun e => ?_
  rw [h]
  exact hq _ _

end

theorem goThrough_abreast (c : Container) {body body' : Nat → Decoding (Hand δ) Unit}
    {finish finish' : Tag → Nat → δ → δ} {J : Nat → δ → δ → Prop} (hj : J 0 x y)
    (hb : ∀ i x y, J i x y → ∀ pending, Abreast (Level fun e x y => match e with
      | none => J (i + 1) x y
      | some e => Q (some e.truncate) x y) (body i ⟨x, pending⟩) (body' i ⟨y, pending⟩))
    (hq : ∀ i x y tag, J i x y → Q none (finish tag i x) (finish' tag i y))
    (he : ∀ i x y e, J i x y → Q (some e) x y) :
    Abreast (Level Q) (goThrough c rounds body finish ⟨x, pending⟩)
      (goThrough c rounds body' finish' ⟨y, pending⟩) := by
  rw [goThrough_apply, goThrough_apply]
  apply (handshake_abreast x y pending).bind
  intro e e' h
  cases h with
  | error h =>
    obtain ⟨rfl, rfl⟩ := h
    exact .done (.error ⟨rfl, he 0 _ _ _ hj⟩)
  | ok h =>
    obtain ⟨rfl, rfl⟩ := h
    refine .ask .type fun a => ?_
    cases a with
    | error e => exact .done (.error ⟨rfl, he 0 _ _ _ hj⟩)
    | ok tag =>
      have hbody : ∀ i (x y : Hand δ), Sides (fun _ => J i) none x y →
          Abreast (Matched (fun _ => Sides (fun _ => J (i + 1)) none) fun e => Sides Q (some e.truncate))
            (body i x) (body' i y) := by
        rintro i ⟨x, pending⟩ ⟨y, pending'⟩ ⟨hp, h⟩
        obtain rfl : pending = pending' := hp
        exact (hb i x y h pending).mono fun _ _ he => he.mono (fun _ _ _ h => h) fun _ _ _ h => h
      have hwalk : Abreast (Matched (fun i => Sides (fun _ => J i) none) fun e => Sides Q (some e.truncate))
          (walk c rounds tag body ⟨x, none⟩) (walk c rounds tag body' ⟨y, none⟩) :=
        walk_abreast c rounds tag (fun i _ _ e h => ⟨h.1, he i _ _ _ h.2⟩) hbody ⟨rfl, hj⟩
      apply hwalk.bind
      intro e e' h
      cases h with
      | error h => exact .done (.error h)
      | ok h => exact .done (.ok ⟨h.1, hq _ _ _ tag h.2⟩)

theorem onChild_abreast {m m' : Decoding (Hand δ) Unit} {pending child : Option Nat}
    (h : Abreast (Level Q) (m ⟨x, child⟩) (m' ⟨y, child⟩)) :
    Abreast (Level Q) (onChild child m ⟨x, pending⟩) (onChild child m' ⟨y, pending⟩) := by
  rw [onChild, onChild, focus_apply, focus_apply]
  apply h.bind
  intro e e' he
  cases he with
  | error h => exact .done (.error ⟨rfl, h.2⟩)
  | ok h => exact .done (.ok ⟨rfl, h.2⟩)

/-- **Routines that go abreast are carried out abreast**, if the strategies that are handed what their states
hold are indifferent to it. -/
theorem perform_abreast (hc : ∀ t, P t → (call t).Indifferent s t) {h : Handle} {r r' : Routine δ h}
    (hr : r.Abreast s P r' Q x y) (i : Nat) (pending : Option Nat) :
    Abreast (Level Q) (perform call rounds i r ⟨x, pending⟩) (perform call rounds i r' ⟨y, pending⟩) := by
  induction hr generalizing i pending with
  | skip hq => exact .done (.ok ⟨rfl, hq⟩)
  | fail hq => exact .done (.error ⟨rfl, hq⟩)
  | update hq => exact .done (.ok ⟨rfl, hq⟩)
  | choose _ ih => exact ih i pending
  | seq _ _ he iha ihb =>
    apply (iha i pending).bind
    intro e e' h
    cases h with
    | error h => exact .done (.error ⟨h.1, he _ _ _ h.2⟩)
    | @ok _ x y h =>
      obtain ⟨x, pending⟩ := x
      obtain ⟨y, pending'⟩ := y
      obtain rfl : pending = pending' := h.1
      exact ihb x y h.2 i pending
  | @attempt _ _ _ x y body body' finish finish' _ hq ih =>
    show Abreast _ (((perform call rounds i body ⟨x, pending⟩).bind _).bind _)
      (((perform call rounds i body' ⟨y, pending⟩).bind _).bind _)
    rw [Dialogue.bind_bind, Dialogue.bind_bind]
    apply (ih i pending).bind
    intro e e' h
    cases h with
    | error h => exact .done (.ok ⟨h.1, hq _ _ _ h.2⟩)
    | ok h => exact .done (.ok ⟨h.1, hq _ _ _ h.2⟩)
  | decode ht hq he => exact decodeInto_abreast (hc _ ht) hq he
  | afresh t h hq => exact decodeInto_afresh h hq
  | array J hj _ hq he ih => exact goThrough_abreast .array hj (fun i x y h => ih i x y h i) hq he
  | map J hj _ hq he ih => exact goThrough_abreast .map hj (fun i x y h => ih i x y h i) hq he
  | key _ ih =>
    rw [perform, perform]
    exact onChild_abreast (ih i none)
  | value _ ih =>
    rw [perform, perform]
    exact onChild_abreast (ih i (some i))

end Decoding

/-! ## The strategy of a type -/

/-- Types that hand what they hold to types among them only, and for whose user code it does not count: the
routines of those that decode by hand, and whether one that decodes from a text refuses it. An optional or an
owned type hands on what it holds, and a record its members. -/
structure Schema.Indifferent (s : Schema) (P : Ty → Prop) : Prop where
  option : ∀ t, P (.option t) → P t
  box : ∀ t, P (.box t) → P t
  record : ∀ name members registrations own, P (.named name) →
    s.find? name = some (.record members registrations own) → ∀ m ∈ members, P m.ty
  custom : ∀ name initial uses routine, P (.named name) →
    s.find? name = some (.custom initial uses routine) → routine.Indifferent s P
  text : ∀ name initial accept, P (.named name) → s.find? name = some (.text initial accept) →
    ∀ c c' b, (accept c b).2 = (accept c' b).2

/-- The types whose items, keys and values are decoded afresh. -/
def Ty.IsContainer : Ty → Prop
  | .list _ | .array _ _ | .map _ _ _ => True
  | _ => False

/-- Lists, arrays and maps hand nothing on, whatever is in them. -/
theorem Schema.indifferent_containers (s : Schema) : s.Indifferent Ty.IsContainer where
  option _ h := h.elim
  box _ h := h.elim
  record _ _ _ _ h := h.elim
  custom _ _ _ _ h := h.elim
  text _ _ _ h := h.elim

namespace Decoding

variable {s : Schema} {P : Ty → Prop} {rounds : Nat} {call : Ty → Strategy}

theorem custom_indifferent (rounds : Nat) {routine : Routine Work .decoder}
    (hr : routine.Indifferent s P) (hc : ∀ t, P t → (call t).Indifferent s t) :
    Indifferent Any (custom call rounds routine) Any := by
  intro c c' _
  rw [custom_apply, custom_apply]
  apply (perform_abreast hc (hr c c') 0 none).bind
  intro e e' he
  cases he with
  | ok _ => exact .done (.ok trivial)
  | error _ => exact .done (.error trivial)

end Decoding

namespace Setup

open Decoding

variable {s : Setup} {P : Ty → Prop}

/-- **The strategy of a type is indifferent to its destination** if the types that are handed it are, and
forgets it if its type does. -/
theorem direct_indifferent (hs : s.schema.Indifferent P) (n : Nat) {t : Ty} (ht : P t) :
    (s.direct n t).Indifferent s.schema t := by
  induction n generalizing t with
  | zero => exact fun _ _ => .exhausted
  | succ n ih =>
    unfold direct
    cases t with
    | scalar k => exact (Indifferent.scalar k).forgets _
    | errorValue => exact (Indifferent.error _ _).forgets _
    | dynamic => exact (Indifferent.dynamic _).forgets _
    | unsupported name path => exact (Indifferent.fail _).keeps id
    | list t =>
      simp only [Schema.plan]
      split
      · exact Indifferent.bytes.forgets _
      · exact (Indifferent.list _ _ t).forgets _
    | array t length => exact (Indifferent.array _ _ t length).forgets _
    | map kind key value =>
      cases kind with
      | hashed =>
        simp only [Schema.plan]
        split
        · exact (Indifferent.textMap _ _ value).forgets _
        · exact (Indifferent.mapOf _ _ key value).forgets _
      | sorted => exact (Indifferent.mapOf _ _ key value).forgets _
    | option t => exact option_indifferent (ih (hs.option t ht))
    | box t =>
      show Strategy.Indifferent _ _ (through (pure (s.direct n t)))
      rw [through_pure]
      exact ih (hs.box t ht)
    | named name =>
      have hkeeps : (∀ initial build, s.schema.find? name ≠ some (.error initial build)) →
          ¬ s.schema.replaces (.named name) := by
        rintro h ⟨initial, build, hb⟩
        exact h initial build hb
      simp only [Schema.plan]
      cases hd : s.schema.find? name with
      | none => exact (Indifferent.fail _).keeps (hkeeps (by simp [hd]))
      | some d =>
        cases d with
        | record members registrations own =>
          refine (Indifferent.record _ fun field i u hu => ?_).keeps (hkeeps (by simp [hd]))
          obtain ⟨m, hm, rfl⟩ := List.mem_map.1 (Schema.mem_types_of_slot hu)
          exact indifferent_any (ih (hs.record name members registrations own ht hd m hm))
        | custom initial uses routine =>
          have hcustom := custom_indifferent n (hs.custom name initial uses routine ht hd) fun u hu => ih hu
          show Strategy.Indifferent _ _ (custom (fun u => through (pure (s.direct n u))) n routine)
          simp only [through_pure]
          exact hcustom.keeps (hkeeps (by simp [hd]))
        | text initial accept =>
          exact (Indifferent.text (hs.text name initial accept ht hd)).keeps (hkeeps (by simp [hd]))
        | error initial build => exact (Indifferent.error _ build).forgets _

end Setup

/-! ## The catalog -/

/-- Whether a type decodes itself from a text. -/
def Definition.isText : Definition → Bool
  | text _ _ => true
  | _ => false

namespace Catalog

variable {s : Schema} {P : Ty → Prop}

/-- Work that differs in the destination at most. -/
def Aside (_ : Option Error) (x y : Work) : Prop := x.scratch = y.scratch

/-- A content that is decoded afresh is collected alike. -/
theorem collect_abreast {t : Ty} {initial : Content} {x y : Work} {Q : Option Error → Work → Work → Prop}
    (h : x.scratch = y.scratch) (hq : ∀ e x y, Aside e x y → Q e x y) :
    (collect t initial).Abreast s P (collect t initial) Q x y := by
  refine .afresh t rfl fun c e => hq _ _ _ ?_
  cases e with
  | none =>
    show Content.list _ = Content.list _
    rw [h]
  | some e => exact h

theorem range_indifferent {initial : Content} {uses : List Ty} {routine : Routine Work .decoder}
    (h : range = .custom initial uses routine) : routine.Indifferent s P := by
  cases h
  intro c c'
  refine .seq (R := Aside) (.update rfl) (fun x y h => ?_) fun _ _ _ _ => trivial
  refine .seq (R := Aside) ?_ (fun x y h => ?_) fun _ _ _ _ => trivial
  · refine .array (fun _ => Aside none) h (fun i x y h => ?_) (fun i x y tag h => ?_)
      fun _ _ _ _ h => h
    · exact collect_abreast h fun e _ _ h => by cases e <;> exact h
    · show Work.scratch (if tag = .nil then _ else _) = Work.scratch (if tag = .nil then _ else _)
      split
      · rfl
      · exact congrArg Content.present h
  · refine .seq (R := fun _ _ _ => True) (.choose ?_) (fun _ _ _ => .skip trivial) fun _ _ _ _ => trivial
    rw [show x.scratch = y.scratch from h]
    split
    · exact .update trivial
    · exact .fail trivial
    · exact .update trivial

theorem pairs_indifferent {initial : Content} {uses : List Ty} {routine : Routine Work .decoder}
    (h : pairs = .custom initial uses routine) : routine.Indifferent s P := by
  cases h
  intro c c'
  refine .map (fun _ _ _ => True) trivial (fun i x y _ => ?_) (fun _ _ _ _ _ => trivial)
    fun _ _ _ _ _ => trivial
  refine .seq (R := Aside) (.update rfl) (fun x y h => ?_) fun _ _ _ _ => trivial
  refine .seq (R := Aside) (.key (collect_abreast h fun _ _ _ h => h)) (fun x y h => ?_)
    fun _ _ _ _ => trivial
  refine .seq (R := Aside) (.value (collect_abreast h fun _ _ _ h => h)) (fun x y h => ?_)
    fun _ _ _ _ => trivial
  exact .seq (R := Aside) (.update h) (fun _ _ _ => .skip trivial) fun _ _ _ _ => trivial

theorem echo_indifferent {initial : Content} {uses : List Ty} {routine : Routine Work .decoder}
    (h : echo = .custom initial uses routine) (ht : P .dynamic) : routine.Indifferent s P := by
  cases h
  exact fun c c' => .decode ht (fun _ _ _ => trivial) fun _ _ _ => trivial

theorem ender_indifferent {initial : Content} {uses : List Ty} {routine : Routine Work .decoder}
    (h : ender = .custom initial uses routine) (ht : P .i64) : routine.Indifferent s P := by
  cases h
  intro c c'
  -- The integer takes the place of what was there, so both go on with the same number.
  refine .seq (R := fun e x y => e = none → x.dest = y.dest)
    (.decode ht (fun d d' hd _ => hd trivial trivial trivial) fun _ _ _ => nofun) (fun x y h => ?_)
    fun _ _ _ _ => trivial
  refine .seq (R := fun _ _ _ => True) (.choose ?_) (fun _ _ _ => .skip trivial) fun _ _ _ _ => trivial
  rw [show x.dest = y.dest from h rfl]
  split
  · split
    · exact .fail trivial
    · exact .skip trivial
  · exact .skip trivial

/-- Whether a text is refused does not depend on those before. -/
theorem text_indifferent {d : Definition} (h : d ∈ [code, color, accumulator]) {initial : Content}
    {accept : Content → ByteArray → Content × Option Error} (hd : d = .text initial accept)
    (c c' : Content) (b : ByteArray) : (accept c b).2 = (accept c' b).2 := by
  simp only [List.mem_cons, List.not_mem_nil, or_false] at h
  rcases h with rfl | rfl | rfl <;> cases hd
  · dsimp only
    split
    · split <;> rfl
    · rfl
  · dsimp only
    split <;> rfl
  · rfl

/-- **No type of the catalog lets it count what its destination held.** -/
theorem schema_indifferent (types : List Ty) : (schema types).Indifferent fun _ => True where
  option _ h := h
  box _ h := h
  record _ _ _ _ h _ _ _ := h
  custom name initial uses routine _ h := by
    rcases schema_custom types h with h | h | h | h
    · exact range_indifferent h.symm
    · exact pairs_indifferent h.symm
    · exact echo_indifferent h.symm trivial
    · exact ender_indifferent h.symm trivial
  text name initial accept _ h := by
    have hfilter : (definitions.filter fun entry => entry.2.isText).map (·.2) =
      [code, color, accumulator] := rfl
    have hmem := schema_mem types (p := Definition.isText) (fun _ => rfl) h rfl
    rw [hfilter] at hmem
    exact text_indifferent hmem rfl

end Catalog

/-! ## Decoding -/

/-- Two runs show the same, but for what they leave in their destinations. That is the same too if it
was replaced. -/
structure Run.Indifferent {σ α : Type} (replaced : Prop) (r q : Run σ (Ending Content α)) : Prop where
  result : r.answer.map Ending.result = q.answer.map Ending.result
  source : r.source = q.source
  exchanges : r.exchanges = q.exchanges
  notes : r.notes = q.notes
  content : replaced → ∀ a c, r.answer = some ⟨.ok a, c⟩ → q.answer = some ⟨.ok a, c⟩

namespace Setup

open Decoding

variable {s : Setup} {σ : Type} [TokenSource σ] {reg : Registry}

/-- What goes as a decoding without a registry is as indifferent as that. -/
theorem run_indifferent {α : Type} {m m' : Decoding Content α} {a b : Content} {replaced : Prop}
    (hm : Same s.schema False m m')
    (h : Dialogue.Abreast (Matched (fun _ x y => replaced → x = y) fun _ => Any) (m' a) (m' b))
    (hr : reg.Sound s.schema) (src : σ) :
    Run.Indifferent replaced ((m a).run s.schema src reg) ((m b).run s.schema src reg) := by
  have halike : ∀ c, ((m c).run s.schema src reg).Alike ((m' c).run s.schema src reg) := fun c =>
    (hm c).alike src hr reg
  obtain ⟨ha, hs, hx, hn⟩ := h.run s.schema src reg
  have hleft := halike a
  have hright := halike b
  refine ⟨?_, ?_, ?_, ?_, fun hrep t c hc => ?_⟩
  · rw [hleft.answer, hright.answer]
    generalize ((m' a).run s.schema src reg).answer = o, ((m' b).run s.schema src reg).answer = o' at ha
    cases ha with
    | none => rfl
    | some he => exact congrArg some he.result_eq
  · rw [hleft.source, hright.source, hs]
  · rw [hleft.exchanges, hright.exchanges, hx]
  · rw [hleft.notes, hright.notes, hn]
  · rw [hleft.answer] at hc
    rw [hright.answer]
    rw [hc] at ha
    generalize ((m' b).run s.schema src reg).answer = o at ha
    cases ha with
    | some he =>
      cases he with
      | ok heq => rw [heq hrep]

/-- **What a destination held does not count.** Decoding into two destinations has the same result,
makes the same calls and leaves the same notes, be it the strategy of a type, which gives the tag, or a
decoder. A type that replaces its destination leaves the same content. User code that is handed what the
destination held is asked not to let it count. -/
theorem decode_indifferent {P : Ty → Prop} (hs : s.schema.Indifferent P) (hr : reg.Reachable s.schema)
    (n : Nat) {t : Ty} (ht : P t) (a b : Content) (src : σ) :
    let replaced := s.schema.replaces t ∧ t.Admits a ∧ t.Admits b
    Run.Indifferent replaced ((s.call n t a).run s.schema src reg) ((s.call n t b).run s.schema src reg) ∧
      Run.Indifferent replaced ((s.decode n t a).run s.schema src reg)
        ((s.decode n t b).run s.schema src reg) := by
  intro replaced
  have hdirect : Dialogue.Abreast (Matched (fun _ x y => replaced → x = y) fun _ => Any)
      (s.direct n t a) (s.direct n t b) := by
    refine (direct_indifferent hs n ht a b).mono fun e e' he => ?_
    exact he.mono (fun _ _ _ h hrep => h hrep.1 hrep.2.1 hrep.2.2) fun _ _ _ h => h
  constructor
  · exact run_indifferent (s.call_same n t) hdirect hr.sound src
  · refine run_indifferent (s.decode_same n t) ?_ hr.sound src
    refine Dialogue.Abreast.bind (R := Matched (fun _ x y => replaced → x = y) fun _ => Any)
      (abreast_bind hdirect fun _ _ _ h => .done (.ok h)) fun e e' he => ?_
    cases he with
    | ok h => exact .done (.ok h)
    | error h => exact .done (.error h)

/-- A list of maps, decoded by hand into an optional list that was absent, and into one that was
present; and a list of texts that a type takes but once, into one that held such a text, and into none. -/
theorem decode_indifferent_pairs :
    let s : Setup := ⟨Catalog.schema [], some EntryRoutine.swap⟩
    let t : Ty := .option (.list (.named "Pairs"))
    let src : Script :=
      ⟨[.enter .array (some 1), .enter .map none, .next, .string "a".toUTF8, .value, .int 1, .stop,
        .close, .close]⟩
    let found : Content := .present (.list [.list [], .unit])
    let r := (s.decode 9 t found).run s.schema src (.empty true)
    let s' := plain ⟨[("OnceOnly", Catalog.onceOnly)]⟩
    let t' : Ty := .list (.named "OnceOnly")
    let src' : Script := ⟨[.enter .array (some 2), .string "a".toUTF8, .next, .string "b".toUTF8, .close]⟩
    let r' := (s'.decode 9 t' (.list [.bool true])).run s'.schema src' (.empty true)
    (s.schema.Indifferent (fun _ => True) ∧ (Registry.empty true).Reachable s.schema ∧ s.schema.replaces t ∧
      t.Admits found ∧ t.Admits .absent ∧ ∃ c, r.answer = some ⟨.ok (), c⟩ ∧
        ((s.decode 9 t .absent).run s.schema src (.empty true)).answer = some ⟨.ok (), c⟩) ∧
      s'.schema.Indifferent Ty.IsContainer ∧ t'.IsContainer ∧
        r'.answer = some ⟨.ok (), .list [.bool true, .bool true]⟩ ∧
        ((s'.decode 9 t' .unit).run s'.schema src' (.empty true)).answer = r'.answer := by
  intro s t src found r s' t' src' r'
  have hs : s.schema.Indifferent fun _ => True := Catalog.schema_indifferent []
  have hs' : s'.schema.Indifferent Ty.IsContainer := s'.schema.indifferent_containers
  have hr : (Registry.empty true).Reachable s.schema := .empty true
  have hr' : (Registry.empty true).Reachable s'.schema := .empty true
  have hok' : r'.answer = some ⟨.ok (), .list [.bool true, .bool true]⟩ := eq_some_of_same (by decide +kernel)
  have h' := (decode_indifferent hs' hr' 9 (t := t') trivial (.list [.bool true]) .unit src').2
  have hlist := h'.content ⟨trivial, trivial, trivial⟩ _ _ hok'
  obtain ⟨c, hok⟩ : ∃ c, r.answer = some ⟨.ok (), c⟩ := exists_ok (by decide +kernel)
  have h := (decode_indifferent hs hr 9 (t := t) trivial found .absent src).2
  exact ⟨⟨hs, hr, trivial, trivial, trivial, c, hok, h.content ⟨trivial, trivial, trivial⟩ _ _ hok⟩, hs',
    trivial, hok', hlist.trans hok'.symm⟩

/-- A text that is taken but once is taken if the destination holds none, and refused if it holds one. -/
theorem onceOnly_minds_destination :
    let s := plain ⟨[("OnceOnly", Catalog.onceOnly)]⟩
    let t : Ty := .named "OnceOnly"
    let src : Script := ⟨[.string "a".toUTF8]⟩
    (Registry.empty true).Reachable s.schema ∧
      ((s.decode 9 t (.bool false)).run s.schema src (.empty true)).answer = some ⟨.ok (), .bool true⟩ ∧
      ((s.decode 9 t (.bool true)).run s.schema src (.empty true)).answer =
        some ⟨.error (.text "once"), .bool true⟩ :=
  ⟨.empty true, eq_some_of_same (by decide +kernel), eq_some_of_same (by decide +kernel)⟩

end Setup

end Decant
