import Decant.Proofs.Contract
import Decant.Proofs.SameData.Strategies

/-!
# Routines on values with the same data

* `Routine.Paired` — two routines that come to related states, whatever their decoders make of values with
  the same data. It is known that successes leave the same; failures may be told apart.
* `Routine.Impartial` — a routine that does not let a caught failure count for what it leaves.
* `Routine.Careful.paired` — one that catches none is an example.
* `Decoding.perform_tandem` — paired routines are carried out side by side.
* `Decoding.custom_steady` — so types that decode by hand are steady.
-/

namespace Decant

/-- On values with the same data, two routines come to states, and to errors if they fail, that are related.
They decode types in `U`, which leave the same if they succeed; of their failures nothing is known, except that
those of types in `F` only differ in the tag that was found. Containers are gone through with an invariant of
both states. -/
inductive Routine.Paired (U F : Ty → Prop) {δ : Type} : {h : Handle} → Routine δ h → Routine δ h →
    (Option (Error × Error) → δ → δ → Prop) → δ → δ → Prop
  | skip {h : Handle} {Q : Option (Error × Error) → δ → δ → Prop} {x y : δ} (hq : Q none x y) :
      Paired U F (.skip (h := h)) .skip Q x y
  | fail {h : Handle} {Q : Option (Error × Error) → δ → δ → Prop} {x y : δ} {e e' : Error}
      (hq : Q (some (e, e')) x y) : Paired U F (.fail (h := h) e) (.fail e') Q x y
  | update {h : Handle} {Q : Option (Error × Error) → δ → δ → Prop} {x y : δ} {f g : δ → δ}
      (hq : Q none (f x) (g y)) : Paired U F (.update (h := h) f) (.update g) Q x y
  | choose {h : Handle} {Q : Option (Error × Error) → δ → δ → Prop} {x y : δ} {f g : δ → Routine δ h}
      (hf : Paired U F (f x) (g y) Q x y) : Paired U F (.choose f) (.choose g) Q x y
  | seq {h : Handle} {R Q : Option (Error × Error) → δ → δ → Prop} {x y : δ} {a a' b b' : Routine δ h}
      (ha : Paired U F a a' R x y) (hb : ∀ x y, R none x y → Paired U F b b' Q x y)
      (he : ∀ e x y, R (some e) x y → Q (some e) x y) : Paired U F (.seq a b) (.seq a' b') Q x y
  | attempt {h : Handle} {R Q : Option (Error × Error) → δ → δ → Prop} {x y : δ} {body body' : Routine δ h}
      {finish finish' : Option Error → δ → δ} (hb : Paired U F body body' R x y)
      (hq : ∀ e x y, R e x y → Q none (finish (e.map (·.1)) x) (finish' (e.map (·.2)) y)) :
      Paired U F (.attempt body finish) (.attempt body' finish') Q x y
  | decode {Q : Option (Error × Error) → δ → δ → Prop} {x y : δ} {t : Ty} (ht : U t) {start start' : δ → Content}
      {finish finish' : Content → Option Error → δ → δ} (h : start x = start' y)
      (hq : ∀ c, Q none (finish c none x) (finish' c none y))
      (he : ∀ c c' e e', (F t → e.Akin e' ∧ c = c') →
        Q (some (e, e')) (finish c (some e) x) (finish' c' (some e') y)) :
      Paired U F (.decode t start finish) (.decode t start' finish') Q x y
  | array {Q : Option (Error × Error) → δ → δ → Prop} {x y : δ} {body body' : Nat → Routine δ .decoder}
      {finish finish' : Tag → Nat → δ → δ} (J : Nat → δ → δ → Prop) (hj : J 0 x y)
      (hb : ∀ i x y, J i x y → Paired U F (body i) (body' i) (fun e x y => match e with
        | none => J (i + 1) x y
        | some (e, e') => Q (some (e.truncate, e'.truncate)) x y) x y)
      (hq : ∀ i x y tag, J i x y → Q none (finish tag i x) (finish' tag i y))
      (he : ∀ i x y e e', J i x y → e.Akin e' → Q (some (e, e')) x y) :
      Paired U F (.array body finish) (.array body' finish') Q x y
  | map {Q : Option (Error × Error) → δ → δ → Prop} {x y : δ} {body body' : Nat → Routine δ .entry}
      {finish finish' : Tag → Nat → δ → δ} (J : Nat → δ → δ → Prop) (hj : J 0 x y)
      (hb : ∀ i x y, J i x y → Paired U F (body i) (body' i) (fun e x y => match e with
        | none => J (i + 1) x y
        | some (e, e') => Q (some (e.truncate, e'.truncate)) x y) x y)
      (hq : ∀ i x y tag, J i x y → Q none (finish tag i x) (finish' tag i y))
      (he : ∀ i x y e e', J i x y → e.Akin e' → Q (some (e, e')) x y) :
      Paired U F (.map body finish) (.map body' finish') Q x y
  | key {Q : Option (Error × Error) → δ → δ → Prop} {x y : δ} {body body' : Routine δ .decoder}
      (hb : Paired U F body body' Q x y) : Paired U F (.key body) (.key body') Q x y
  | value {Q : Option (Error × Error) → δ → δ → Prop} {x y : δ} {body body' : Routine δ .decoder}
      (hb : Paired U F body body' Q x y) : Paired U F (.value body) (.value body') Q x y

namespace Routine

variable {δ : Type} {U F : Ty → Prop}

/-- A routine that leaves the same from values with the same data, whether or not it catches failures on the
way. If its own failures count, they leave the same too, and only differ in the tag that was found. -/
def Impartial (U F : Ty → Prop) (counts : Prop) (r : Routine Work .decoder) : Prop :=
  ∀ c, r.Paired U F r (fun o x y => match o with
    | none => x.dest = y.dest
    | some (e, e') => counts → e.Akin e' ∧ x.dest = y.dest) ⟨c, .unit⟩ ⟨c, .unit⟩

/-- As long as nothing is caught, a routine only goes on after successes, which leave the same. -/
theorem Careful.paired {h : Handle} {r : Routine δ h} (hr : r.Careful) (hd : r.Decodes U U)
    {Q : Option (Error × Error) → δ → δ → Prop} (hn : ∀ x, Q none x x) (hs : ∀ e x y, Q (some e) x y) (x : δ) :
    r.Paired U F r Q x x := by
  induction hr generalizing Q x with
  | skip => exact .skip (hn x)
  | fail => exact .fail (hs _ x x)
  | update => exact .update (hn _)
  | choose _ ih => exact .choose (ih x (hd x) hn hs x)
  | seq _ _ iha ihb =>
    refine .seq (R := fun o x y => o = none → x = y) (iha hd.1 (fun _ _ => rfl) (fun _ _ _ => nofun) x) ?_
      fun e x y _ => hs e x y
    intro x y hxy
    obtain rfl := hxy rfl
    exact ihb hd.2 hn hs x
  | decode => exact .decode hd rfl (fun _ => hn _) fun _ _ _ _ _ => hs _ _ _
  | array _ _ ih =>
    refine .array (fun _ => Eq) rfl ?_ (fun _ x _ _ hxy => hxy ▸ hn _) fun _ _ _ _ _ _ _ => hs _ _ _
    rintro i x _ rfl
    refine ih i (hd i) ?_ ?_ x
    · exact fun _ => rfl
    · exact fun _ _ _ => hs _ _ _
  | map _ _ ih =>
    refine .map (fun _ => Eq) rfl ?_ (fun _ x _ _ hxy => hxy ▸ hn _) fun _ _ _ _ _ _ _ => hs _ _ _
    rintro i x _ rfl
    refine ih i (hd i) ?_ ?_ x
    · exact fun _ => rfl
    · exact fun _ _ _ => hs _ _ _
  | key _ ih => exact .key (ih hd hn hs x)
  | value _ ih => exact .value (ih hd hn hs x)

/-- A routine that lets every failure through is impartial where its own failures do not count. -/
theorem Careful.impartial {r : Routine Work .decoder} {counts : Prop} (hr : r.Careful) (hd : r.Decodes U U)
    (hc : ¬ counts) : r.Impartial U F counts :=
  fun _ => hr.paired hd (fun _ => rfl) (fun _ _ _ h => absurd h hc) _

end Routine

namespace Decoding

open Dialogue (Tandem)
open Strategy (Steady)

variable {U F : Ty → Prop} {δ : Type} {rounds : Nat} {call : Ty → Strategy}

/-- Two routines leave their decoders with the same move still to make, and a condition on the errors and on
both states holds. -/
def SameMove (Q : Option (Error × Error) → δ → δ → Prop) (e : Option (Error × Error)) (x y : Hand δ) : Prop :=
  x.pending = y.pending ∧ Q e x.state y.state

/-- Two routines come to related ends. -/
abbrev Paired (Q : Option (Error × Error) → δ → δ → Prop) :
    Ending (Hand δ) Unit → Cursor → Ending (Hand δ) Unit → Cursor → Prop :=
  Joint (fun _ _ => SameMove Q none) fun e e' => SameMove Q (some (e, e'))

variable {Q : Option (Error × Error) → δ → δ → Prop} {x y : δ} {pending : Option Nat} {c d : Cursor}

/-- Both make the move that is pending, or have none to make. -/
theorem handshake_tandem (x y : δ) (pending : Option Nat) (hc : c.Akin d) :
    Tandem (Joint (fun _ _ x' y' => x' = ⟨x, none⟩ ∧ y' = ⟨y, none⟩)
      fun e e' x' y' => e.Akin e' ∧ x' = ⟨x, none⟩ ∧ y' = ⟨y, none⟩)
      (handshake ⟨x, pending⟩) c (handshake ⟨y, pending⟩) d := by
  cases pending with
  | none => exact .done (.ok ⟨rfl, rfl⟩ hc)
  | some i =>
    refine .ask ?_
    obtain ⟨ha, hd⟩ := Cursor.answer_akin (k := .toValue i) rfl hc
    generalize (TokenSource.answer (.toValue i) c).1 = a, (TokenSource.answer (.toValue i) d).1 = b at ha
    cases ha with
    | ok a => exact .done (.ok ⟨rfl, rfl⟩ hd)
    | error he => exact .done (.error ⟨he, rfl, rfl⟩ hd)

theorem decodeInto_tandem {t : Ty} {start start' : δ → Content} {finish finish' : Content → Option Error → δ → δ}
    (ht : Steady (F t) (call t)) (h : start x = start' y)
    (hq : ∀ c, Q none (finish c none x) (finish' c none y))
    (he : ∀ c c' e e', (F t → e.Akin e' ∧ c = c') →
      Q (some (e, e')) (finish c (some e) x) (finish' c' (some e') y)) (hc : c.Akin d) :
    Tandem (Paired Q) (decodeInto call t start finish ⟨x, pending⟩) c
      (decodeInto call t start' finish' ⟨y, pending⟩) d := by
  rw [decodeInto_apply, decodeInto_apply]
  apply (handshake_tandem x y pending hc).bind
  intro e c e' d hm
  cases hm with
  | error hm hc =>
    obtain ⟨ha, rfl, rfl⟩ := hm
    exact .done (.error ⟨rfl, he _ _ _ _ fun _ => ⟨ha.truncate, h⟩⟩ hc)
  | ok hm hc =>
    obtain ⟨rfl, rfl⟩ := hm
    apply (ht _ _ c d h hc).bind
    intro e c e' d hend
    cases hend with
    | @ok _ _ x' y' _ _ hend hc =>
      obtain ⟨-, rfl⟩ := hend
      exact .done (.ok ⟨rfl, hq _⟩ hc)
    | error hend hc => exact .done (.error ⟨rfl, he _ _ _ _ fun hF => ⟨(hend hF).1.truncate, (hend hF).2⟩⟩ hc)

theorem goThrough_tandem (k : Container) {body body' : Nat → Decoding (Hand δ) Unit}
    {finish finish' : Tag → Nat → δ → δ} {J : Nat → δ → δ → Prop} (hj : J 0 x y)
    (hb : ∀ i x y, J i x y → ∀ pending c d, c.Akin d → Tandem (Paired fun e x y => match e with
      | none => J (i + 1) x y
      | some (e, e') => Q (some (e.truncate, e'.truncate)) x y) (body i ⟨x, pending⟩) c (body' i ⟨y, pending⟩) d)
    (hq : ∀ i x y tag, J i x y → Q none (finish tag i x) (finish' tag i y))
    (he : ∀ i x y e e', J i x y → e.Akin e' → Q (some (e, e')) x y) (hc : c.Akin d) :
    Tandem (Paired Q) (goThrough k rounds body finish ⟨x, pending⟩) c
      (goThrough k rounds body' finish' ⟨y, pending⟩) d := by
  rw [goThrough_apply, goThrough_apply]
  apply (handshake_tandem x y pending hc).bind
  intro e c e' d hm
  cases hm with
  | error hm hc =>
    obtain ⟨ha, rfl, rfl⟩ := hm
    exact .done (.error ⟨rfl, he 0 _ _ _ _ hj ha.truncate⟩ hc)
  | ok hm hc =>
    obtain ⟨rfl, rfl⟩ := hm
    refine .ask ?_
    rcases Cursor.announce_akin hc with ⟨ha, ha'⟩ | ⟨v, w, hvw, ha, ha'⟩
    · rw [ha, ha']
      exact .done (.error ⟨rfl, he 0 _ _ _ _ hj (.refl _)⟩ hc)
    · rw [ha, ha']
      have hcur : Cursor.Akin ⟨none, some v, c.stack⟩ ⟨none, some w, d.stack⟩ :=
        ⟨.none, .some hvw, hc.stack⟩
      have hbody : ∀ i (x y : Hand δ) c d, SameMove (fun _ => J i) none x y → c.Akin d →
          Tandem (Joint (fun _ _ => SameMove (fun _ => J (i + 1)) none)
            fun e e' => SameMove Q (some (e.truncate, e'.truncate))) (body i x) c (body' i y) d := by
        rintro i ⟨x, pending⟩ ⟨y, pending'⟩ c d ⟨hp, h⟩ hc
        obtain rfl : pending = pending' := hp
        apply (hb i x y h pending c d hc).mono
        intro e c e' d hend
        cases hend with
        | ok h hc => exact .ok h hc
        | error h hc => exact .error h hc
      have hwalk := walk_tandem k rounds hvw.tag (J := fun i => SameMove (fun _ => J i) none)
        (fun i _ _ e e' h ha => ⟨h.1, he i _ _ _ _ h.2 ha.truncate⟩) hbody
        (x := ⟨x, none⟩) (y := ⟨y, none⟩) ⟨rfl, hj⟩ hcur
      apply hwalk.bind
      intro e c e' d hend
      cases hend with
      | error h hc => exact .done (.error h hc)
      | ok h hc =>
        -- What is noted at the end is the tag, so it counts that both are the same here.
        obtain ⟨⟨rfl, htag⟩, hp, h⟩ := h
        rw [htag]
        exact .done (.ok ⟨hp, hq _ _ _ _ h⟩ hc)

theorem onChild_tandem {m m' : Decoding (Hand δ) Unit} {child : Option Nat}
    (h : Tandem (Paired Q) (m ⟨x, child⟩) c (m' ⟨y, child⟩) d) :
    Tandem (Paired Q) (onChild child m ⟨x, pending⟩) c (onChild child m' ⟨y, pending⟩) d := by
  rw [onChild, onChild, focus_apply, focus_apply]
  apply h.bind
  intro e c e' d he
  cases he with
  | error h hc => exact .done (.error ⟨rfl, h.2⟩ hc)
  | ok h hc => exact .done (.ok ⟨rfl, h.2⟩ hc)

/-- **Paired routines are carried out side by side** on values with the same data, by strategies that leave the
same from these. -/
theorem perform_tandem (hcall : ∀ t, U t → Steady (F t) (call t)) {h : Handle} {r r' : Routine δ h}
    (hr : r.Paired U F r' Q x y) (i : Nat) (pending : Option Nat) (hc : c.Akin d) :
    Tandem (Paired Q) (perform call rounds i r ⟨x, pending⟩) c (perform call rounds i r' ⟨y, pending⟩) d := by
  induction hr generalizing i pending c d with
  | skip hq => exact .done (.ok ⟨rfl, hq⟩ hc)
  | fail hq => exact .done (.error ⟨rfl, hq⟩ hc)
  | update hq => exact .done (.ok ⟨rfl, hq⟩ hc)
  | choose _ ih => exact ih i pending hc
  | seq _ _ he iha ihb =>
    apply (iha i pending hc).bind
    intro e c e' d h
    cases h with
    | error h hc => exact .done (.error ⟨h.1, he _ _ _ h.2⟩ hc)
    | @ok _ _ x y _ _ h hc =>
      obtain ⟨x, pending⟩ := x
      obtain ⟨y, pending'⟩ := y
      obtain rfl : pending = pending' := h.1
      exact ihb x y h.2 i pending hc
  | @attempt _ _ _ x y body body' finish finish' _ hq ih =>
    show Tandem _ (((perform call rounds i body ⟨x, pending⟩).bind _).bind _) c
      (((perform call rounds i body' ⟨y, pending⟩).bind _).bind _) d
    rw [Dialogue.bind_bind, Dialogue.bind_bind]
    apply (ih i pending hc).bind
    intro e c e' d h
    cases h with
    | error h hc => exact .done (.ok ⟨h.1, hq _ _ _ h.2⟩ hc)
    | ok h hc => exact .done (.ok ⟨h.1, hq _ _ _ h.2⟩ hc)
  | decode ht h hq he => exact decodeInto_tandem (hcall _ ht) h hq he hc
  | array J hj _ hq he ih =>
    exact goThrough_tandem .array hj (fun i x y h pending c d hc => ih i x y h i pending hc) hq he hc
  | map J hj _ hq he ih =>
    exact goThrough_tandem .map hj (fun i x y h pending c d hc => ih i x y h i pending hc) hq he hc
  | key _ ih =>
    rw [perform, perform]
    exact onChild_tandem (ih i none hc)
  | value _ ih =>
    rw [perform, perform]
    exact onChild_tandem (ih i (some i) hc)

/-- A type that decodes by hand is steady if its routine is impartial, and the types that it decodes are
steady. -/
theorem custom_steady {routine : Routine Work .decoder} {counts : Prop} (hcall : ∀ t, U t → Steady (F t) (call t))
    (hr : routine.Impartial U F counts) : Steady counts (custom call rounds routine) := by
  rintro x _ c d rfl hc
  unfold custom
  rw [bind_apply, focus_apply, Dialogue.bind_bind]
  apply (perform_tandem hcall (hr x) 0 none hc).bind
  intro e c e' d h
  cases h with
  | ok h hc => exact .done (.ok ⟨.refl _, h.2⟩ hc)
  | error h hc => exact .done (.error h.2 hc)

end Decoding

end Decant
