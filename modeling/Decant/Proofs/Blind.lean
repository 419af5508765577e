import Decant.Proofs.Agreement
import Decant.Proofs.Contract

/-!
# Routines that go either way

* `Routine.Blind` — a routine that handles a failure alike whether a string or bytes were found. Only
  a type that keeps what it learned of a failure can break this.
* `Decoding.perform_broken` — after a failure a routine that decodes one value asks nothing any more.
* `Decoding.perform_agree` — carried out by strategies that go either way, a routine that decodes one
  value goes either way up to its first failure, and to the end if it is blind.
* `Decoding.custom_retells` — so types that decode by hand go either way.
-/

namespace Decant

namespace Routine

variable {δ : Type}

/-- A routine that does not tell the failure of a string from that of bytes. -/
def Blind : {h : Handle} → Routine δ h → Prop
  | _, .skip | _, .fail _ | _, .update _ => True
  | _, .choose f => ∀ s, (f s).Blind
  | _, .seq a b => a.Blind ∧ b.Blind
  | _, .attempt body finish => body.Blind ∧ ∀ t s,
    finish (some (.typeConversion .string t)) s = finish (some (.typeConversion .bytes t)) s
  | _, .decode _ _ finish => ∀ c t s,
    finish c (some (.typeConversion .string t)) s = finish c (some (.typeConversion .bytes t)) s
  | _, .array body _ => ∀ n, (body n).Blind
  | _, .map body _ => ∀ n, (body n).Blind
  | _, .key body | _, .value body => body.Blind

end Routine

/-- Every type of a schema that decodes by hand handles a failure alike whether a string or bytes were
found. -/
def Schema.Blind (s : Schema) : Prop :=
  ∀ name initial uses routine, s.find? name = some (.custom initial uses routine) → routine.Blind

namespace Decoding

open Dialogue (Agree)
open Error (Near)
open Strategy (Retells)

variable {raw fair : Prop} {δ α : Type} {rounds : Nat} {call : Ty → Strategy}
  {us vs xs ys : List Exchange} {start : Option Nat}

/-- The exchanges of a value after the move that its decoder still has to make. -/
def moved : Option Nat → List Exchange → List Exchange
  | none, e => e
  | some i, e => ⟨.toValue i, .ok ()⟩ :: e

theorem moved_append (start : Option Nat) (us xs : List Exchange) :
    moved start us ++ xs = moved start (us ++ xs) := by
  cases start <;> rfl

/-- The exchanges in front of a routine that was given a decoder or an entry, told both ways, before
those that come after. After a failure nothing is said. -/
def Faces (raw : Prop) (start : Option Nat) (xs ys : List Exchange) :
    Handle → Nat → Progress → Option Nat → List Exchange → List Exchange → Prop
  | .decoder, _, .ready, pending, us, vs => pending = start ∧ ∃ w : Walk, (w.Clear ∨ raw) ∧
      us = moved start w.exchanges ++ xs ∧ vs = moved start w.retold.exchanges ++ ys
  | .decoder, _, .keyed, _, _, _ => False
  | .entry, i, .ready, pending, us, vs => pending = none ∧ ∃ e e', Container.map.Twin raw i e e' ∧
      us = e ++ xs ∧ vs = e' ++ ys
  | .entry, i, .keyed, pending, us, vs => pending = none ∧ ∃ w : Walk, (w.Clear ∨ raw) ∧
      us = moved (some i) w.exchanges ++ xs ∧ vs = moved (some i) w.retold.exchanges ++ ys
  | _, _, .taken, pending, us, vs => pending = none ∧ us = xs ∧ vs = ys
  | _, _, .broken, _, _, _ => True

/-- Two ends that are the same, or near failures with the same destination. -/
inductive Close (raw : Prop) : Ending δ α → Ending δ α → Prop
  | refl (e : Ending δ α) : Close raw e e
  | error {e e' : Error} {d : δ} (h : Near raw e e') : Close raw ⟨.error e, d⟩ ⟨.error e', d⟩

/-- How a routine leaves its decoder, whichever way the value was told: in the same way, or both times
after something failed. -/
inductive Parts (raw fair : Prop) (start : Option Nat) (xs ys : List Exchange) (h : Handle) (i : Nat)
    (Q : Progress → Option Error → δ → Prop) :
    Ending (Hand δ) Unit → List Exchange → Ending (Hand δ) Unit → List Exchange → Prop
  | same {p : Progress} {r : Except Error Unit} {x : Hand δ} {us vs : List Exchange}
      (hs : Faces raw start xs ys h i p x.pending us vs) (hq : Q p (failure? r) x.state) :
      Parts raw fair start xs ys h i Q ⟨r, x⟩ us ⟨r, x⟩ vs
  | broken {e e' : Ending (Hand δ) Unit} {us vs : List Exchange}
      (hq : Q .broken (failure? e.result) e.dest.state)
      (hq' : Q .broken (failure? e'.result) e'.dest.state) (hn : fair → Close raw e e') :
      Parts raw fair start xs ys h i Q e us e' vs

theorem Close.map {β : Type} {e e' : Ending δ α} (g : δ → β) (h : Close raw e e') :
    Close raw (⟨e.result, g e.dest⟩ : Ending β α) ⟨e'.result, g e'.dest⟩ := by
  cases h with
  | refl e => exact .refl _
  | error h => exact .error h

theorem Close.near {e e' : Error} {d d' : δ}
    (h : Close raw (⟨.error e, d⟩ : Ending δ α) ⟨.error e', d'⟩) : Near raw e e' ∧ d = d' := by
  cases h with
  | refl => exact ⟨.refl e, rfl⟩
  | error h => exact ⟨h, rfl⟩

/-- An element that was worked on by a routine. -/
theorem both_of_parts {h : Handle} {i : Nat} {J : δ → Prop}
    {Q : Progress → Option Error → δ → Prop} {e e' : Ending (Hand δ) Unit}
    (hp : Parts raw fair none xs ys h i (fun p e s => match e with
      | none => p = .taken ∧ J s
      | some e => Q .broken (some e.truncate) s) e us e' vs) :
    Both (fun _ _ (y : Hand δ) => y.pending = none ∧ J y.state) (fun e y e' y' =>
      Q .broken (some e.truncate) y.state ∧ Q .broken (some e'.truncate) y'.state ∧
        Fails raw fair e y e' y') xs ys e us e' vs := by
  cases hp with
  | @same p r x us vs hs hq =>
    cases r with
    | ok u =>
      obtain ⟨rfl, hj⟩ := hq
      have hs : x.pending = none ∧ us = xs ∧ vs = ys := by cases h <;> exact hs
      obtain ⟨hy, rfl, rfl⟩ := hs
      exact .ok ⟨hy, hj⟩
    | error err => exact .error ⟨hq, hq, .of_near (.refl err)⟩
  | @broken e e' us vs hq hq' hn =>
    obtain ⟨result, y⟩ := e
    obtain ⟨result', y'⟩ := e'
    cases result with
    | ok u => exact absurd hq.1 nofun
    | error err =>
      cases result' with
      | ok u => exact absurd hq'.1 nofun
      | error err' =>
        exact .error ⟨hq, hq', fun hf => (hn hf).near⟩

/-- What is made of a failure is the same for a near one. -/
theorem eq_of_near {ε : Type} {g : Option Error → ε}
    (hb : raw → ∀ t, g (some (.typeConversion .string t)) = g (some (.typeConversion .bytes t)))
    {e e' : Error} (h : Near raw e e') : g (some e) = g (some e') := by
  cases h with
  | refl e => rfl
  | kind h expected => exact hb h expected

/-- Making a pending move leaves the value in front. -/
theorem agree_handshake {α : Type} {R : α → List Exchange → α → List Exchange → Prop} {x : Hand δ}
    {k : Ending (Hand δ) Unit → Dialogue α}
    (h : Agree R us (k ⟨.ok (), ⟨x.state, none⟩⟩) vs (k ⟨.ok (), ⟨x.state, none⟩⟩)) :
    Agree R (moved x.pending us) ((handshake x).bind k) (moved x.pending vs)
      ((handshake x).bind k) := by
  obtain ⟨state, pending⟩ := x
  cases pending with
  | none => exact h
  | some i => exact .ask (c := .toValue i) (.ok ()) (.ok ()) h

theorem decodeInto_agree {x : Hand δ} {i : Nat} {Q : Progress → Option Error → δ → Prop} {t : Ty}
    {begin : δ → Content} {finish : Content → Option Error → δ → δ} {w : Walk}
    (hw : w.Clear ∨ raw) (hc : (call t).Retells raw fair)
    (hb : fair → raw → ∀ c t s, finish c (some (.typeConversion .string t)) s =
      finish c (some (.typeConversion .bytes t)) s)
    (hq : ∀ c, Q .taken none (finish c none x.state) ∧
      ∀ e, Q .broken (some e) (finish c (some e) x.state)) :
    Agree (Parts raw fair x.pending xs ys .decoder i Q) (moved x.pending w.exchanges ++ xs)
      (decodeInto call t begin finish x) (moved x.pending w.retold.exchanges ++ ys)
      (decodeInto call t begin finish x) := by
  rw [decodeInto_apply, moved_append, moved_append]
  apply agree_handshake
  apply (hc w hw (begin x.state) xs ys).bind
  intro e us e' vs he
  cases he with
  | ok h => exact .done (.same (p := .taken) (r := .ok ()) ⟨rfl, rfl, rfl⟩ (hq _).1)
  | @error e e' c c' us vs hn =>
    refine .done (.broken ((hq c).2 _) ((hq c').2 _) fun hf => ?_)
    obtain ⟨hne, rfl⟩ := hn hf
    have hfinish : finish c (some e.truncate) x.state = finish c (some e'.truncate) x.state :=
      eq_of_near (g := fun e => finish c e x.state) (fun hr t => hb hf hr c t x.state) hne.truncate
    show Close raw (⟨.error e.truncate, ⟨finish c (some e.truncate) x.state, none⟩⟩ :
      Ending (Hand δ) Unit) ⟨.error e'.truncate, ⟨finish c (some e'.truncate) x.state, none⟩⟩
    rw [hfinish]
    exact .error hne.truncate

theorem goThrough_agree {x : Hand δ} {i : Nat} {Q : Progress → Option Error → δ → Prop}
    {c : Container} {body : Nat → Decoding (Hand δ) Unit} {finish : Tag → Nat → δ → δ}
    {J : Nat → δ → Prop} {w : Walk} (hw : w.Clear ∨ raw)
    (hb : CarriesBoth raw c (fun i y => y.pending = none ∧ J i y.state)
      (fun e y e' y' => Q .broken (some e.truncate) y.state ∧
        Q .broken (some e'.truncate) y'.state ∧ Fails raw fair e y e' y') body)
    (hj : J 0 x.state) (hq : ∀ i s, J i s → ∀ tag, Q .taken none (finish tag i s))
    (he : ∀ i s, J i s → ∀ e, Q .broken (some e) s) :
    Agree (Parts raw fair x.pending xs ys .decoder i Q) (moved x.pending w.exchanges ++ xs)
      (goThrough c rounds body finish x) (moved x.pending w.retold.exchanges ++ ys)
      (goThrough c rounds body finish x) := by
  rw [goThrough_apply, moved_append, moved_append, w.exchanges_eq, w.retold.exchanges_eq]
  refine agree_handshake (.ask (c := .type) (.ok w.tag) (.ok w.retold.tag) ?_)
  have hF : ∀ i (y : Hand δ) e e', (y.pending = none ∧ J i y.state) → Near raw e e' →
      Q .broken (some e.truncate) y.state ∧ Q .broken (some e'.truncate) y.state ∧
        Fails raw fair e y e' y :=
    fun i y e e' hy hn => ⟨he i y.state hy.2 _, he i y.state hy.2 _, .of_near hn⟩
  have hj' : (⟨x.state, none⟩ : Hand δ).pending = none ∧ J 0 x.state := ⟨rfl, hj⟩
  apply (walk_agree hF hb hw hj').bind
  intro e us e' vs h
  cases h with
  | @ok n n' y h =>
    obtain ⟨rfl, htag, hy, hj⟩ := h
    rw [htag]
    exact .done (.same (p := .taken) (r := .ok ()) ⟨hy, rfl, rfl⟩ (hq n y.state hj w.tag))
  | error h =>
    refine .done (.broken h.1 h.2.1 fun hf => ?_)
    obtain ⟨hn, rfl⟩ := h.2.2 hf
    exact .error hn.truncate

/-! ### After a failure -/

/-- After a failure a routine that keeps to what it was given asks nothing any more. -/
theorem perform_broken (call : Ty → Strategy) (rounds : Nat) :
    ∀ {h : Handle} (i : Nat) (r : Routine δ h) {Q : Progress → Option Error → δ → Prop} {x : Hand δ},
      r.Keeps Q .broken x.state → ∃ e, perform call rounds i r x = .done e ∧
        Q .broken (failure? e.result) e.dest.state
  | _, _, .skip, _, _, hq => ⟨_, rfl, hq⟩
  | _, _, .fail _, _, _, hq => ⟨_, rfl, hq⟩
  | _, _, .update _, _, _, hq => ⟨_, rfl, hq⟩
  | _, i, .choose f, _, x, hq => perform_broken call rounds i (f x.state) hq
  | _, i, .seq a b, Q, x, hq => by
    obtain ⟨⟨result, y⟩, he, hq⟩ := perform_broken call rounds i a hq
    show ∃ e, (perform call rounds i a x).bind _ = .done e ∧ _
    rw [he]
    cases result with
    | ok u => exact perform_broken call rounds i b hq
    | error err => exact ⟨_, rfl, hq⟩
  | _, i, .attempt body finish, Q, x, hq => by
    obtain ⟨⟨result, y⟩, he, hq⟩ := perform_broken call rounds i body hq
    show ∃ e, ((perform call rounds i body x).bind _).bind _ = .done e ∧ _
    rw [he]
    exact ⟨_, rfl, hq⟩
  | _, _, .decode _ _ _, _, _, hq => absurd hq.1 nofun
  | _, _, .array _ _, _, _, hq => absurd hq.1 nofun
  | _, _, .map _ _, _, _, hq => absurd hq.1 nofun
  | _, _, .key _, _, _, hq => absurd hq.1 nofun
  | _, _, .value _, _, _, hq => absurd hq.1 nofun

/-- Going on after a failure leads to a failure either way. -/
theorem seq_broken {h : Handle} {i : Nat} {b : Routine δ h} {Q : Progress → Option Error → δ → Prop}
    {x : Hand δ} {e e' : Ending (Hand δ) Unit}
    (hq : match failure? e.result with
      | none => b.Keeps Q .broken e.dest.state
      | some err => Q .broken (some err) e.dest.state)
    (hq' : match failure? e'.result with
      | none => b.Keeps Q .broken e'.dest.state
      | some err => Q .broken (some err) e'.dest.state) (hn : fair → Close raw e e') :
    Agree (Parts raw fair start xs ys h i Q)
      us (((fun _ => .done e : Decoding (Hand δ) Unit) >>= fun _ => perform call rounds i b) x)
      vs (((fun _ => .done e' : Decoding (Hand δ) Unit) >>= fun _ => perform call rounds i b) x) := by
  obtain ⟨result, y⟩ := e
  obtain ⟨result', y'⟩ := e'
  cases result with
  | ok u =>
    obtain ⟨z, hz, hqz⟩ := perform_broken call rounds i b hq
    show Agree _ _ (perform call rounds i b y) _ _
    cases result' with
    | ok u' =>
      obtain ⟨z', hz', hqz'⟩ := perform_broken call rounds i b hq'
      show Agree _ _ _ _ (perform call rounds i b y')
      rw [hz, hz']
      refine .done (.broken hqz hqz' ?_)
      intro hf
      have hy : y = y' := by
        cases hn hf with
        | refl => rfl
      subst hy
      rw [hz] at hz'
      cases hz'
      exact .refl z
    | error err' =>
      rw [hz]
      exact .done (.broken hqz hq' fun hf => nomatch hn hf)
  | error err =>
    cases result' with
    | ok u' =>
      obtain ⟨z', hz', hqz'⟩ := perform_broken call rounds i b hq'
      show Agree _ _ _ _ (perform call rounds i b y')
      rw [hz']
      exact .done (.broken hq hqz' fun hf => nomatch hn hf)
    | error err' => exact .done (.broken hq hq' hn)

/-- **A routine that keeps to what it was given goes either way**, carried out by strategies that
do. -/
theorem perform_agree (hc : ∀ t, (call t).Retells raw fair) :
    ∀ {h : Handle} (i : Nat) (r : Routine δ h) {Q : Progress → Option Error → δ → Prop}
      {p : Progress} {x : Hand δ} {start : Option Nat} {us vs xs ys : List Exchange},
      (fair → raw → r.Blind) → r.Keeps Q p x.state → Faces raw start xs ys h i p x.pending us vs →
        Agree (Parts raw fair start xs ys h i Q) us (perform call rounds i r x) vs
          (perform call rounds i r x)
  | _, _, .skip, _, _, _, _, _, _, _, _, _, hq, hs => .done (.same hs hq)
  | _, _, .fail e, _, _, _, _, _, _, _, _, _, hq, hs => .done (.same hs hq)
  | _, _, .update _, _, _, _, _, _, _, _, _, _, hq, hs => .done (.same hs hq)
  | _, i, .choose f, _, _, x, _, _, _, _, _, hb, hq, hs =>
    perform_agree hc i (f x.state) (fun hf hr => hb hf hr _) hq hs
  | _, i, .seq a b, _, _, x, _, _, _, _, _, hb, hq, hs => by
    apply (perform_agree hc i a (fun hf hr => (hb hf hr).1) hq hs).bind
    intro e us e' vs h
    cases h with
    | @same p r x us vs hs hq =>
      cases r with
      | ok u => exact perform_agree hc i b (fun hf hr => (hb hf hr).2) hq hs
      | error err => exact .done (.same hs hq)
    | broken hq hq' hn => exact seq_broken (x := x) hq hq' hn
  | _, i, .attempt body finish, _, _, x, _, _, _, _, _, hb, hq, hs => by
    show Agree _ _ (((perform call rounds i body x).bind _).bind _) _
      (((perform call rounds i body x).bind _).bind _)
    rw [Dialogue.bind_bind]
    apply (perform_agree hc i body (fun hf hr => (hb hf hr).1) hq hs).bind
    intro e us e' vs h
    cases h with
    | same hs hq => exact .done (.same (r := .ok ()) hs hq)
    | @broken e e' us vs hq hq' hn =>
      refine .done (.broken hq hq' fun hf => ?_)
      cases hn hf with
      | refl e => exact .refl _
      | @error e e' y hne =>
        have hfinish : finish (some e) y.state = finish (some e') y.state :=
          eq_of_near (g := fun e => finish e y.state) (fun hr t => (hb hf hr).2 t y.state) hne
        show Close raw (⟨.ok (), ⟨finish (some e) y.state, y.pending⟩⟩ : Ending (Hand δ) Unit)
          ⟨.ok (), ⟨finish (some e') y.state, y.pending⟩⟩
        rw [hfinish]
        exact .refl _
  | _, i, .decode t begin finish, _, _, x, _, _, _, _, _, hb, ⟨hp, hq⟩, hs => by
    subst hp
    obtain ⟨rfl, w, hw, rfl, rfl⟩ := hs
    exact decodeInto_agree hw (hc t) hb hq
  | _, i, .array body finish, Q, _, x, _, _, _, _, _, hb, ⟨hp, J, hj, hJ⟩, hs => by
    subst hp
    obtain ⟨rfl, w, hw, rfl, rfl⟩ := hs
    refine goThrough_agree hw ?_ hj (fun n s h => (hJ n s h).2.1) fun n s h => (hJ n s h).2.2
    rintro n _ _ y xs ys ⟨v, hv, rfl, rfl⟩ ⟨hy, hj⟩
    have hs' : Faces raw none xs ys .decoder n .ready y.pending (v.exchanges ++ xs)
      (v.retold.exchanges ++ ys) := ⟨hy, v, hv, rfl, rfl⟩
    have hbody := perform_agree hc n (body n) (fun hf hr => hb hf hr n) (hJ n _ hj).1 hs'
    exact hbody.mono fun e us e' vs h => both_of_parts h
  | _, i, .map body finish, Q, _, x, _, _, _, _, _, hb, ⟨hp, J, hj, hJ⟩, hs => by
    subst hp
    obtain ⟨rfl, w, hw, rfl, rfl⟩ := hs
    refine goThrough_agree hw ?_ hj (fun n s h => (hJ n s h).2.1) fun n s h => (hJ n s h).2.2
    rintro n e e' y xs ys ht ⟨hy, hj⟩
    have hs' : Faces raw none xs ys .entry n .ready y.pending (e ++ xs) (e' ++ ys) :=
      ⟨hy, e, e', ht, rfl, rfl⟩
    have hbody := perform_agree hc n (body n) (fun hf hr => hb hf hr n) (hJ n _ hj).1 hs'
    exact hbody.mono fun e us e' vs h => both_of_parts h
  | _, i, .key body, Q, _, x, start, _, _, xs, ys, hb, ⟨hp, hq⟩, hs => by
    subst hp
    obtain ⟨hx, _, _, ⟨k, v, hk, hv, rfl, rfl⟩, rfl, rfl⟩ := hs
    rw [perform, onChild, focus_apply]
    have hs' : Faces raw none (moved (some i) v.exchanges ++ xs)
        (moved (some i) v.retold.exchanges ++ ys) .decoder i .ready none
        (joined i k.exchanges v.exchanges ++ xs)
        (joined i k.retold.exchanges v.retold.exchanges ++ ys) :=
      ⟨rfl, k, hk, List.append_assoc .., List.append_assoc ..⟩
    apply (perform_agree (x := ⟨x.state, none⟩) hc i body hb hq hs').bind
    intro e us e' vs h
    cases h with
    | @same p' r y us vs hs hq =>
      refine .done (.same (p := p'.ofKey) ?_ hq)
      cases p' with
      | ready =>
        obtain ⟨-, w, hw, rfl, rfl⟩ := hs
        exact ⟨hx, _, _, ⟨w, v, hw, hv, rfl, rfl⟩, (List.append_assoc ..).symm,
          (List.append_assoc ..).symm⟩
      | keyed => exact hs.elim
      | taken => exact ⟨hx, v, hv, hs.2.1, hs.2.2⟩
      | broken => trivial
    | broken hq hq' hn => exact .done (.broken hq hq' fun hf =>
      (hn hf).map fun y => ({ x with state := y.state } : Hand _))
  | _, i, .value body, Q, _, x, start, _, _, xs, ys, hb, ⟨hp, hq⟩, hs => by
    subst hp
    obtain ⟨hx, w, hw, rfl, rfl⟩ := hs
    rw [perform, onChild, focus_apply]
    have hs' : Faces raw (some i) xs ys .decoder i .ready (some i)
        (moved (some i) w.exchanges ++ xs) (moved (some i) w.retold.exchanges ++ ys) :=
      ⟨rfl, w, hw, rfl, rfl⟩
    apply (perform_agree (x := ⟨x.state, some i⟩) hc i body hb hq hs').bind
    intro e us e' vs h
    cases h with
    | @same p' r y us vs hs hq =>
      refine .done (.same (p := p'.ofValue) ?_ hq)
      cases p' with
      | ready => exact ⟨hx, hs.2⟩
      | keyed => exact hs.elim
      | taken => exact ⟨hx, hs.2⟩
      | broken => trivial
    | broken hq hq' hn => exact .done (.broken hq hq' fun hf =>
      (hn hf).map fun y => ({ x with state := y.state } : Hand _))

/-- A type that decodes by hand goes either way if its routine decodes one value. -/
theorem custom_retells {routine : Routine Work .decoder} (hr : routine.DecodesOne)
    (hb : fair → raw → routine.Blind) (hc : ∀ t, (call t).Retells raw fair) :
    Retells raw fair (custom call rounds routine) := by
  intro w hw c xs ys
  have hs : Faces raw none xs ys .decoder 0 .ready none (w.exchanges ++ xs)
    (w.retold.exchanges ++ ys) := ⟨rfl, w, hw, rfl, rfl⟩
  show Agree _ _ ((focus _ _ (perform call rounds 0 routine) c).bind _) _
    ((focus _ _ (perform call rounds 0 routine) c).bind _)
  rw [focus_apply, Dialogue.bind_bind]
  apply (perform_agree (x := ⟨⟨c, .unit⟩, none⟩) hc 0 routine hb (hr c) hs).bind
  intro e us e' vs h
  cases h with
  | @same p r y us vs hs hq =>
    cases r with
    | ok u =>
      obtain rfl := hq rfl
      obtain ⟨-, rfl, rfl⟩ := hs
      exact .done (.ok .rfl)
    | error err => exact .done (.error (.of_near (.refl err)))
  | @broken e e' us vs hq hq' hn =>
    obtain ⟨result, y⟩ := e
    obtain ⟨result', y'⟩ := e'
    cases result with
    | ok u => exact absurd (hq rfl) nofun
    | error err =>
      cases result' with
      | ok u => exact absurd (hq' rfl) nofun
      | error err' =>
        refine .done (.error fun hf => ?_)
        obtain ⟨h, rfl⟩ := (hn hf).near
        exact ⟨h, rfl⟩

end Decoding

end Decant
