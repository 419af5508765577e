import Decant.Proofs.CatalogContract
import Decant.Proofs.Stopping

/-!
# Failing fast

* `Routine.Relays` — a routine that asks its decoder nothing after a failure and passes the failure
  on, whatever else it does. A careful routine does (`Routine.Careful.relays`).
* `Decoding.performBy_stops` — it stops at the first failure, also with something done around its
  callbacks.
* `Setup.decode_fails_fast` — the first call that fails is the last one, and decoding ends with its
  error, where an end signal reads as a truncated stream.

That no container is left and nothing is tried again follows, since any of these would be one more
call.
-/

namespace Decant

/-! ## Routines -/

namespace Routine

variable {δ : Type}

/-- However the decoders end, the routine asks them for nothing after one of them failed, and a
condition on that failure, on the error of the routine and on the state holds at its end. A failure
of what is done with an element is passed on. A container is gone through with an invariant of the
state. -/
def Relays : {h : Handle} → Routine δ h → (Option Error → Option Error → δ → Prop) →
    Option Error → δ → Prop
  | _, .skip, Q, p, s => Q p none s
  | _, .fail e, Q, p, s => Q p (some e) s
  | _, .update f, Q, p, s => Q p none (f s)
  | _, .choose f, Q, p, s => (f s).Relays Q p s
  | _, .seq a b, Q, p, s =>
    a.Relays (fun p e s => match e with
      | none => b.Relays Q p s
      | some e => Q p (some e) s) p s
  | _, .attempt body finish, Q, p, s => body.Relays (fun p e s => Q p none (finish e s)) p s
  | _, .decode _ _ finish, Q, p, s =>
    p = none ∧ ∀ c, Q none none (finish c none s) ∧
      ∀ e : Error, Q (some e.truncate) (some e.truncate) (finish c (some e.truncate) s)
  | _, .array body finish, Q, p, s =>
    p = none ∧ ∃ J : Nat → δ → Prop, J 0 s ∧ ∀ i s, J i s →
      (body i).Relays (fun p e s => match e with
        | none => p = none ∧ J (i + 1) s
        | some e => (∀ x ∈ p, e.truncate = x) ∧ Q (some e.truncate) (some e.truncate) s) none s ∧
      (∀ tag, Q none none (finish tag i s)) ∧
      ∀ e : Error, Q (some e.truncate) (some e.truncate) s
  | _, .map body finish, Q, p, s =>
    p = none ∧ ∃ J : Nat → δ → Prop, J 0 s ∧ ∀ i s, J i s →
      (body i).Relays (fun p e s => match e with
        | none => p = none ∧ J (i + 1) s
        | some e => (∀ x ∈ p, e.truncate = x) ∧ Q (some e.truncate) (some e.truncate) s) none s ∧
      (∀ tag, Q none none (finish tag i s)) ∧
      ∀ e : Error, Q (some e.truncate) (some e.truncate) s
  | _, .key body, Q, p, s => body.Relays Q p s
  | _, .value body, Q, p, s => body.Relays Q p s

/-- From a state, a routine ends with the error of its decoder, if that failed. -/
def PassesOn {h : Handle} (r : Routine δ h) (state : δ) : Prop :=
  r.Relays (fun p e _ => ∀ x ∈ p, ∃ y, e = some y ∧ y.truncate = x) none state

/-- A routine that ends with the error of its decoder, if that failed. -/
def RelaysErrors (r : Routine Work .decoder) : Prop :=
  ∀ c, r.Relays (fun p e _ => ∀ x ∈ p, ∃ y, e = some y ∧ y.truncate = x) none ⟨c, .unit⟩

/-- A careful routine relays failures, since nothing follows them. -/
theorem Careful.relays {h : Handle} {r : Routine δ h} (hr : r.Careful)
    {Q : Option Error → Option Error → δ → Prop} (hok : ∀ s, Q none none s)
    (he : ∀ p e s, (∀ x ∈ p, Error.truncate e = x) → Q p (some e) s) (s : δ) :
    r.Relays Q none s := by
  induction hr generalizing Q s with
  | skip => exact hok s
  | fail e => exact he none e s nofun
  | update f => exact hok (f s)
  | choose _ ih => exact ih s hok he s
  | @seq _ a b _ _ iha ihb =>
    show a.Relays (fun p e s => match e with
      | none => b.Relays Q p s
      | some e => Q p (some e) s) none s
    apply iha
    · exact fun s => ihb hok he s
    · exact fun p e s hp => he p e s hp
  | decode t start finish =>
    refine ⟨rfl, fun c => ⟨hok _, fun e => he _ _ _ ?_⟩⟩
    intro x hx
    rw [← Option.some.inj hx]
    exact e.truncate_truncate
  | array _ finish ih | map _ finish ih =>
    have hpass : ∀ (e : Error) s, Q (some e.truncate) (some e.truncate) s := by
      intro e s
      refine he _ _ s fun x hx => ?_
      rw [← Option.some.inj hx]
      exact e.truncate_truncate
    refine ⟨rfl, fun _ _ => True, trivial, fun i s _ => ⟨?_, fun tag => hok _, fun e => hpass e s⟩⟩
    exact ih i (fun s => ⟨rfl, trivial⟩) (fun p e s hp => ⟨hp, hpass e s⟩) s
  | key _ ih => exact ih hok he s
  | value _ ih => exact ih hok he s

theorem Careful.passesOn {h : Handle} {r : Routine δ h} (hr : r.Careful) (state : δ) :
    r.PassesOn state := by
  apply hr.relays
  · exact fun s => nofun
  · exact fun p e s hp x hx => ⟨e, rfl, hp x hx⟩

theorem Careful.relaysErrors {r : Routine Work .decoder} (hr : r.Careful) : r.RelaysErrors :=
  fun c => hr.passesOn ⟨c, .unit⟩

end Routine

/-- Every type of a schema that decodes by hand relays the failures of its decoder. -/
def Schema.RelaysErrors (s : Schema) : Prop :=
  ∀ name initial uses routine, s.find? name = some (.custom initial uses routine) →
    routine.RelaysErrors

namespace Decoding

variable {δ : Type} {call : Ty → Strategy} {rounds : Nat}
  {around : Decoding (Hand δ) Unit → Decoding (Hand δ) Unit}

/-- After a failure a routine that relays it asks nothing any more. -/
theorem performBy_relayed (around : Decoding (Hand δ) Unit → Decoding (Hand δ) Unit)
    (call : Ty → Strategy) (rounds : Nat) {err : Error} :
    ∀ {h : Handle} (i : Nat) (r : Routine δ h) {Q : Option Error → Option Error → δ → Prop}
      {x : Hand δ}, r.Relays Q (some err) x.state → ∃ e, performBy around call rounds i r x = .done e ∧
        Q (some err) (failure? e.result) e.dest.state
  | _, _, .skip, _, _, hq => ⟨_, rfl, hq⟩
  | _, _, .fail _, _, _, hq => ⟨_, rfl, hq⟩
  | _, _, .update _, _, _, hq => ⟨_, rfl, hq⟩
  | _, i, .choose f, _, x, hq => performBy_relayed around call rounds i (f x.state) hq
  | _, i, .seq a b, Q, x, hq => by
    obtain ⟨⟨result, y⟩, he, hq⟩ := performBy_relayed around call rounds i a hq
    show ∃ e, (performBy around call rounds i a x).bind _ = .done e ∧ _
    rw [he]
    cases result with
    | ok u => exact performBy_relayed around call rounds i b hq
    | error err => exact ⟨_, rfl, hq⟩
  | _, i, .attempt body finish, Q, x, hq => by
    obtain ⟨⟨result, y⟩, he, hq⟩ := performBy_relayed around call rounds i body hq
    show ∃ e, ((performBy around call rounds i body x).bind _).bind _ = .done e ∧ _
    rw [he]
    exact ⟨_, rfl, hq⟩
  | _, _, .decode _ _ _, _, _, hq => absurd hq.1 nofun
  | _, _, .array _ _, _, _, hq => absurd hq.1 nofun
  | _, _, .map _ _, _, _, hq => absurd hq.1 nofun
  | _, i, .key body, Q, x, hq => by
    obtain ⟨⟨result, y⟩, he, hq⟩ :=
      performBy_relayed (x := ⟨x.state, none⟩) around call rounds i body hq
    rw [performBy, onChild, focus_apply, he]
    exact ⟨_, rfl, hq⟩
  | _, i, .value body, Q, x, hq => by
    obtain ⟨⟨result, y⟩, he, hq⟩ :=
      performBy_relayed (x := ⟨x.state, some i⟩) around call rounds i body hq
    rw [performBy, onChild, focus_apply, he]
    exact ⟨_, rfl, hq⟩

/-- How a routine leaves its decoder: a failure of the source is one of the decoder. -/
def Left (Q : Option Error → Option Error → δ → Prop) (failure : Option Error)
    (e : Ending (Hand δ) Unit) : Prop :=
  ∃ p, (∀ x ∈ failure, p = some (Error.truncate x)) ∧ Q p (failure? e.result) e.dest.state

/-- Making a pending move keeps the state. -/
theorem handshake_stops (x : Hand δ) :
    (handshake x).Stops (Within (fun _ y => y.state = x.state) fun _ y => y.state = x.state) := by
  obtain ⟨state, pending⟩ := x
  cases pending with
  | none => exact .done ⟨relayed_none _, rfl⟩
  | some i =>
    have h := stops_ask (c := .toValue i) (f := pure) (d := (⟨state, none⟩ : Hand δ))
      (G := fun _ y => y.state = state) (F := fun _ y => y.state = state) rfl (fun _ => rfl)
      fun a => .done ⟨relayed_none _, rfl⟩
    rwa [bind_pure] at h

theorem decodeInto_stops {x : Hand δ} {Q : Option Error → Option Error → δ → Prop} {t : Ty}
    {start : δ → Content} {finish : Content → Option Error → δ → δ} (hc : failFast.Holds (call t))
    (hq : ∀ c, Q none none (finish c none x.state) ∧
      ∀ e : Error, Q (some e.truncate) (some e.truncate) (finish c (some e.truncate) x.state)) :
    (decodeInto call t start finish x).Stops (Left Q) := by
  rw [decodeInto_apply]
  apply (handshake_stops x).bind
  · rintro ⟨result, y⟩ ⟨-, hy⟩
    have hy : y.state = x.state := by cases result <;> exact hy
    rw [← hy] at hq
    cases result with
    | error e => exact .done ⟨some e.truncate, nofun, (hq _).2 e⟩
    | ok u =>
      apply (hc (start y.state)).bind
      · rintro ⟨result, c⟩ _
        cases result with
        | error e => exact .done ⟨some e.truncate, nofun, (hq c).2 e⟩
        | ok tag => exact .done ⟨none, nofun, (hq c).1⟩
      · rintro err ⟨result, c⟩ he
        obtain ⟨e, rfl, htrunc⟩ := he err rfl
        refine .done ⟨some e.truncate, ?_, (hq c).2 e⟩
        intro x hx
        rw [← Option.some.inj hx, htrunc]
  · rintro err ⟨result, y⟩ ⟨he, hy⟩
    obtain ⟨e, rfl, htrunc⟩ := he err rfl
    have hy : y.state = x.state := hy
    rw [← hy] at hq
    refine .done ⟨some e.truncate, ?_, (hq _).2 e⟩
    intro x hx
    rw [← Option.some.inj hx, htrunc]

/-- What is done with an element, as the rule for containers asks. -/
theorem Left.within {J : δ → Prop} {Q : Option Error → Option Error → δ → Prop}
    {failure : Option Error} {e : Ending (Hand δ) Unit}
    (h : Left (fun p e s => match e with
      | none => p = none ∧ J s
      | some e => (∀ x ∈ p, e.truncate = x) ∧ Q (some e.truncate) (some e.truncate) s) failure e) :
    Within (fun _ y => J y.state)
      (fun e y => Q (some e.truncate) (some e.truncate) y.state) failure e := by
  obtain ⟨result, y⟩ := e
  obtain ⟨p, hp, hq⟩ := h
  cases result with
  | ok u =>
    obtain ⟨rfl, hj⟩ := hq
    exact ⟨fun x hx => absurd (hp x hx) nofun, hj⟩
  | error e => exact ⟨fun x hx => ⟨e, rfl, hq.1 _ (hp x hx)⟩, hq.2⟩

theorem goThrough_stops {x : Hand δ} {Q : Option Error → Option Error → δ → Prop} {c : Container}
    {body : Nat → Decoding (Hand δ) Unit} {finish : Tag → Nat → δ → δ} {J : Nat → δ → Prop}
    (hb : ∀ i (y : Hand δ), J i y.state → (body i y).Stops (Within (fun _ y => J (i + 1) y.state)
      fun e y => Q (some e.truncate) (some e.truncate) y.state))
    (hj : J 0 x.state) (hq : ∀ i s, J i s → ∀ tag, Q none none (finish tag i s))
    (he : ∀ i s, J i s → ∀ e : Error, Q (some e.truncate) (some e.truncate) s) :
    (goThrough c rounds body finish x).Stops (Left Q) := by
  -- Every failure on the way ends the routine with the error of its decoder.
  have hfail : ∀ (failure : Option Error) (e : Error) (y : Hand δ),
      (∀ x ∈ failure, e.truncate = Error.truncate x) →
      Q (some e.truncate) (some e.truncate) y.state →
        Left Q failure (⟨.error e.truncate, y⟩ : Ending (Hand δ) Unit) := by
    intro failure e y hf hq
    exact ⟨some e.truncate, fun x hx => congrArg some (hf x hx), hq⟩
  rw [goThrough_apply]
  apply (handshake_stops x).bind
  · rintro ⟨result, y⟩ ⟨-, hy⟩
    have hy : y.state = x.state := by cases result <;> exact hy
    rw [← hy] at hj
    cases result with
    | error e => exact .done (hfail none e y nofun (he 0 _ hj e))
    | ok u =>
      refine .call rfl (fun tag => ?_) fun e => .done (hfail (some e) e y ?_ (he 0 _ hj e))
      · apply (walk_stops (fun i (y : Hand δ) e h => he i y.state h e) hb tag hj).bind
        · rintro ⟨result, z⟩ ⟨-, hz⟩
          cases result with
          | ok n => exact .done ⟨none, nofun, hq n z.state hz tag⟩
          | error e => exact .done (hfail none e z nofun hz)
        · rintro err ⟨result, z⟩ ⟨hr, hz⟩
          obtain ⟨e, rfl, htrunc⟩ := hr err rfl
          refine .done (hfail (some err) e z ?_ hz)
          intro x hx
          rw [← Option.some.inj hx, htrunc]
      · intro x hx
        rw [← Option.some.inj hx]
  · rintro err ⟨result, y⟩ ⟨hr, hy⟩
    obtain ⟨e, rfl, htrunc⟩ := hr err rfl
    have hy : y.state = x.state := hy
    rw [← hy] at hj
    refine .done (hfail (some err) e y ?_ (he 0 _ hj e))
    intro x hx
    rw [← Option.some.inj hx, htrunc]

/-- **A routine that relays failures stops at the first one**, carried out by strategies that fail
fast, if what is done around its callbacks keeps to that. -/
theorem performBy_stops (hc : ∀ t, failFast.Holds (call t))
    (ha : ∀ {m : Decoding (Hand δ) Unit} {y : Hand δ} {G : Unit → Hand δ → Prop}
      {F : Error → Hand δ → Prop}, (m y).Stops (Within G F) → (around m y).Stops (Within G F)) :
    ∀ {h : Handle} (i : Nat) (r : Routine δ h) {Q : Option Error → Option Error → δ → Prop}
      {x : Hand δ}, r.Relays Q none x.state → (performBy around call rounds i r x).Stops (Left Q)
  | _, _, .skip, _, _, hq => .done ⟨none, nofun, hq⟩
  | _, _, .fail _, _, _, hq => .done ⟨none, nofun, hq⟩
  | _, _, .update _, _, _, hq => .done ⟨none, nofun, hq⟩
  | _, i, .choose f, _, x, hq => performBy_stops hc ha i (f x.state) hq
  | _, i, .seq a b, _, x, hq => by
    apply (performBy_stops hc ha i a hq).bind
    · rintro ⟨result, y⟩ ⟨p, -, hq⟩
      cases result with
      | error e => exact .done ⟨p, nofun, hq⟩
      | ok u =>
        cases p with
        | none => exact performBy_stops hc ha i b hq
        | some err =>
          obtain ⟨e, he, hq⟩ := performBy_relayed around call rounds i b hq
          show (performBy around call rounds i b y).Stops _
          rw [he]
          exact .done ⟨some err, nofun, hq⟩
    · rintro err ⟨result, y⟩ ⟨p, hp, hq⟩
      obtain rfl := hp err rfl
      cases result with
      | error e => exact .done ⟨some err.truncate, hp, hq⟩
      | ok u =>
        obtain ⟨e, he, hq⟩ := performBy_relayed around call rounds i b hq
        show (performBy around call rounds i b y).Closes _ _
        rw [he]
        exact .done ⟨some err.truncate, hp, hq⟩
  | _, i, .attempt body finish, _, x, hq => by
    show (((performBy around call rounds i body x).bind _).bind _).Stops _
    rw [Dialogue.bind_bind]
    apply (performBy_stops hc ha i body hq).bind
    · rintro ⟨result, y⟩ ⟨p, -, hq⟩
      exact .done ⟨p, nofun, hq⟩
    · rintro err ⟨result, y⟩ ⟨p, hp, hq⟩
      exact .done ⟨p, hp, hq⟩
  | _, _, .decode t _ _, _, _, hq => decodeInto_stops (hc t) hq.2
  | _, _, .array body finish, Q, x, ⟨_, J, hj, hJ⟩ => by
    refine goThrough_stops (fun i y hy => ?_) hj (fun i s h => (hJ i s h).2.1)
      fun i s h => (hJ i s h).2.2
    exact ha ((performBy_stops hc ha i (body i) (hJ i _ hy).1).mono fun _ _ h => h.within)
  | _, _, .map body finish, Q, x, ⟨_, J, hj, hJ⟩ => by
    refine goThrough_stops (fun i y hy => ?_) hj (fun i s h => (hJ i s h).2.1)
      fun i s h => (hJ i s h).2.2
    exact ha ((performBy_stops hc ha i (body i) (hJ i _ hy).1).mono fun _ _ h => h.within)
  | _, i, .key body, Q, x, hq => by
    rw [performBy, onChild, focus_apply]
    apply (performBy_stops (x := ⟨x.state, none⟩) hc ha i body hq).bind
    · exact fun e he => .done he
    · exact fun err e he => .done he
  | _, i, .value body, Q, x, hq => by
    rw [performBy, onChild, focus_apply]
    apply (performBy_stops (x := ⟨x.state, some i⟩) hc ha i body hq).bind
    · exact fun e he => .done he
    · exact fun err e he => .done he

/-- So what it passes on is the failure. -/
theorem performBy_passes (hc : ∀ t, failFast.Holds (call t))
    (ha : ∀ {m : Decoding (Hand δ) Unit} {y : Hand δ} {G : Unit → Hand δ → Prop}
      {F : Error → Hand δ → Prop}, (m y).Stops (Within G F) → (around m y).Stops (Within G F))
    {h : Handle} (i : Nat) {r : Routine δ h} {x : Hand δ} (hr : r.PassesOn x.state) :
    (performBy around call rounds i r x).Stops Relayed := by
  refine (performBy_stops hc ha i r hr).mono fun failure e he => ?_
  obtain ⟨p, hp, hq⟩ := he
  intro err herr
  obtain ⟨y, hy, htrunc⟩ := hq _ (hp err herr)
  obtain ⟨result, d⟩ := e
  cases result with
  | ok u => cases hy
  | error e =>
    obtain rfl : e = y := Option.some.inj hy
    exact ⟨e, rfl, htrunc⟩

/-- Decode by hand, with something done around the callbacks. -/
def customBy (around : Decoding (Hand Work) Unit → Decoding (Hand Work) Unit) (call : Ty → Strategy)
    (rounds : Nat) (routine : Routine Work .decoder) : Strategy := fun c =>
  (performBy around call rounds 0 routine ⟨⟨c, .unit⟩, none⟩).bind fun e =>
    .done ⟨e.result.map fun _ => Tag.bool, e.dest.state.dest⟩

theorem customBy_id (call : Ty → Strategy) (rounds : Nat) (routine : Routine Work .decoder) :
    customBy (fun m => m) call rounds routine = custom call rounds routine := by
  funext c
  rw [customBy, performBy_id, custom_apply]

/-- A type that decodes by hand fails fast if its routine relays failures. -/
theorem customBy_failFast {around : Decoding (Hand Work) Unit → Decoding (Hand Work) Unit}
    {routine : Routine Work .decoder} (hr : routine.RelaysErrors) (hc : ∀ t, failFast.Holds (call t))
    (ha : ∀ {m : Decoding (Hand Work) Unit} {y : Hand Work} {G : Unit → Hand Work → Prop}
      {F : Error → Hand Work → Prop}, (m y).Stops (Within G F) → (around m y).Stops (Within G F)) :
    failFast.Holds (customBy around call rounds routine) := by
  intro c
  have hpasses : (performBy around call rounds 0 routine ⟨⟨c, .unit⟩, none⟩).Stops Relayed :=
    performBy_passes hc ha 0 (hr c)
  refine stops_end (m := performBy around call rounds 0 routine) hpasses fun e y hy => ⟨y, ?_, rfl⟩
  rw [hy]
  rfl

/-- A truncated decoding ends with no end signal. -/
theorem truncated_error {s : Schema} {σ : Type} [TokenSource σ] {src : σ} {reg : Registry} {y : Error}
    {d' : δ} (h : ((truncated m d).run s src reg).answer = some ⟨.error y, d'⟩) : y.truncate = y := by
  rw [truncated, Dialogue.run_map] at h
  obtain ⟨⟨result, d''⟩, -, he⟩ := Option.map_eq_some_iff.1 h
  cases result with
  | ok a => cases he
  | error y =>
    cases he
    exact y.truncate_truncate

end Decoding

/-! ## Decoding -/

theorem Catalog.schema_relaysErrors (types : List Ty) : (schema types).RelaysErrors :=
  fun _ _ _ _ h => (schema_careful types h).relaysErrors

namespace Setup

open Decoding

/-- Everything in a setup that decodes by hand relays the failures of its decoder: the types of the
schema, and the routine that takes over the entries of maps, whatever entries it already made. -/
structure RelaysErrors (s : Setup) : Prop where
  types : s.schema.RelaysErrors
  entries : ∀ routine, s.entryRoutine = some routine → ∀ i state, (routine i).PassesOn state

theorem RelaysErrors.kept {s : Setup} (hs : s.RelaysErrors) : s.KeptBy failFast where
  custom n hc h := by
    obtain ⟨name, initial, uses, rfl, hd⟩ := Schema.plan_custom h
    rw [← customBy_id]
    exact customBy_failFast (hs.types name initial uses _ hd) hc fun h => h
  entry n i hc h x := by
    rw [← performBy_id]
    exact performBy_passes hc (fun h => h) i (hs.entries _ h i x.state)

variable {s : Schema} {σ : Type} [TokenSource σ] {reg : Registry}

theorem failFast_kept (hs : s.RelaysErrors) : (plain s).KeptBy failFast :=
  RelaysErrors.kept (s := plain s) ⟨hs, nofun⟩

/-- **Decoding fails fast.** The first call that fails is the last one, and decoding ends with just
its error, where an end signal reads as a truncated stream. -/
theorem decode_fails_fast (hs : s.RelaysErrors) (hr : reg.Reachable s) (n : Nat) (t : Ty)
    (dest : Content) (src : σ) :
    let r := ((plain s).decode n t dest).run s src reg
    ∀ pre x post e, r.exchanges = pre ++ x :: post → x.failure? = some e →
      post = [] ∧ ∃ d, r.answer = some ⟨.error e.truncate, d⟩ := by
  intro r pre x post e hx he
  have ha := (plain s).decode_alike_direct hr.sound n t dest src
  have hstop : ((plain s).decodeDirect n t dest).Stops Relayed :=
    decodeDirect_holds failFast (failFast_kept hs) n t dest
  have hx' : (((plain s).decodeDirect n t dest).run s src (.empty false)).exchanges =
      pre ++ x :: post := ha.exchanges.symm.trans hx
  obtain ⟨hpost, ⟨result, d⟩, hans, hrel⟩ := hstop.run s src (.empty false) hx' he
  obtain ⟨y, rfl, hy⟩ := hrel e rfl
  have htrunc : y.truncate = y := truncated_error hans
  refine ⟨hpost, d, ha.answer.trans (hans.trans ?_)⟩
  rw [← hy, htrunc]

/-- A list of maps that ends in front of a value of its first map, decoded by hand. -/
theorem decode_fails_fast_pairs :
    let s := Catalog.schema []
    let src : Script :=
      ⟨[.enter .array (some 2), .enter .map none, .next, .string "a".toUTF8, .value, .stop]⟩
    let r := ((plain s).decode 9 (.list (.named "Pairs")) (.list [])).run s src (.empty true)
    s.RelaysErrors ∧ (Registry.empty true).Reachable s ∧
      r.exchanges.map (·.call) = [.type, .enter .array, .type, .enter .map, .next .map 0, .type,
        .string, .toValue 0, .type] ∧
      r.exchanges.getLast?.bind Exchange.failure? = some .ended ∧
        ∃ d, r.answer = some ⟨.error .truncated, d⟩ := by
  intro s src r
  have hs : s.RelaysErrors := Catalog.schema_relaysErrors []
  have hr : (Registry.empty true).Reachable s := .empty true
  have hlast : r.exchanges.getLast?.bind Exchange.failure? = some .ended := by decide +kernel
  obtain ⟨x, hx, he⟩ := Option.bind_eq_some_iff.1 hlast
  obtain ⟨pre, hx⟩ := List.getLast?_eq_some_iff.1 hx
  have h := decode_fails_fast hs hr 9 (.list (.named "Pairs")) (.list []) src pre x [] .ended hx he
  exact ⟨hs, hr, by decide +kernel, hlast, h.2⟩

end Setup

end Decant
