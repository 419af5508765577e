import Decant.Proofs.Obeying

/-!
# Routines that decode one value

* `Routine.Keeps` — a routine asks its decoder for the value it was given, or for the key and then
  the value of an entry, at most once, and for nothing after a failure. The decoders are taken at
  their worst: they may end in any content and any error.
* `Routine.DecodesOne` — a routine that keeps to this and succeeds only once its value was taken.
* `Decoding.perform_obeys` — carried out by strategies that obey, such a routine obeys.
-/

namespace Decant

/-- How far a routine has got with the value or the entry that it was given. -/
inductive Progress where
  /-- Nothing has been taken. -/
  | ready
  /-- The key of an entry was taken. -/
  | keyed
  /-- The value was taken. -/
  | taken
  /-- Something failed on the way. -/
  | broken
  deriving DecidableEq, Repr

namespace Progress

/-- The progress with an entry after its key was worked on. -/
def ofKey : Progress → Progress
  | taken => keyed
  | p => p

/-- The progress with an entry after its value was worked on. -/
def ofValue : Progress → Progress
  | ready => keyed
  | p => p

end Progress

namespace Routine

variable {δ : Type}

/-- However the decoders end, the routine asks them for nothing but what it was given, and a
condition on the progress, the error and the state holds at its end. A container is gone through
with an invariant of the state. -/
def Keeps : {h : Handle} → Routine δ h → (Progress → Option Error → δ → Prop) → Progress → δ → Prop
  | _, .skip, Q, p, s => Q p none s
  | _, .fail e, Q, p, s => Q p (some e) s
  | _, .update f, Q, p, s => Q p none (f s)
  | _, .choose f, Q, p, s => (f s).Keeps Q p s
  | _, .seq a b, Q, p, s =>
    a.Keeps (fun p e s => match e with
      | none => b.Keeps Q p s
      | some e => Q p (some e) s) p s
  | _, .attempt body finish, Q, p, s => body.Keeps (fun p e s => Q p none (finish e s)) p s
  | _, .decode _ _ finish, Q, p, s =>
    p = .ready ∧ ∀ c, Q .taken none (finish c none s) ∧
      ∀ e, Q .broken (some e) (finish c (some e) s)
  | _, .array body finish, Q, p, s =>
    p = .ready ∧ ∃ J : Nat → δ → Prop, J 0 s ∧ ∀ i s, J i s →
      (body i).Keeps (fun p e s => match e with
        | none => p = .taken ∧ J (i + 1) s
        | some e => Q .broken (some e.truncate) s) .ready s ∧
      (∀ tag, Q .taken none (finish tag i s)) ∧ ∀ e, Q .broken (some e) s
  | _, .map body finish, Q, p, s =>
    p = .ready ∧ ∃ J : Nat → δ → Prop, J 0 s ∧ ∀ i s, J i s →
      (body i).Keeps (fun p e s => match e with
        | none => p = .taken ∧ J (i + 1) s
        | some e => Q .broken (some e.truncate) s) .ready s ∧
      (∀ tag, Q .taken none (finish tag i s)) ∧ ∀ e, Q .broken (some e) s
  | _, .key body, Q, p, s => p = .ready ∧ body.Keeps (fun p e s => Q p.ofKey e s) .ready s
  | _, .value body, Q, p, s => p = .keyed ∧ body.Keeps (fun p e s => Q p.ofValue e s) .ready s

/-- The types that a routine decodes where it stands, and those that it decodes inside the
containers it goes through. -/
def Decodes (here inside : Ty → Prop) : {h : Handle} → Routine δ h → Prop
  | _, .skip | _, .fail _ | _, .update _ => True
  | _, .choose f => ∀ s, (f s).Decodes here inside
  | _, .seq a b => a.Decodes here inside ∧ b.Decodes here inside
  | _, .attempt body _ => body.Decodes here inside
  | _, .decode t _ _ => here t
  | _, .array body _ => ∀ n, (body n).Decodes inside inside
  | _, .map body _ => ∀ n, (body n).Decodes inside inside
  | _, .key body | _, .value body => body.Decodes here inside

theorem Decodes.mono {here here' inside inside' : Ty → Prop} :
    ∀ {h : Handle} {r : Routine δ h}, r.Decodes here inside → (∀ t, here t → here' t) →
      (∀ t, inside t → inside' t) → r.Decodes here' inside'
  | _, .skip, _, _, _ | _, .fail _, _, _, _ | _, .update _, _, _, _ => trivial
  | _, .choose _, h, hh, hi => fun s => (h s).mono hh hi
  | _, .seq _ _, h, hh, hi => ⟨h.1.mono hh hi, h.2.mono hh hi⟩
  | _, .attempt body _, h, hh, hi => Decodes.mono (r := body) h hh hi
  | _, .decode t _ _, h, hh, _ => hh t h
  | _, .array _ _, h, _, hi => fun n => (h n).mono hi hi
  | _, .map _ _, h, _, hi => fun n => (h n).mono hi hi
  | _, .key body, h, hh, hi => Decodes.mono (r := body) h hh hi
  | _, .value body, h, hh, hi => Decodes.mono (r := body) h hh hi

theorem decodes_of_forall {here inside : Ty → Prop} (hh : ∀ t, here t) (hi : ∀ t, inside t) :
    ∀ {h : Handle} (r : Routine δ h), r.Decodes here inside
  | _, .skip | _, .fail _ | _, .update _ => trivial
  | _, .choose f => fun s => decodes_of_forall hh hi (f s)
  | _, .seq a b => ⟨decodes_of_forall hh hi a, decodes_of_forall hh hi b⟩
  | _, .attempt body _ => decodes_of_forall hh hi body
  | _, .decode t _ _ => hh t
  | _, .array body _ => fun n => decodes_of_forall hi hi (body n)
  | _, .map body _ => fun n => decodes_of_forall hi hi (body n)
  | _, .key body => decodes_of_forall hh hi body
  | _, .value body => decodes_of_forall hh hi body

/-- A routine that decodes exactly one value: it asks for nothing else, and has taken the value
whenever it succeeds. -/
def DecodesOne (r : Routine Work .decoder) : Prop :=
  ∀ c, r.Keeps (fun p e _ => e = none → p = .taken) .ready ⟨c, .unit⟩

end Routine

/-- Every type of a schema that decodes by hand decodes one value. -/
def Schema.DecodesOne (s : Schema) : Prop :=
  ∀ name initial uses routine, s.find? name = some (.custom initial uses routine) →
    routine.DecodesOne

namespace Decoding

variable {δ : Type} {k rounds : Nat} {rest ds : List Due} {call : Ty → Strategy}

/-- What is due before a value is taken by a decoder that may still have to move to it. -/
def toTake : Option Nat → List Due
  | none => [.value]
  | some i => [.call (.toValue i), .value]

/-- What is due for a routine that was given a decoder, or an entry, and the move that the decoder
still has to make. After a failure nothing is said. -/
def Stands (start : Option Nat) (rest : List Due) :
    Handle → Nat → Progress → Option Nat → List Due → Prop
  | .decoder, _, .ready, pending, ds => pending = start ∧ ds = toTake start ++ rest
  | .decoder, _, .keyed, _, _ => False
  | .entry, i, .ready, pending, ds => pending = none ∧ ds = Container.map.element i ++ rest
  | .entry, i, .keyed, pending, ds => pending = none ∧ ds = toTake (some i) ++ rest
  | _, _, .taken, pending, ds => pending = none ∧ ds = rest
  | _, _, .broken, _, _ => True

/-- How a routine leaves its decoder. -/
def Leaves (start : Option Nat) (rest : List Due) (h : Handle) (i : Nat)
    (Q : Progress → Option Error → δ → Prop) (e : Ending (Hand δ) Unit) (ds : List Due) : Prop :=
  ∃ p, Stands start rest h i p e.dest.pending ds ∧ Q p (failure? e.result) e.dest.state

/-- Making a pending move leaves the value to be taken. -/
theorem handshake_obeys (x : Hand δ) :
    (handshake x).Obeys (Post (fun _ p y => p = .value :: rest ∧ y = ⟨x.state, none⟩)
      fun _ y => y.state = x.state) (toTake x.pending ++ rest) k := by
  obtain ⟨state, pending⟩ := x
  cases pending with
  | none => exact .done ⟨rfl, rfl⟩
  | some i =>
    refine .ask rfl ?_
    intro a
    cases a with
    | ok a => exact .done ⟨rfl, rfl⟩
    | error e => exact .done rfl

/-- What a routine makes of the end of a decoder. -/
def finished (finish : Content → Option Error → δ → δ) (x : Hand δ) (e : Ending Content Tag) :
    Ending (Hand δ) Unit :=
  let r := e.result.mapError Error.truncate
  ⟨r.map fun _ => (), { x with state := finish e.dest (failure? r) x.state }⟩

theorem decodeInto_apply (t : Ty) (start : δ → Content) (finish : Content → Option Error → δ → δ)
    (x : Hand δ) :
    decodeInto call t start finish x = (handshake x).bind fun e =>
      match e.result with
      | .error err => .done (finished finish e.dest ⟨.error err, start e.dest.state⟩)
      | .ok _ => (call t (start e.dest.state)).bind fun c => .done (finished finish e.dest c) := by
  simp only [decodeInto, bind_apply, attempt, truncated, Dialogue.bind_bind]
  refine congrArg _ (funext fun ⟨result, y⟩ => ?_)
  cases result with
  | error err => rfl
  | ok u =>
    show ((((call t (start y.state)).bind _).bind _).bind _) = _
    simp only [Dialogue.bind_bind]
    refine congrArg _ (funext fun ⟨result, c⟩ => ?_)
    cases result <;> rfl

theorem decodeInto_obeys {x : Hand δ} {i : Nat} {Q : Progress → Option Error → δ → Prop} {t : Ty}
    {start : δ → Content} {finish : Content → Option Error → δ → δ} (hc : (call t).Obeys k)
    (hq : ∀ c, Q .taken none (finish c none x.state) ∧
      ∀ e, Q .broken (some e) (finish c (some e) x.state)) :
    (decodeInto call t start finish x).Obeys (Leaves x.pending rest .decoder i Q)
      (toTake x.pending ++ rest) k := by
  rw [decodeInto_apply]
  apply (handshake_obeys x).bind
  rintro ⟨result, y⟩ p hp
  cases result with
  | error e =>
    have hy : y.state = x.state := hp
    refine .done ⟨.broken, trivial, ?_⟩
    show Q .broken _ (finish _ _ y.state)
    rw [hy]
    exact (hq _).2 _
  | ok u =>
    obtain ⟨rfl, rfl⟩ := hp
    apply (hc (start x.state) rest).bind
    rintro ⟨result, c⟩ p hp
    cases result with
    | error e => exact .done ⟨.broken, trivial, (hq c).2 _⟩
    | ok tag => exact .done ⟨.taken, ⟨rfl, hp⟩, (hq c).1⟩

/-- What a routine makes of a container that it went through. -/
def gone (finish : Tag → Nat → δ → δ) (tag : Tag) (e : Ending (Hand δ) Nat) : Ending (Hand δ) Unit :=
  match e.result with
  | .ok n => ⟨.ok (), { e.dest with state := finish tag n e.dest.state }⟩
  | .error err => ⟨.error err.truncate, e.dest⟩

theorem goThrough_apply (c : Container) (body : Nat → Decoding (Hand δ) Unit)
    (finish : Tag → Nat → δ → δ) (x : Hand δ) :
    goThrough c rounds body finish x = (handshake x).bind fun e =>
      match e.result with
      | .error err => .done ⟨.error err.truncate, e.dest⟩
      | .ok _ => .ask .type fun
        | .error err => .done ⟨.error err.truncate, e.dest⟩
        | .ok tag => (walk c rounds tag body e.dest).bind fun w => .done (gone finish tag w) := by
  refine (Dialogue.bind_bind _ _ _).trans ((Dialogue.bind_bind _ _ _).trans ?_)
  refine congrArg _ (funext fun ⟨result, y⟩ => ?_)
  cases result with
  | error err => rfl
  | ok u =>
    refine congrArg (Dialogue.ask .type) (funext fun a => ?_)
    cases a with
    | error err => rfl
    | ok tag =>
      show ((walk c rounds tag body y).bind _).bind _ = _
      rw [Dialogue.bind_bind]
      refine congrArg _ (funext fun ⟨result, z⟩ => ?_)
      cases result <;> rfl

theorem goThrough_obeys {x : Hand δ} {i : Nat} {Q : Progress → Option Error → δ → Prop}
    {c : Container} {body : Nat → Decoding (Hand δ) Unit} {finish : Tag → Nat → δ → δ}
    {J : Nat → δ → Prop} (hk : k ≤ rounds)
    (hb : Carries (k - 1) c (fun i y => y.pending = none ∧ J i y.state)
      (fun e y => Q .broken (some e.truncate) y.state) body)
    (hj : J 0 x.state) (hq : ∀ i s, J i s → ∀ tag, Q .taken none (finish tag i s))
    (he : ∀ i s, J i s → ∀ e, Q .broken (some e) s) :
    (goThrough c rounds body finish x).Obeys (Leaves x.pending rest .decoder i Q)
      (toTake x.pending ++ rest) k := by
  rw [goThrough_apply]
  apply (handshake_obeys x).bind
  rintro ⟨result, y⟩ p hp
  cases result with
  | error e =>
    have hy : y.state = x.state := hp
    refine .done ⟨.broken, trivial, ?_⟩
    show Q .broken _ y.state
    rw [hy]
    exact he 0 x.state hj _
  | ok u =>
    obtain ⟨rfl, rfl⟩ := hp
    refine .ask rfl ?_
    intro a
    cases a with
    | error e => exact .done ⟨.broken, trivial, he 0 x.state hj _⟩
    | ok tag =>
      have hF : ∀ i (y : Hand δ) e, (y.pending = none ∧ J i y.state) →
          Q .broken (some (Error.truncate e)) y.state := fun i y e h => he i y.state h.2 _
      have hb' : Carries (k - 1 - 1) c _ _ body := fun i y rest h => (hb i y rest h).anti (by omega)
      have hw : (walk c rounds tag body ⟨x.state, none⟩).Obeys (Post (fun n p y => p = rest ∧ _) _)
        (tag.due :: rest) (k - 1) := walk_obeys hF hb' (by omega) tag ⟨rfl, hj⟩
      apply hw.bind
      rintro ⟨result, z⟩ p hp
      cases result with
      | error e => exact .done ⟨.broken, trivial, hp⟩
      | ok n => exact .done ⟨.taken, ⟨hp.2.1, hp.1⟩, hq n z.state hp.2.2 tag⟩

/-- A body that took its value, or its entry, leaves things as the rule for containers asks. -/
theorem Leaves.passed {h : Handle} {i : Nat} {J : Nat → δ → Prop}
    {Q : Progress → Option Error → δ → Prop} {e : Ending (Hand δ) Unit}
    (hl : Leaves none rest h i (fun p e s => match e with
      | none => p = .taken ∧ J (i + 1) s
      | some e => Q .broken (some e.truncate) s) e ds) :
    Post (fun _ p y => p = rest ∧ y.pending = none ∧ J (i + 1) y.state)
      (fun e y => Q .broken (some e.truncate) y.state) e ds := by
  obtain ⟨result, y⟩ := e
  obtain ⟨p, hs, hq⟩ := hl
  cases result with
  | error e => exact hq
  | ok u =>
    obtain ⟨rfl, hj⟩ := hq
    have hs' : y.pending = none ∧ ds = rest := by
      cases h <;> exact hs
    exact ⟨hs'.2, hs'.1, hj⟩

/-- **A routine that keeps to what it was given obeys the protocol**, carried out by strategies that
do. -/
theorem perform_obeys :
    ∀ {k : Nat} {h : Handle} (i : Nat) (r : Routine δ h) {Q : Progress → Option Error → δ → Prop}
      {p : Progress} {x : Hand δ} {start : Option Nat} {ds rest : List Due}, k ≤ rounds →
      r.Decodes (fun t => (call t).Obeys k) (fun t => (call t).Obeys (k - 1)) →
      r.Keeps Q p x.state → Stands start rest h i p x.pending ds →
        (perform call rounds i r x).Obeys (Leaves start rest h i Q) ds k
  | _, _, _, .skip, _, p, _, _, _, _, _, _, hq, hs => .done ⟨p, hs, hq⟩
  | _, _, _, .fail _, _, p, _, _, _, _, _, _, hq, hs => .done ⟨p, hs, hq⟩
  | _, _, _, .update _, _, p, _, _, _, _, _, _, hq, hs => .done ⟨p, hs, hq⟩
  | _, _, i, .choose f, _, _, x, _, _, _, hk, hd, hq, hs =>
    perform_obeys i (f x.state) hk (hd _) hq hs
  | _, _, i, .seq a b, _, _, x, _, _, _, hk, hd, hq, hs => by
    apply (perform_obeys i a hk hd.1 hq hs).bind
    rintro ⟨result, y⟩ ds' ⟨p', hs', hq'⟩
    cases result with
    | error e => exact .done ⟨p', hs', hq'⟩
    | ok u => exact perform_obeys i b hk hd.2 hq' hs'
  | _, _, i, .attempt body finish, _, _, x, _, _, _, hk, hd, hq, hs => by
    show (((perform call rounds i body x).bind _).bind _).Obeys _ _ _
    rw [Dialogue.bind_bind]
    apply (perform_obeys i body hk hd hq hs).bind
    rintro ⟨result, y⟩ ds' ⟨p', hs', hq'⟩
    exact .done ⟨p', hs', hq'⟩
  | _, _, i, .decode t start finish, _, _, x, _, _, _, hk, hd, ⟨hp, hq⟩, hs => by
    subst hp
    obtain ⟨rfl, rfl⟩ := hs
    exact decodeInto_obeys hd hq
  | k, _, i, .array body finish, Q, _, x, _, _, rest, hk, hd, ⟨hp, J, hj, hJ⟩, hs => by
    subst hp
    obtain ⟨rfl, rfl⟩ := hs
    refine goThrough_obeys hk ?_ hj (fun n s h => (hJ n s h).2.1) fun n s h => (hJ n s h).2.2
    rintro n y rest ⟨hy, hj⟩
    have hd' := (hd n).mono (fun t h => h) fun t h => h.anti (Nat.sub_le (k - 1) 1)
    have hs' : Stands none rest .decoder n .ready y.pending (.value :: rest) := ⟨hy, rfl⟩
    have hb := perform_obeys n (body n) (by omega) hd' (hJ n _ hj).1 hs'
    exact hb.mono fun e ds' hl => hl.passed
  | k, _, i, .map body finish, Q, _, x, _, _, rest, hk, hd, ⟨hp, J, hj, hJ⟩, hs => by
    subst hp
    obtain ⟨rfl, rfl⟩ := hs
    refine goThrough_obeys hk ?_ hj (fun n s h => (hJ n s h).2.1) fun n s h => (hJ n s h).2.2
    rintro n y rest ⟨hy, hj⟩
    have hd' := (hd n).mono (fun t h => h) fun t h => h.anti (Nat.sub_le (k - 1) 1)
    have hs' : Stands none rest .entry n .ready y.pending (Container.map.element n ++ rest) :=
      ⟨hy, rfl⟩
    have hb := perform_obeys n (body n) (by omega) hd' (hJ n _ hj).1 hs'
    exact hb.mono fun e ds' hl => hl.passed
  | _, _, i, .key body, Q, _, x, _, _, rest, hk, hd, ⟨hp, hq⟩, hs => by
    subst hp
    obtain ⟨hx, rfl⟩ := hs
    rw [perform, onChild, focus_apply]
    have hs' : Stands none (toTake (some i) ++ rest) .decoder i .ready none
      (Container.map.element i ++ rest) := ⟨rfl, rfl⟩
    have hb := perform_obeys (x := ⟨x.state, none⟩) i body hk hd hq hs'
    apply hb.bind
    rintro ⟨result, y⟩ ds' ⟨p', hs', hq'⟩
    refine .done ⟨p'.ofKey, ?_, hq'⟩
    cases p' with
    | ready => exact ⟨hx, hs'.2⟩
    | keyed => exact hs'.elim
    | taken => exact ⟨hx, hs'.2⟩
    | broken => trivial
  | _, _, i, .value body, Q, _, x, _, _, rest, hk, hd, ⟨hp, hq⟩, hs => by
    subst hp
    obtain ⟨hx, rfl⟩ := hs
    rw [perform, onChild, focus_apply]
    have hs' : Stands (some i) rest .decoder i .ready (some i) (toTake (some i) ++ rest) :=
      ⟨rfl, rfl⟩
    have hb := perform_obeys (x := ⟨x.state, some i⟩) i body hk hd hq hs'
    apply hb.bind
    rintro ⟨result, y⟩ ds' ⟨p', hs', hq'⟩
    refine .done ⟨p'.ofValue, ?_, hq'⟩
    cases p' with
    | ready => exact ⟨hx, hs'.2⟩
    | keyed => exact hs'.elim
    | taken => exact ⟨hx, hs'.2⟩
    | broken => trivial

/-- A type that decodes by hand obeys the protocol if its routine decodes one value. -/
theorem custom_obeys {routine : Routine Work .decoder} (hr : routine.DecodesOne) (hk : k ≤ rounds)
    (hd : routine.Decodes (fun t => (call t).Obeys k) fun t => (call t).Obeys (k - 1)) :
    Strategy.Obeys k (custom call rounds routine) := by
  intro c rest
  refine obeys_bind ?_ fun _ p d hp => .done hp
  rw [focus_apply]
  have hs : Stands none rest .decoder 0 .ready none (.value :: rest) := ⟨rfl, rfl⟩
  have hb := perform_obeys (x := ⟨⟨c, .unit⟩, none⟩) 0 routine hk hd (hr c) hs
  apply hb.bind
  rintro ⟨result, y⟩ ds ⟨p, hs', hq⟩
  cases result with
  | error e => exact .done trivial
  | ok u =>
    obtain rfl := hq rfl
    exact .done hs'.2

end Decoding

end Decant
