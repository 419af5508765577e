import Decant.Proofs.Composition

/-!
# Which decoder makes a call

* `Calls` — lists of exchanges that decoders make: values one after the other, containers that are
  entered, gone through and left, or given up on the way. Only what works on the entry of a map moves to
  its value, and each element starts without owing a move.
* `Dialogue.Says` — a condition on the exchanges and the end of a dialogue, whatever is answered.
* `Decoding.Speaks` — a decoding that makes such calls, with one lemma for each decoder. No decoder moves
  to a value but in the entries of the maps that it went through itself.
-/

namespace Decant

/-! ## Lists of exchanges -/

/-- What calls are made for. -/
inductive Place where
  /-- For values that follow each other. What works on an entry of a map may move to its value. -/
  | free (entry : Option Nat)
  /-- For a container that was entered, and of which so many elements were gone through. -/
  | inside (c : Container) (i : Nat)

/-- The entry that an element of a container is. -/
def Container.entry? : Container → Nat → Option Nat
  | array, _ => none
  | map, i => some i

/-- The calls that decoders make. A container may be given up at any point, since a failure may be
caught further out. -/
inductive Calls : Place → List Exchange → Prop
  | nil (p : Option Nat) : Calls (.free p) []
  | plain {p : Option Nat} {x : Exchange} {xs : List Exchange} (hx : x.call.isPlain = true)
      (h : Calls (.free p) xs) : Calls (.free p) (x :: xs)
  /-- Only what works on entry `i` of a map moves to the value of entry `i`. -/
  | move {i : Nat} {xs : List Exchange} (a : Answer (.toValue i)) (h : Calls (.free (some i)) xs) :
      Calls (.free (some i)) (⟨.toValue i, a⟩ :: xs)
  | barred {p : Option Nat} {xs : List Exchange} (c : Container) (e : Error)
      (h : Calls (.free p) xs) : Calls (.free p) (⟨.enter c, .error e⟩ :: xs)
  | enter {p : Option Nat} {ys xs : List Exchange} (c : Container) (length : Option Nat)
      (hc : Calls (.inside c 0) ys) (h : Calls (.free p) xs) :
      Calls (.free p) (⟨.enter c, .ok length⟩ :: (ys ++ xs))
  | givenUp (c : Container) (i : Nat) : Calls (.inside c i) []
  /-- The first element of a container that declares some is there without asking. -/
  | first {c : Container} {ys xs : List Exchange} (hb : Calls (.free (c.entry? 0)) ys)
      (h : Calls (.inside c 1) xs) : Calls (.inside c 0) (ys ++ xs)
  | next {c : Container} {i : Nat} {ys xs : List Exchange} (u : Unit)
      (hb : Calls (.free (c.entry? i)) ys) (h : Calls (.inside c (i + 1)) xs) :
      Calls (.inside c i) (⟨.next c i, .ok u⟩ :: (ys ++ xs))
  | failed (c : Container) (i : Nat) (e : Error) : Calls (.inside c i) [⟨.next c i, .error e⟩]
  | ended (c : Container) (i : Nat) (a : Answer (.leave c i)) :
      Calls (.inside c i) [⟨.next c i, .error .ended⟩, ⟨.leave c i, a⟩]
  | leave (c : Container) (i : Nat) (a : Answer (.leave c i)) :
      Calls (.inside c i) [⟨.leave c i, a⟩]

namespace Calls

variable {p : Option Nat} {xs ys : List Exchange}

theorem append (h : Calls (.free p) xs) (h' : Calls (.free p) ys) : Calls (.free p) (xs ++ ys) := by
  generalize hq : Place.free p = q at h
  induction h with
  | nil =>
    cases hq
    exact h'
  | plain hx _ ih =>
    cases hq
    exact .plain hx (ih rfl)
  | move a _ ih =>
    cases hq
    exact .move a (ih rfl)
  | barred c e _ ih =>
    cases hq
    exact .barred c e (ih rfl)
  | enter c length hc _ _ ih =>
    cases hq
    rw [List.cons_append, List.append_assoc]
    exact .enter c length hc (ih rfl)
  | givenUp | first | next | failed | ended | leave => cases hq

/-- What owes no move may be done anywhere. -/
theorem anywhere (h : Calls (.free none) xs) (p : Option Nat) : Calls (.free p) xs := by
  generalize hq : Place.free none = q at h
  induction h with
  | nil => exact .nil p
  | plain hx _ ih => exact .plain hx (ih hq)
  | move a _ ih => cases hq
  | barred c e _ ih => exact .barred c e (ih hq)
  | enter c length hc _ _ ih => exact .enter c length hc (ih hq)
  | givenUp | first | next | failed | ended | leave => cases hq

theorem single {x : Exchange} (hx : x.call.isPlain = true) : Calls (.free p) [x] := .plain hx (.nil p)

end Calls

/-- The first call, if any, asks for the tag of a value. -/
def Typed (xs : List Exchange) : Prop := ∀ x ∈ xs.head?, x.call = .type

theorem Typed.append {xs ys : List Exchange} (h : Typed xs) (h' : Typed ys) : Typed (xs ++ ys) := by
  cases xs with
  | nil => exact h'
  | cons x xs => exact h

/-- The calls that are made for values that follow each other where no move is owed. -/
structure Fresh (xs : List Exchange) : Prop where
  calls : Calls (.free none) xs
  typed : Typed xs

theorem Fresh.nil : Fresh [] := ⟨.nil none, fun _ h => nomatch h⟩

theorem Fresh.append {xs ys : List Exchange} (h : Fresh xs) (h' : Fresh ys) : Fresh (xs ++ ys) :=
  ⟨h.calls.append h'.calls, h.typed.append h'.typed⟩

/-! ## Dialogues -/

namespace Dialogue

variable {α β : Type} {L M : List Exchange → Option α → Prop}

/-- Whatever is answered, the exchanges and the end of a dialogue meet a condition; the end is absent if
the budget of steps ran out. -/
def Says : Dialogue α → (List Exchange → Option α → Prop) → Prop
  | done a, L => L [] (some a)
  | exhausted, L => L [] none
  | ask c next, L => ∀ a, (next a).Says fun xs r => L (⟨c, a⟩ :: xs) r
  | resolve _ next, L => ∀ f, (next f).Says L
  | note _ rest, L => rest.Says L

namespace Says

theorem mono {d : Dialogue α} (h : d.Says L) (hl : ∀ xs r, L xs r → M xs r) : d.Says M := by
  induction d generalizing L M with
  | done a => exact hl _ _ h
  | exhausted => exact hl _ _ h
  | ask c next ih => exact fun a => ih a (h a) fun xs r => hl _ r
  | resolve t next ih => exact fun f => ih f (h f) hl
  | note n rest ih => exact ih h hl

theorem and {d : Dialogue α} (h : d.Says L) (h' : d.Says M) : d.Says fun xs r => L xs r ∧ M xs r := by
  induction d generalizing L M with
  | done a => exact ⟨h, h'⟩
  | exhausted => exact ⟨h, h'⟩
  | ask c next ih => exact fun a => ih a (h a) (h' a)
  | resolve t next ih => exact fun f => ih f (h f) (h' f)
  | note n rest ih => exact ih h h'

theorem of_forall (h : ∀ xs r, L xs r) (d : Dialogue α) : d.Says L := by
  induction d generalizing L with
  | done a => exact h _ _
  | exhausted => exact h _ _
  | ask c next ih => exact fun a => ih a fun _ _ => h _ _
  | resolve t next ih => exact fun f => ih f h
  | note n rest ih => exact ih h

/-- Whatever is answered, a dialogue takes some course. -/
theorem exists_course {d : Dialogue α} (h : d.Says L) : ∃ xs r, L xs r := by
  induction d generalizing L with
  | done a => exact ⟨_, _, h⟩
  | exhausted => exact ⟨_, _, h⟩
  | ask c next ih =>
    obtain ⟨xs, r, hl⟩ := ih (.error .ended) (h (.error .ended))
    exact ⟨_, r, hl⟩
  | resolve t next ih => exact ih ⟨.dynamic, []⟩ (h _)
  | note n rest ih => exact ih h

theorem bind {d : Dialogue α} {f : α → Dialogue β} {L : List Exchange → Option β → Prop} (h : d.Says M)
    (hcut : ∀ xs, M xs none → L xs none)
    (hf : ∀ xs a, M xs (some a) → (f a).Says fun ys r => L (xs ++ ys) r) : (d.bind f).Says L := by
  induction d generalizing M L with
  | done a => exact hf [] a h
  | exhausted => exact hcut [] h
  | ask c next ih => exact fun a => ih a (h a) (fun xs => hcut _) fun xs b hb => hf _ b hb
  | resolve t next ih => exact fun p => ih p (h p) hcut hf
  | note n rest ih => exact ih h hcut hf

/-- What comes after a dialogue, whatever that did. -/
theorem after {d : Dialogue α} {f : α → Dialogue β} {L : List Exchange → Option β → Prop}
    (hcut : ∀ xs, L xs none) (hf : ∀ xs a, (f a).Says fun ys r => L (xs ++ ys) r) : (d.bind f).Says L :=
  (of_forall (fun _ _ => trivial) d : d.Says fun _ _ => True).bind (fun xs _ => hcut xs) fun xs a _ => hf xs a

theorem run {σ : Type} [TokenSource σ] {d : Dialogue α} (h : d.Says L) (s : Schema) (src : σ)
    (reg : Registry) : L (d.run s src reg).exchanges (d.run s src reg).answer := by
  induction d generalizing L src reg with
  | done a => exact h
  | exhausted => exact h
  | ask c next ih => exact ih _ (h _) _ _
  | resolve t next ih => exact ih _ (h _) _ _
  | note n rest ih => exact ih h _ _

end Says

end Dialogue

/-! ## Decodings -/

namespace Decoding

open Dialogue (Says)

variable {δ γ α β : Type} {p : Option Nat}

/-- From any destination, a decoding makes calls for values that follow each other. -/
def Speaks (p : Option Nat) (m : Decoding δ α) : Prop :=
  ∀ d, (m d).Says fun xs _ => Calls (.free p) xs

namespace Speaks

/-- A decoding that asks nothing. -/
theorem quiet {m : Decoding δ α} (h : ∀ d, ∃ e, m d = .done e) : Speaks p m := by
  intro d
  obtain ⟨e, he⟩ := h d
  rw [he]
  exact .nil p

theorem pure (a : α) : Speaks p (pure a : Decoding δ α) := quiet fun _ => ⟨_, rfl⟩

theorem fail (e : Error) : Speaks p (fail e : Decoding δ α) := quiet fun _ => ⟨_, rfl⟩

theorem note (n : Note) : Speaks p (note n : Decoding δ Unit) := fun _ => .nil p

theorem ask {c : Call} (hc : c.isPlain = true) : Speaks p (ask c : Decoding δ c.Reply) :=
  fun _ _ => .single hc

/-- What works on an entry may move to its value. -/
theorem toValue (i : Nat) : Speaks (some i) (Decoding.ask (.toValue i) : Decoding δ Unit) :=
  fun _ a => .move a (.nil _)

theorem anywhere {m : Decoding δ α} (h : Speaks none m) (p : Option Nat) : Speaks p m :=
  fun d => (h d).mono fun _ _ hx => hx.anywhere p

/-- What is done at the end of a decoding makes no calls. -/
theorem ends {m : Decoding γ α} {d : γ} {f : Ending γ α → Ending δ β}
    (h : (m d).Says fun xs _ => Calls (.free p) xs) :
    ((m d).bind fun e => .done (f e)).Says fun xs _ => Calls (.free p) xs :=
  h.bind (fun _ hx => hx) fun xs _ hx => by
    show Calls _ (xs ++ [])
    rwa [List.append_nil]

theorem bind {m : Decoding δ α} {f : α → Decoding δ β} (h : Speaks p m) (hf : ∀ a, Speaks p (f a)) :
    Speaks p (m >>= f) := by
  refine fun d => (h d).bind (fun _ hx => hx) fun xs e hx => ?_
  obtain ⟨result, d'⟩ := e
  cases result with
  | ok a => exact (hf a d').mono fun ys _ hy => hx.append hy
  | error err =>
    show Calls _ (xs ++ [])
    rwa [List.append_nil]

theorem map {m : Decoding δ α} (f : α → β) (h : Speaks p m) :
    Speaks p (m >>= fun a => Pure.pure (f a)) := h.bind fun _ => .pure _

theorem attempt {m : Decoding δ α} (h : Speaks p m) : Speaks p (attempt m) := fun d => ends (h d)

theorem fresh (start : γ) {m : Decoding γ α} (h : Speaks p m) :
    Speaks p (fresh start m : Decoding δ (α × γ)) := by
  intro d
  rw [fresh_apply]
  exact ends (h start)

theorem focus (part : δ → γ) (put : γ → δ → δ) {m : Decoding γ α} (h : Speaks p m) :
    Speaks p (focus part put m) := by
  intro d
  rw [focus_apply]
  exact ends (h (part d))

end Speaks

/-! ### Walking through containers -/

/-- Calls for values that follow each other; at the end an invariant of the destination holds. -/
def Keeping (p : Option Nat) (J : δ → Prop) (xs : List Exchange) (e : Option (Ending δ α)) : Prop :=
  Calls (.free p) xs ∧ ∀ y, e = some y → J y.dest

/-- The rounds of a container, which may still be left if they came to an end. -/
def Rounds (c : Container) (i : Nat) (J : δ → Prop) (xs : List Exchange) (e : Option (Ending δ Nat)) :
    Prop :=
  Calls (.inside c i) xs ∧ ∀ y, e = some y → J y.dest ∧
    ∀ n, y.result = .ok n → ∀ a, Calls (.inside c i) (xs ++ [⟨.leave c n, a⟩])

section walk

variable {c : Container} {J : δ → Prop} {body : Nat → Decoding δ Unit} {d : δ}

/-- Rounds that came to an end where they started. -/
theorem rounds_stop (hj : J d) (i : Nat) : Rounds c i J [] (some ⟨.ok i, d⟩) := by
  refine ⟨.givenUp c i, fun y hy => ?_⟩
  cases hy
  refine ⟨hj, fun n hn a => ?_⟩
  cases hn
  exact .leave c i a

/-- Rounds that came to an end where the source failed to go on. -/
theorem rounds_failed (hj : J d) (i : Nat) (e : Error) :
    Rounds c i J [⟨.next c i, .error e⟩] (some ⟨.error e, d⟩) := by
  refine ⟨.failed c i e, fun y hy => ?_⟩
  cases hy
  exact ⟨hj, fun n hn => by cases hn⟩

/-- What may come in front of element `i`: it is gone on to, or it is the first one. -/
def Front (c : Container) (i : Nat) (front : List Exchange) : Prop :=
  front = [] ∧ i = 0 ∨ front = [⟨.next c i, .ok ()⟩]

theorem Front.calls {i : Nat} {front ys xs : List Exchange} (hf : Front c i front)
    (hb : Calls (.free (c.entry? i)) ys) (h : Calls (.inside c (i + 1)) xs) :
    Calls (.inside c i) (front ++ (ys ++ xs)) := by
  rcases hf with ⟨rfl, rfl⟩ | rfl
  · have hfirst := Calls.first hb h
    exact hfirst
  · have hnext := Calls.next () hb h
    exact hnext

theorem Front.rounds {i : Nat} {front ys xs : List Exchange} {e : Option (Ending δ Nat)}
    (hf : Front c i front) (hb : Calls (.free (c.entry? i)) ys) (h : Rounds c (i + 1) J xs e) :
    Rounds c i J (front ++ (ys ++ xs)) e := by
  refine ⟨hf.calls hb h.1, fun y hy => ⟨(h.2 y hy).1, fun n hn a => ?_⟩⟩
  rw [List.append_assoc, List.append_assoc]
  exact hf.calls hb ((h.2 y hy).2 n hn a)

/-- An element, and the rounds after it. -/
theorem round_calls {length : Option Nat} {i n : Nat} {front : List Exchange} (hf : Front c i front)
    (hb : (body i d).Says (Keeping (c.entry? i) J))
    (hrest : ∀ d', J d' → (walkFrom c length body n (i + 1) d').Says (Rounds c (i + 1) J)) :
    ((body i >>= fun _ => walkFrom c length body n (i + 1)) d).Says
      fun xs e => Rounds c i J (front ++ xs) e := by
  have hcut : ∀ {ys : List Exchange}, Calls (.free (c.entry? i)) ys →
      Calls (.inside c i) (front ++ ys) := by
    intro ys hy
    have h := hf.calls hy (.givenUp c (i + 1))
    rwa [List.append_nil] at h
  refine hb.bind (fun ys hy => ⟨hcut hy.1, nofun⟩) fun ys ⟨result, d'⟩ hy => ?_
  cases result with
  | ok u => exact (hrest d' (hy.2 _ rfl)).mono fun xs e h => hf.rounds hy.1 h
  | error err =>
    show Rounds c i J (front ++ (ys ++ [])) _
    rw [List.append_nil]
    refine ⟨hcut hy.1, fun y he => ?_⟩
    cases he
    exact ⟨hy.2 _ rfl, nofun⟩

theorem walkFrom_calls {length : Option Nat}
    (hb : ∀ i d, J d → (body i d).Says (Keeping (c.entry? i) J)) :
    ∀ (n i : Nat) {d : δ}, J d → (walkFrom c length body n i d).Says (Rounds c i J)
  | 0, i, _, _ => ⟨.givenUp c i, fun y hy => by cases hy⟩
  | n + 1, i, d, hj => by
    unfold walkFrom
    split
    · exact rounds_stop hj i
    · have hrest : ∀ d', J d' → (walkFrom c length body n (i + 1) d').Says (Rounds c (i + 1) J) :=
        fun d' hj' => walkFrom_calls hb n (i + 1) hj'
      unfold goesOn
      split
      · intro a
        cases a with
        | ok u => exact round_calls (.inr rfl) (hb i d hj) hrest
        | error e =>
          cases e with
          | ended =>
            refine ⟨.failed c i .ended, fun y hy => ?_⟩
            cases hy
            refine ⟨hj, fun k hk a => ?_⟩
            cases hk
            exact .ended c i a
          | _ => exact rounds_failed hj i _
      · rename_i hi
        have hi : i = 0 := by
          simp only [Bool.or_eq_true, bne_iff_ne, ne_eq, not_or, Decidable.not_not] at hi
          exact hi.2
        exact round_calls (.inl ⟨rfl, hi⟩) (hb i d hj) hrest

/-- **Going through a container.** What works on its elements may move to the values of its own
entries. -/
theorem walk_calls {n : Nat} (hb : ∀ i d, J d → (body i d).Says (Keeping (c.entry? i) J)) (tag : Tag)
    (hj : J d) (p : Option Nat) : (walk c n tag body d).Says (Keeping p J) := by
  have hend : ∀ {xs : List Exchange} {r : Except Error Nat}, Calls (.free p) xs →
      Keeping p J xs (some ⟨r, d⟩) := by
    intro xs r hx
    refine ⟨hx, fun y hy => ?_⟩
    cases hy
    exact hj
  unfold walk
  split
  · intro a
    cases a with
    | ok a => exact hend (.single rfl)
    | error e => exact hend (.single rfl)
  · split
    · intro a
      cases a with
      | error e => exact hend (.barred c e (.nil p))
      | ok length =>
        have henter : ∀ {xs : List Exchange}, Calls (.inside c 0) xs →
            Calls (.free p) (⟨.enter c, .ok length⟩ :: xs) := by
          intro xs hx
          have h := Calls.enter c length hx (.nil p)
          rwa [List.append_nil] at h
        refine (walkFrom_calls hb n 0 hj).bind (fun xs hx => ⟨henter hx.1, nofun⟩) fun xs ⟨r, d'⟩ hx => ?_
        cases r with
        | error e =>
          show Keeping p J (_ :: (xs ++ [])) _
          rw [List.append_nil]
          refine ⟨henter hx.1, fun y hy => ?_⟩
          cases hy
          exact (hx.2 _ rfl).1
        | ok k =>
          intro a
          have hleave := henter ((hx.2 _ rfl).2 k rfl a)
          cases a with
          | ok a =>
            refine ⟨hleave, fun y hy => ?_⟩
            cases hy
            exact (hx.2 _ rfl).1
          | error e =>
            refine ⟨hleave, fun y hy => ?_⟩
            cases hy
            exact (hx.2 _ rfl).1
    · exact hend (.nil p)

end walk

namespace Speaks

theorem walk {c : Container} {n : Nat} {body : Nat → Decoding δ Unit}
    (hb : ∀ i, Speaks (c.entry? i) (body i)) (tag : Tag) (p : Option Nat) :
    Speaks p (walk c n tag body) := by
  intro d
  have h := walk_calls (J := fun _ => True) (n := n) (d := d)
    (fun i d _ => (hb i d).mono fun _ _ hx => ⟨hx, fun _ _ => trivial⟩) tag trivial p
  exact h.mono fun _ _ hx => hx.1

/-! ### Leaves -/

/-- Reading a leaf makes no call that moves. -/
def leaf (p : Option Nat) (δ : Type) : LeafLaw δ where
  Holds := Speaks p
  pure := .pure
  fail := .fail
  ask _ := .ask
  bind := .bind

theorem readString (tag expected : Tag) : Speaks p (readString tag expected : Decoding δ String) :=
  (leaf p δ).readString tag expected

theorem takesOne {f : Strategy} (h : f.TakesOne) : Speaks p f := by
  intro d
  obtain ⟨next, hd, hf, ht⟩ := h d
  rw [hd]
  intro a
  cases a with
  | error e =>
    rw [hf]
    exact .single rfl
  | ok tag =>
    have htag := ht tag
    generalize next (.ok tag) = x at htag
    cases htag with
    | refuse e => exact .single rfl
    | @take c next hc hf hr =>
      have hplain : c.isPlain = true := by
        cases tag <;> simp only [Tag.token?, Option.some.injEq, reduceCtorEq] at hc <;>
          subst hc <;> rfl
      intro a
      cases a with
      | error e =>
        rw [hf]
        exact .plain rfl (.single hplain)
      | ok a =>
        obtain ⟨e, he, -⟩ := hr a
        rw [he]
        exact .plain rfl (.single hplain)

/-! ### Containers -/

variable {n : Nat} {nested : Ty → Strategy}

theorem value {f : Strategy} (hf : Speaks p f) : Speaks p (value f : Decoding δ Value) :=
  (hf.fresh _).map _

theorem discard {f : Strategy} (hf : Speaks p f) : Speaks p (discard f : Decoding δ Unit) :=
  (value hf).map _

theorem list (s : Schema) {t : Ty} (hf : Speaks none (nested t)) :
    Speaks none (list s (fun u => Pure.pure (nested u)) n t) := by
  unfold Decoding.list
  rw [pure_bind]
  apply (ask rfl).bind
  intro tag
  have hitem : Speaks none (item s t (nested t)) := (hf.fresh _).bind fun _ => quiet fun _ => ⟨_, rfl⟩
  exact ((walk (c := .array) (fun _ => hitem) tag none).fresh []).bind fun _ => quiet fun _ => ⟨_, rfl⟩

theorem array (s : Schema) {t : Ty} (length : Nat) (hf : Speaks none (nested t))
    (hd : Speaks none (nested .dynamic)) : Speaks none
      (array s (fun u => Pure.pure (nested u)) (fun u => Pure.pure (nested u)) n t length) := by
  unfold Decoding.array
  simp only [pure_bind, through_pure]
  apply (ask rfl).bind
  intro tag
  apply bind (quiet fun _ => ⟨_, rfl⟩)
  intro _
  refine (walk (c := .array) (fun i => ?_) tag none).bind fun found => ?_
  · split
    · exact (hf.focus _ _).map _
    · exact discard hd
  · split
    · exact bind (.fail _) fun _ => .pure tag
    · exact .pure tag

/-- An entry moves to its own value. -/
theorem entry (s : Schema) {key value : Ty} {kf vf : Strategy} (hk : Speaks none kf)
    (hv : Speaks none vf) (i : Nat) :
    Speaks (some i) (entry s key value kf vf i : Decoding δ (Content × Content)) := by
  apply ((hk.anywhere _).fresh _).bind
  intro k
  apply (toValue i).bind
  intro _
  exact ((hv.anywhere _).fresh _).map _

theorem mapOf (s : Schema) {key value : Ty} (hk : Speaks none (nested key))
    (hv : Speaks none (nested value)) :
    Speaks none (Decoding.map s (fun u => Pure.pure (nested u)) n key value) := by
  unfold Decoding.map
  simp only [pure_bind]
  apply (ask rfl).bind
  intro tag
  refine ((walk (c := .map) (fun i => ?_) tag none).fresh _).bind fun _ => quiet fun _ => ⟨_, rfl⟩
  exact (entry s hk hv i).bind fun _ => quiet fun _ => ⟨_, rfl⟩

theorem textMap (s : Schema) {value : Ty} (hk : Speaks none (nested .text))
    (hv : Speaks none (nested value)) :
    Speaks none (textMap s (fun u => Pure.pure (nested u)) n value) := by
  rw [textMap_eq]
  unfold refill
  simp only [pure_bind]
  apply (ask rfl).bind
  intro tag
  apply bind (quiet fun _ => ⟨_, rfl⟩)
  intro _
  refine (walk (c := .map) (fun i => ?_) tag none).bind fun _ => .pure tag
  exact (entry s hk hv i).bind fun _ => quiet fun _ => ⟨_, rfl⟩

/-! ### Records -/

/-- A field moves to its own value. -/
theorem field (hf : ∀ t, Speaks none (nested t)) (fields : Fields Slot) (i : Nat) : Speaks (some i)
    (field (fun u => Pure.pure (nested u)) (fun u => Pure.pure (nested u)) fields i) := by
  apply (ask rfl).bind
  intro tag
  apply (readString tag .string).bind
  intro name
  have hslot : Speaks (some i) (do
      let _ ← Decoding.ask (.toValue i)
      intoSlot (fun u => Pure.pure (nested u)) (fun u => Pure.pure (nested u))
        (fields.get? name)) := by
    apply (toValue i).bind
    intro _
    unfold intoSlot
    simp only [through_pure]
    split
    · exact (((hf _).anywhere _).focus _ _).map _
    · exact .fail _
    · exact discard ((hf .dynamic).anywhere _)
  simp only
  split
  · exact (note _).bind fun _ => hslot
  · exact hslot

theorem record (initial : Content) (hf : ∀ t, Speaks none (nested t)) (fields : Fields Slot) :
    Speaks none (record initial (fun u => Pure.pure (nested u)) (fun u => Pure.pure (nested u)) n
      fields) := by
  apply (ask rfl).bind
  intro tag
  apply (walk (c := .map) (fun i => field hf fields i) tag none).attempt.bind
  intro r
  cases r with
  | error e => exact quiet fun _ => ⟨_, rfl⟩
  | ok k =>
    simp only
    split <;> exact quiet fun _ => ⟨_, rfl⟩

/-! ### Values of no fixed type -/

theorem dynamicItems (hd : Speaks none (nested .dynamic)) :
    Speaks none (dynamicItems (fun u => Pure.pure (nested u)) n) := by
  unfold Decoding.dynamicItems
  rw [pure_bind]
  refine ((walk (c := .array) (fun i => ?_) .array none).fresh _).map _
  exact (value hd).bind fun _ => quiet fun _ => ⟨_, rfl⟩

theorem dynamicEntry {f : Strategy} (hf : Speaks none f) (i : Nat) :
    Speaks (some i) (dynamicEntry f i : Decoding δ (Value × Value)) := by
  apply (value (hf.anywhere _)).bind
  intro k
  apply (toValue i).bind
  intro _
  exact (value (hf.anywhere _)).map _

theorem dynamicEntries {entryRoutine : Option EntryRoutine} (hd : Speaks none (nested .dynamic))
    (he : ∀ routine, entryRoutine = some routine → ∀ i, Speaks (some i) (perform nested n i (routine i))) :
    Speaks none (dynamicEntries entryRoutine (fun u => Pure.pure (nested u)) n) := by
  unfold Decoding.dynamicEntries
  simp only [pure_bind, through_pure]
  cases entryRoutine with
  | some routine => exact ((walk (c := .map) (fun i => he routine rfl i) .map none).fresh _).map _
  | none =>
    refine ((walk (c := .map) (fun i => ?_) .map none).fresh _).map _
    exact (dynamicEntry hd i).bind fun _ => quiet fun _ => ⟨_, rfl⟩

theorem dynamic {entryRoutine : Option EntryRoutine} (hd : Speaks none (nested .dynamic))
    (he : ∀ routine, entryRoutine = some routine → ∀ i, Speaks (some i) (perform nested n i (routine i))) :
    Speaks none (dynamic entryRoutine (fun u => Pure.pure (nested u)) n) := by
  have hread : ∀ tag, Speaks none
      (readDynamic entryRoutine (fun u => Pure.pure (nested u)) n tag) := by
    intro tag
    cases tag with
    | array => exact (dynamicItems hd).map _
    | map => exact (dynamicEntries hd he).map _
    | string =>
      apply (ask rfl).bind
      intro b
      cases Utf8.read? b with
      | some s => exact .pure _
      | none => exact .pure _
    | unknown => exact .fail _
    | _ => exact (ask rfl).map _
  apply (ask rfl).bind
  intro tag
  exact (hread tag).bind fun _ => quiet fun _ => ⟨_, rfl⟩

end Speaks

end Decoding

end Decant
