import Decant.Proofs.Composition

/-!
# Stopping at a failure

* `Exchange.failure?` — the error that a call failed with. Only `next` may say that there is nothing
  more without failing.
* `Dialogue.raising` — the mark that an end signal was raised by hand.
* `Dialogue.Stops` — after a failure or a mark nothing is asked any more, and the result is in keeping with
  the error.
* `Decoding.failFast` — every way to put decodings together keeps to that, and passes the failure on.
* `Decoding.walk_stops` — going through a container with an invariant of the destination.
-/

namespace Decant

/-- The error that a call failed with, unless it only said that a container holds nothing more. -/
def Exchange.failure? (x : Exchange) : Option Error :=
  match x.answer with
  | .ok _ => none
  | .error e => if x.call.isNext ∧ e = .ended then none else some e

/-- Mark that an end signal was raised by hand, and go on. A dialogue that needs no registry never asks for a
type, so the place of such a request is free for the mark; what is resolved is of no account. -/
def Dialogue.raising {α : Type} (rest : Dialogue α) : Dialogue α := .resolve .dynamic fun _ => rest

/-- Nothing is asked of the source any more, and the end is in keeping with an error. If there is a mark of an
end signal, the end is in keeping with that too. -/
inductive Dialogue.Closes {α : Type} (Q : Option Error → α → Prop) : Error → Dialogue α → Prop
  | done {e : Error} {a : α} (h : Q (some e) a) : Closes Q e (.done a)
  | raised {e : Error} {rest : Dialogue α} (h : Closes Q e rest) (hraised : Closes Q .ended rest) :
      Closes Q e rest.raising

/-- After a failure, or the mark of an end signal, nothing is asked any more. The result is in keeping with the
error, if any. The dialogue needs no registry. -/
inductive Dialogue.Stops {α : Type} (Q : Option Error → α → Prop) : Dialogue α → Prop
  | done {a : α} (h : Q none a) : Stops Q (.done a)
  | exhausted : Stops Q .exhausted
  | ask {c : Call} {next : Answer c → Dialogue α}
      (hgo : ∀ a, Exchange.failure? ⟨c, a⟩ = none → Stops Q (next a))
      (hstop : ∀ a e, Exchange.failure? ⟨c, a⟩ = some e → (next a).Closes Q e) :
      Stops Q (.ask c next)
  | raised {rest : Dialogue α} (h : rest.Closes Q .ended) : Stops Q rest.raising
  | note (n : Note) {d : Dialogue α} (h : Stops Q d) : Stops Q (.note n d)

namespace Dialogue.Closes

variable {α β : Type} {Q : Option Error → α → Prop} {S : Option Error → β → Prop} {d : Dialogue α}
  {e : Error}

theorem bind {f : α → Dialogue β} (h : d.Closes Q e)
    (hf : ∀ e a, Q (some e) a → (f a).Closes S e) : (d.bind f).Closes S e := by
  induction h with
  | done h => exact hf _ _ h
  | raised _ _ ih ihraised => exact .raised ih ihraised

theorem run {σ : Type} [TokenSource σ] (h : d.Closes Q e) (s : Schema) (src : σ) (reg : Registry) :
    (d.run s src reg).exchanges = [] ∧ ∃ a, (d.run s src reg).answer = some a ∧ Q (some e) a := by
  induction h generalizing reg with
  | done h => exact ⟨rfl, _, rfl, h⟩
  | raised _ _ ih _ => exact ih _

theorem serving (h : d.Closes Q e) (tag : Tag) : (d.serving tag).Closes Q e := by
  induction h with
  | done h => exact .done h
  | raised _ _ ih ihraised => exact .raised ih ihraised

end Dialogue.Closes

namespace Dialogue.Stops

variable {α β : Type} {Q : Option Error → α → Prop} {S : Option Error → β → Prop} {d : Dialogue α}

/-- A call that is not `next` fails with any error. -/
theorem call {c : Call} {next : Answer c → Dialogue α} (hc : c.isNext = false)
    (hok : ∀ a, (next (.ok a)).Stops Q)
    (hfail : ∀ e, (next (.error e)).Closes Q e) : (Dialogue.ask c next).Stops Q := by
  refine ask (fun a ha => ?_) fun a e ha => ?_
  · cases a with
    | ok a => exact hok a
    | error e => simp [Exchange.failure?, hc] at ha
  · cases a with
    | ok a => cases ha
    | error e' =>
      obtain rfl : e' = e := by simpa [Exchange.failure?, hc] using ha
      exact hfail e'

theorem bind {f : α → Dialogue β} (h : d.Stops Q) (hf : ∀ a, Q none a → (f a).Stops S)
    (he : ∀ e a, Q (some e) a → (f a).Closes S e) : (d.bind f).Stops S := by
  induction h with
  | done h => exact hf _ h
  | exhausted => exact .exhausted
  | ask hgo hstop ih => exact .ask (fun a ha => ih a ha) fun a e ha => (hstop a e ha).bind he
  | raised h => exact .raised (h.bind he)
  | note n _ ih => exact .note n ih

theorem mono {S : Option Error → α → Prop} (h : d.Stops Q) (hs : ∀ p a, Q p a → S p a) :
    d.Stops S := by
  have hd := h.bind (fun a ha => done (hs none a ha)) fun e a ha => .done (hs (some e) a ha)
  rwa [bind_done] at hd

/-- The first call that fails is the last one, and the result is in keeping with its error. -/
theorem run {σ : Type} [TokenSource σ] (h : d.Stops Q) (s : Schema) (src : σ) (reg : Registry)
    {pre post : List Exchange} {x : Exchange} {e : Error}
    (hx : (d.run s src reg).exchanges = pre ++ x :: post) (he : x.failure? = some e) :
    post = [] ∧ ∃ a, (d.run s src reg).answer = some a ∧ Q (some e) a := by
  induction h generalizing src pre with
  | done h => simp [Dialogue.run] at hx
  | exhausted => simp [Dialogue.run] at hx
  | note n _ ih => exact ih src hx
  | raised h =>
    obtain ⟨hnone, -⟩ := h.run s src (reg.resolve s .dynamic).2
    have hx : [] = pre ++ x :: post := hnone.symm.trans hx
    simp at hx
  | @ask c next hgo hstop ih =>
    simp only [Dialogue.run] at hx ⊢
    generalize TokenSource.answer c src = p at hx
    obtain ⟨a, src⟩ := p
    cases hfail : Exchange.failure? ⟨c, a⟩ with
    | none =>
      cases pre with
      | nil =>
        simp only [List.nil_append, List.cons.injEq] at hx
        rw [hx.1, he] at hfail
        cases hfail
      | cons y pre =>
        simp only [List.cons_append, List.cons.injEq] at hx
        exact ih a hfail src hx.2
    | some e' =>
      obtain ⟨hnone, b, hb, hq⟩ := (hstop a e' hfail).run s src reg
      rw [hnone] at hx
      cases pre with
      | nil =>
        simp only [List.nil_append, List.cons.injEq] at hx
        obtain ⟨hcall, hpost⟩ := hx
        rw [hcall, he] at hfail
        cases hfail
        exact ⟨hpost.symm, b, hb, hq⟩
      | cons y pre => simp at hx

/-- A tag that was taken off in advance is no failure. -/
theorem serving (h : d.Stops Q) (tag : Tag) : (d.serving tag).Stops Q := by
  induction h with
  | done h => exact .done h
  | exhausted => exact .exhausted
  | @ask c next hgo hstop ih =>
    cases c with
    | type => exact hgo (.ok tag) rfl
    | _ => exact .ask ih fun a e ha => (hstop a e ha).serving tag
  | raised h => exact .raised (h.serving tag)
  | note n _ ih => exact .note n ih

end Dialogue.Stops

namespace Decoding

variable {δ γ α β : Type} {m : Decoding δ α} {d : δ}

/-- Decoding ends with the error that the source failed with, if it did; an end signal may read as a
truncated stream. -/
def Relayed (failure : Option Error) (e : Ending δ α) : Prop :=
  ∀ x ∈ failure, ∃ y, e.result = .error y ∧ y.truncate = x.truncate

/-- Decoding ends with the error of the source, and in keeping with a condition on results or one on
errors. -/
def Within (G : α → δ → Prop) (F : Error → δ → Prop) (failure : Option Error) (e : Ending δ α) :
    Prop :=
  Relayed failure e ∧
    match e.result with
    | .ok a => G a e.dest
    | .error y => F y e.dest

theorem relayed_none (e : Ending δ α) : Relayed none e := nofun

theorem relayed_error (e : Error) (d : δ) : Relayed (some e) (⟨.error e, d⟩ : Ending δ α) := by
  intro x hx
  cases hx
  exact ⟨e, rfl, rfl⟩

/-- A failure does not end in a result. -/
theorem Relayed.eq_none {failure : Option Error} {a : α}
    (h : Relayed failure (⟨.ok a, d⟩ : Ending δ α)) : failure = none := by
  cases failure with
  | none => rfl
  | some x =>
    obtain ⟨y, hy, -⟩ := h x rfl
    cases hy

theorem Relayed.of_result {failure : Option Error} {e : Ending δ α} {e' : Ending γ β}
    (h : Relayed failure e)
    (hr : ∀ y, e.result = .error y → ∃ z, e'.result = .error z ∧ z.truncate = y.truncate) :
    Relayed failure e' := by
  intro x hx
  obtain ⟨y, hy, hyx⟩ := h x hx
  obtain ⟨z, hz, hzy⟩ := hr y hy
  exact ⟨z, hz, hzy.trans hyx⟩

/-- What is done at the end of a decoding does not change its error. -/
theorem stops_end {f : Ending δ α → Ending γ β} (h : (m d).Stops Relayed)
    (hf : ∀ e y, e.result = .error y → ∃ z, (f e).result = .error z ∧ z.truncate = y.truncate) :
    ((m d).bind fun e => .done (f e)).Stops Relayed := by
  apply h.bind
  · intro e _
    exact .done (relayed_none _)
  · intro err e he
    exact .done (he.of_result (hf e))

theorem stops_ask {c : Call} {G : β → δ → Prop} {F : Error → δ → Prop}
    {f : c.Reply → Decoding δ β} (hc : c.isNext = false) (hF : ∀ e, F e d)
    (hf : ∀ a, (f a d).Stops (Within G F)) : ((ask c >>= f) d).Stops (Within G F) :=
  .call hc hf fun e => .done ⟨relayed_error e d, hF e⟩

theorem stops_hasNext {c : Container} {i : Nat} {G : β → δ → Prop} {F : Error → δ → Prop}
    {f : Bool → Decoding δ β} (hF : ∀ e, F e d) (hf : ∀ b, (f b d).Stops (Within G F)) :
    ((hasNext c i >>= f) d).Stops (Within G F) := by
  refine .ask (fun a ha => ?_) fun a e ha => ?_
  · cases a with
    | ok a => exact hf true
    | error e =>
      obtain rfl : e = .ended := by simpa [Exchange.failure?, Call.isNext] using ha
      exact hf false
  · cases a with
    | ok a => cases ha
    | error e' =>
      have hne : ¬ e' = .ended ∧ e' = e := by simpa [Exchange.failure?, Call.isNext] using ha
      obtain ⟨hne, rfl⟩ := hne
      cases e' with
      | ended => exact absurd rfl hne
      | _ => exact .done ⟨relayed_error _ d, hF _⟩

/-- Go on with a result; a failure ends decoding. -/
theorem stops_bind {f : α → Decoding δ β} {G : α → δ → Prop} {G' : β → δ → Prop}
    {F : Error → δ → Prop} (h : (m d).Stops (Within G F))
    (hf : ∀ a d', G a d' → (f a d').Stops (Within G' F)) :
    ((m >>= f) d).Stops (Within G' F) := by
  apply h.bind
  · rintro ⟨result, d'⟩ ⟨-, he⟩
    cases result with
    | ok a => exact hf a d' he
    | error y => exact .done ⟨relayed_none _, he⟩
  · rintro e ⟨result, d'⟩ ⟨hr, he⟩
    cases result with
    | ok a => exact absurd hr.eq_none nofun
    | error y => exact .done ⟨hr.of_result fun z hz => ⟨z, by cases hz; rfl, rfl⟩, he⟩

/-- An error may be caught, as long as it is passed on. -/
theorem stops_recover {f : Except Error α → Decoding δ β} (h : ∀ d, (m d).Stops Relayed)
    (hf : ∀ a d, (f (.ok a) d).Stops Relayed)
    (he : ∀ e d, ∃ d', f (.error e) d = .done ⟨.error e, d'⟩) (d : δ) :
    ((attempt m >>= f) d).Stops Relayed := by
  show (((m d).bind _).bind _).Stops _
  rw [Dialogue.bind_bind]
  apply (h d).bind
  · rintro ⟨result, d⟩ _
    cases result with
    | ok a => exact hf a d
    | error y =>
      obtain ⟨d', hd⟩ := he y d
      show (f (.error y) d).Stops _
      rw [hd]
      exact .done (relayed_none _)
  · rintro x ⟨result, d⟩ hx
    cases result with
    | ok a => exact absurd hx.eq_none nofun
    | error y =>
      obtain ⟨d', hd⟩ := he y d
      show (f (.error y) d).Closes _ _
      rw [hd]
      exact .done (hx.of_result fun z hz => ⟨z, by cases hz; rfl, rfl⟩)

/-! ### The law -/

/-- Without conditions on results and errors. -/
theorem stops_relayed {x : Dialogue (Ending δ α)} :
    x.Stops (Within (fun _ _ => True) fun _ _ => True) ↔ x.Stops Relayed := by
  constructor
  · exact fun h => h.mono fun _ _ he => he.1
  · refine fun h => h.mono fun _ e he => ⟨he, ?_⟩
    obtain ⟨result, dest⟩ := e
    cases result <;> trivial

theorem stops_takesOne {f : Strategy} (h : f.TakesOne) (d : Content) : (f d).Stops Relayed := by
  obtain ⟨next, hd, hfail, ht⟩ := h d
  rw [hd]
  refine .call rfl (fun tag => ?_) fun e => ?_
  · have htag := ht tag
    generalize next (.ok tag) = x at htag
    cases htag with
    | refuse e => exact .done (relayed_none _)
    | @take c next hc hf hr =>
      have hnext : c.isNext = false := by
        cases tag <;> simp only [Tag.token?, Option.some.injEq, reduceCtorEq] at hc <;>
          subst hc <;> rfl
      refine .call hnext (fun a => ?_) fun e => ?_
      · obtain ⟨e, he, -⟩ := hr a
        rw [he]
        exact .done (relayed_none _)
      · rw [hf e]
        exact .done (relayed_error e d)
  · rw [hfail e]
    exact .done (relayed_error e d)

/-- From whatever destination, nothing is asked after a failure, and the failure is passed on. -/
def failFast : Law where
  Holds m := ∀ d, (m d).Stops Relayed
  quiet h d := by
    obtain ⟨e, he⟩ := h d
    rw [he]
    exact .done (relayed_none e)
  exhausted _ := .exhausted
  ask c hc d := by
    have h := stops_ask (f := pure) (d := d) (G := fun _ _ => True) (F := fun _ _ => True) hc
      (fun _ => trivial) fun _ => .done ⟨relayed_none _, trivial⟩
    rw [bind_pure] at h
    exact stops_relayed.1 h
  hasNext c i d := by
    have h := stops_hasNext (c := c) (i := i) (f := pure) (d := d) (G := fun _ _ => True)
      (F := fun _ _ => True) (fun _ => trivial) fun _ => .done ⟨relayed_none _, trivial⟩
    rw [bind_pure] at h
    exact stops_relayed.1 h
  discarded name d := .note _ (.done (relayed_none _))
  bind h hf d := by
    have hm := stops_relayed.2 (h d)
    exact stops_relayed.1 (stops_bind hm fun a d' _ => stops_relayed.2 (hf a d'))
  recover := stops_recover
  fresh start := fun h d => by
    rw [fresh_apply]
    refine stops_end (h start) fun e y hy => ⟨y, ?_, rfl⟩
    rw [hy]
    rfl
  focus part put := fun h d => by
    rw [focus_apply]
    exact stops_end (h (part d)) fun e y hy => ⟨y, hy, rfl⟩
  truncated h d := by
    refine stops_end (h d) fun e y hy => ⟨y.truncate, ?_, y.truncate_truncate⟩
    rw [hy]
    rfl
  takesOne := stops_takesOne

/-! ### Containers with an invariant -/

section walk

variable {c : Container} {rounds : Nat} {J : Nat → δ → Prop} {F : Error → δ → Prop}
  {body : Nat → Decoding δ Unit}

theorem walkFrom_stops (length : Option Nat) (hF : ∀ i d e, J i d → F e d)
    (hb : ∀ i d, J i d → (body i d).Stops (Within (fun _ => J (i + 1)) F)) {i : Nat} (hj : J i d) :
    (walkFrom c length body rounds i d).Stops (Within J F) := by
  induction rounds generalizing i d with
  | zero => exact .exhausted
  | succ rounds ih =>
    unfold walkFrom
    have hleave : ((pure i : Decoding δ Nat) d).Stops (Within J F) := .done ⟨relayed_none _, hj⟩
    have hround : ((body i >>= fun _ => walkFrom c length body rounds (i + 1)) d).Stops
        (Within J F) := stops_bind (hb i d hj) fun _ d' hj' => ih hj'
    split
    · exact hleave
    · unfold goesOn
      split
      · apply stops_hasNext fun e => hF i d e hj
        intro more
        cases more with
        | true => exact hround
        | false => exact hleave
      · exact hround

/-- **Going through a container** with an invariant that every element carries on. -/
theorem walk_stops (hF : ∀ i d e, J i d → F e d)
    (hb : ∀ i d, J i d → (body i d).Stops (Within (fun _ => J (i + 1)) F)) (tag : Tag)
    (hj : J 0 d) : (walk c rounds tag body d).Stops (Within J F) := by
  unfold walk
  split
  · exact stops_ask rfl (fun e => hF 0 d e hj) fun _ => .done ⟨relayed_none _, hj⟩
  · split
    · apply stops_ask rfl fun e => hF 0 d e hj
      intro length
      apply stops_bind (walkFrom_stops length hF hb hj)
      intro n d' hj'
      exact stops_ask rfl (fun e => hF n d' e hj') fun _ => .done ⟨relayed_none _, hj'⟩
    · exact .done ⟨relayed_none _, hF 0 d _ hj⟩

end walk

end Decoding

end Decant
