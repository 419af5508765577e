import Decant.Proofs.Blind
import Decant.Proofs.Composition

/-!
# The unknown tag is refused

* `Decoding.Refuses` — given the unknown tag, decoding fails without asking the source anything, or
  it is short of steps.
* `Setup.direct_refuses` — the strategy of every type does, whatever takes over map entries, as long
  as types that decode by hand decode one value.

So a value of unknown kind is never taken for something that was decoded.
-/

namespace Decant

namespace Dialogue

variable {α β : Type} {tag : Tag} {d : Dialogue α}

theorem serving_bind_done {a : α} {b : β} {f : α → Dialogue β} (h : d.serving tag = .done a)
    (hf : f a = .done b) : (d.bind f).serving tag = .done b := by
  cases d with
  | done a' =>
    obtain rfl : a' = a := Dialogue.done.inj h
    show (f a').serving tag = _
    rw [hf]
    rfl
  | exhausted => cases h
  | ask c next =>
    cases c with
    | type =>
      have h : next (.ok tag) = .done a := h
      show (next (.ok tag)).bind f = _
      rw [h]
      exact hf
    | _ => cases h
  | resolve t next => cases h
  | note n rest => cases h

theorem serving_bind_exhausted {f : α → Dialogue β} (h : d.serving tag = .exhausted) :
    (d.bind f).serving tag = .exhausted := by
  cases d with
  | done a => cases h
  | exhausted => rfl
  | ask c next =>
    cases c with
    | type =>
      have h : next (.ok tag) = .exhausted := h
      show (next (.ok tag)).bind f = _
      rw [h]
      rfl
    | _ => cases h
  | resolve t next => cases h
  | note n rest => cases h

end Dialogue

namespace Decoding

variable {δ γ α β : Type} {rounds : Nat}

/-- Given the unknown tag, decoding fails without asking anything, or it is short of steps. -/
def Refuses (m : Decoding δ α) : Prop :=
  ∀ d, (m d).serving .unknown = .exhausted ∨
    ∃ e d', (m d).serving .unknown = .done ⟨.error e, d'⟩

theorem Refuses.ask {f : Tag → Decoding δ α}
    (h : ∀ d, ∃ e d', f .unknown d = .done ⟨.error e, d'⟩) : Refuses (ask .type >>= f) :=
  fun d => .inr (h d)

theorem Refuses.bind {m : Decoding δ α} {f : α → Decoding δ β} (h : Refuses m) :
    Refuses (m >>= f) := by
  intro d
  rcases h d with hx | ⟨e, d', hd⟩
  · exact .inl (Dialogue.serving_bind_exhausted hx)
  · exact .inr ⟨e, d', Dialogue.serving_bind_done hd rfl⟩

theorem Refuses.fresh (start : γ) {m : Decoding γ α} (h : Refuses m) :
    Refuses (fresh start m : Decoding δ (α × γ)) := by
  intro d
  rw [fresh_apply]
  rcases h start with hx | ⟨e, d', hd⟩
  · exact .inl (Dialogue.serving_bind_exhausted hx)
  · exact .inr ⟨e, d, Dialogue.serving_bind_done hd rfl⟩

theorem Refuses.focus (part : δ → γ) (put : γ → δ → δ) {m : Decoding γ α} (h : Refuses m) :
    Refuses (focus part put m) := by
  intro d
  rw [focus_apply]
  rcases h (part d) with hx | ⟨e, d', hd⟩
  · exact .inl (Dialogue.serving_bind_exhausted hx)
  · exact .inr ⟨e, put d' d, Dialogue.serving_bind_done hd rfl⟩

theorem refuses_takesOne {f : Strategy} (h : f.TakesOne) : Refuses f := by
  intro d
  obtain ⟨next, hd, -, ht⟩ := h d
  have hs : (f d).serving .unknown = next (.ok .unknown) := by
    rw [hd]
    rfl
  have htag := ht .unknown
  rw [hs]
  generalize next (.ok .unknown) = x at htag
  cases htag with
  | refuse e => exact .inr ⟨e, d, rfl⟩
  | take hc _ _ => cases hc

/-- No container has the unknown tag. -/
theorem walk_unknown (c : Container) (body : Nat → Decoding δ Unit) :
    walk c rounds .unknown body = fail (.typeConversion .unknown c.tag) := by
  cases c <;> rfl

/-! ### Routines -/

section routines

variable {call : Ty → Strategy} {Q : Progress → Option Error → δ → Prop}

/-- How a routine for a decoder goes on the unknown tag: it asks for nothing, or its first question
is refused and it asks for nothing after that, or it is short of steps. -/
inductive Denied (Q : Progress → Option Error → δ → Prop) (x : Dialogue (Ending (Hand δ) Unit)) :
    Prop
  | idle {e : Ending (Hand δ) Unit} (hx : x = .done e) (hp : e.dest.pending = none)
      (hq : Q .ready (failure? e.result) e.dest.state)
  | refused {e : Ending (Hand δ) Unit} (hx : x.serving .unknown = .done e)
      (hq : Q .broken (failure? e.result) e.dest.state)
  | short (hx : x.serving .unknown = .exhausted)

theorem decodeInto_denied {t : Ty} {start : δ → Content} {finish : Content → Option Error → δ → δ}
    {x : Hand δ} (hp : x.pending = none) (hc : Refuses (call t))
    (hq : ∀ c e, Q .broken (some e) (finish c (some e) x.state)) :
    Denied Q (decodeInto call t start finish x) := by
  obtain ⟨state, pending⟩ := x
  obtain rfl : pending = none := hp
  rw [decodeInto_apply]
  show Denied Q ((call t (start state)).bind _)
  rcases hc (start state) with hx | ⟨e, d', hd⟩
  · exact .short (Dialogue.serving_bind_exhausted hx)
  · exact .refused (Dialogue.serving_bind_done hd rfl) (hq d' _)

theorem goThrough_denied {c : Container} {body : Nat → Decoding (Hand δ) Unit}
    {finish : Tag → Nat → δ → δ} {x : Hand δ} (hp : x.pending = none)
    (hq : ∀ e, Q .broken (some e) x.state) : Denied Q (goThrough c rounds body finish x) := by
  obtain ⟨state, pending⟩ := x
  obtain rfl : pending = none := hp
  rw [goThrough_apply]
  refine .refused (e := ⟨.error (.typeConversion .unknown c.tag), ⟨state, none⟩⟩) ?_ (hq _)
  show (walk c rounds .unknown body ⟨state, none⟩).bind _ = _
  rw [walk_unknown]
  rfl

/-- A routine that decodes one value gets nowhere on the unknown tag. -/
theorem perform_denied (hc : ∀ t, Refuses (call t)) :
    ∀ {h : Handle} (i : Nat) (r : Routine δ h) {Q : Progress → Option Error → δ → Prop}
      {x : Hand δ}, h = .decoder → x.pending = none → r.Keeps Q .ready x.state →
        Denied Q (perform call rounds i r x)
  | _, _, .skip, _, _, _, hp, hq => .idle rfl hp hq
  | _, _, .fail _, _, _, _, hp, hq => .idle rfl hp hq
  | _, _, .update _, _, _, _, hp, hq => .idle rfl hp hq
  | _, i, .choose f, _, x, hh, hp, hq => perform_denied hc i (f x.state) hh hp hq
  | _, i, .seq a b, Q, x, hh, hp, hq => by
    cases perform_denied hc i a hh hp hq with
    | @idle e hx hp hq =>
      obtain ⟨result, y⟩ := e
      show Denied Q ((perform call rounds i a x).bind _)
      rw [hx]
      cases result with
      | ok u => exact perform_denied hc i b hh hp hq
      | error err => exact .idle rfl hp hq
    | @refused e hx hq =>
      obtain ⟨result, y⟩ := e
      cases result with
      | ok u =>
        obtain ⟨e, he, hq⟩ := perform_broken call rounds i b hq
        exact .refused (Dialogue.serving_bind_done hx he) hq
      | error err => exact .refused (Dialogue.serving_bind_done hx rfl) hq
    | short hx => exact .short (Dialogue.serving_bind_exhausted hx)
  | _, i, .attempt body finish, Q, x, hh, hp, hq => by
    show Denied Q (((perform call rounds i body x).bind _).bind _)
    rw [Dialogue.bind_bind]
    cases perform_denied hc i body hh hp hq with
    | idle hx hp hq =>
      rw [hx]
      exact .idle rfl hp hq
    | refused hx hq => exact .refused (Dialogue.serving_bind_done hx rfl) hq
    | short hx => exact .short (Dialogue.serving_bind_exhausted hx)
  | _, _, .decode t _ _, _, _, _, hp, hq => decodeInto_denied hp (hc t) fun c => (hq.2 c).2
  | _, _, .array body finish, Q, x, _, hp, ⟨_, J, hj, hJ⟩ => goThrough_denied hp (hJ 0 _ hj).2.2
  | _, _, .map body finish, Q, x, _, hp, ⟨_, J, hj, hJ⟩ => goThrough_denied hp (hJ 0 _ hj).2.2
  | _, _, .key _, _, _, hh, _, _ => nomatch hh
  | _, _, .value _, _, _, hh, _, _ => nomatch hh

theorem custom_refuses {routine : Routine Work .decoder} (hr : routine.DecodesOne)
    (hc : ∀ t, Refuses (call t)) : Refuses (custom call rounds routine) := by
  intro c
  rw [custom_apply]
  -- Only a routine that has taken its value may succeed.
  have hfail : ∀ (e : Ending (Hand Work) Unit) (p : Progress), p ≠ .taken →
      (failure? e.result = none → p = .taken) → ∃ err, e.result = .error err := by
    intro e p hp hq
    cases hres : e.result with
    | ok u =>
      rw [hres] at hq
      exact absurd (hq rfl) hp
    | error err => exact ⟨err, rfl⟩
  cases perform_denied (x := ⟨⟨c, .unit⟩, none⟩) hc 0 routine rfl rfl (hr c) with
  | @idle e hx _ hq =>
    obtain ⟨err, herr⟩ := hfail e .ready (by simp) hq
    refine .inr ⟨err, e.dest.state.dest, ?_⟩
    rw [hx]
    simp only [Dialogue.bind, Dialogue.serving, herr, Except.map]
  | @refused e hx hq =>
    obtain ⟨err, herr⟩ := hfail e .broken (by simp) hq
    refine .inr ⟨err, e.dest.state.dest, Dialogue.serving_bind_done hx ?_⟩
    simp only [herr, Except.map]
  | short hx => exact .inl (Dialogue.serving_bind_exhausted hx)

end routines

end Decoding

open Decoding

/-- A plan refuses the unknown tag once the strategies of other types do. -/
theorem Plan.run_refuses (s : Setup) {p : Plan} {f : Ty → Strategy} (hf : ∀ t, Refuses (f t))
    (hone : ∀ routine, p = .custom routine → routine.DecodesOne) (n : Nat) (t : Ty) :
    Refuses (p.run s (fun u => pure (f u)) (fun u => pure (f u)) n t) := by
  cases p with
  | scalar c => exact refuses_takesOne (scalar_takesOne c)
  | byteList => exact refuses_takesOne bytes_takesOne
  | dynamic => exact .ask fun d => ⟨_, d, rfl⟩
  | list item => exact .ask fun d => ⟨_, d, rfl⟩
  | array item length => exact .ask fun d => ⟨_, _, rfl⟩
  | map key value => exact .ask fun d => ⟨_, d, rfl⟩
  | textMap value => exact .ask fun d => ⟨_, _, rfl⟩
  | option inner =>
    have hafresh : Refuses (optionAfresh s.schema inner (f inner)) := ((hf inner).fresh _).bind
    intro d
    cases d with
    | present c => exact ((hf inner).focus inside fun c _ => .present c).bind (.present c)
    | _ => exact hafresh _
  | box inner =>
    show Refuses (through (pure (f inner)))
    rw [through_pure]
    exact hf inner
  | record fields types => exact .ask fun d => ⟨_, _, rfl⟩
  | custom routine =>
    show Refuses (Decoding.custom (fun u => through (pure (f u))) n routine)
    simp only [through_pure]
    exact custom_refuses (hone routine rfl) hf
  | text accept => exact refuses_takesOne (text_takesOne accept)
  | error build => exact refuses_takesOne (error_takesOne _ build)
  | unsupported path => exact fun d => .inr ⟨_, d, rfl⟩

namespace Setup

/-- **The strategy of every type refuses the unknown tag.** -/
theorem direct_refuses {s : Setup} (hs : s.schema.DecodesOne) (n : Nat) (t : Ty) :
    Refuses (s.direct n t) := by
  induction n generalizing t with
  | zero => exact fun _ => .inl rfl
  | succ n ih =>
    refine Plan.run_refuses s ih (fun routine h => ?_) n t
    obtain ⟨name, initial, uses, rfl, hd⟩ := Schema.plan_custom h
    exact hs name initial uses routine hd

end Setup

end Decant
