import Decant.Stream

/-!
# The calls that a stream makes itself

* `Stream.lead` — what a stream asks of the source before it hands over to the decoder of an element.
* `Stream.Led` — everything that this can come to, for a stream that was not asked for anything yet,
  one that is inside an array, and one whose only value was taken.
* `Stream.lead_leads` — there is nothing else.
* `Stream.nextBy_apply` — a call of a stream is its own calls, and then the decoding of the element,
  unless the stream refused.
-/

namespace Decant

namespace Stream

open Decoding

/-- What a stream asks for its next element before that is decoded. The result is the tag that was
taken off the element in advance, if it is the only one. -/
def lead : Decoding Streaming (Option Tag) := do
  let s := (← get).stream
  if s.tag = .unknown then
    let tag : Tag ← ask .type
    change fun s => { s with tag := tag }
    if tag = .array then
      let limit ← ask (.enter .array)
      change fun s => { s with limit := limit }
      advance
      return none
    else
      change fun s => { s with limit := some 1 }
      return some tag
  else
    advance
    return none

/-- How an element is decoded whose tag may have been taken off in advance. -/
def told (served : Option Tag) (m : Strategy) : Strategy :=
  match served with
  | none => m
  | some tag => m.serving tag

/-- The stream once an element was decoded. -/
def counted (served : Option Tag) (s : Stream) : Stream :=
  { s with count := if served.isNone then s.count + 1 else 1 }

/-- The note that a stream leaves when it is over. -/
def closing (e : Error) (count : Nat) : Note :=
  if e.isEnd then .streamEnded count else .streamFailed count e

/-- A stream that is over. -/
def stopped (e : Error) (s : Stream) : Stream := { s with terminal := some e }

/-- The error of a stream that tried to leave its array. -/
def leaveError : Except Error Unit → Error
  | .ok _ => .ended
  | .error e => e

/-! ## What the own calls come to -/

/-- The calls that a stream makes itself, their outcome, and the stream then. -/
inductive Led : Stream → List Exchange → Except Error (Option Tag) → Stream → Prop
  | untyped (e : Error) : Led start [⟨.type, .error e⟩] (.error e) start
  | single {tag : Tag} (h : tag ≠ .array) :
      Led start [⟨.type, .ok tag⟩] (.ok (some tag)) ⟨tag, 0, some 1, none⟩
  | closed (e : Error) :
      Led start [⟨.type, .ok .array⟩, ⟨.enter .array, .error e⟩] (.error e) ⟨.array, 0, none, none⟩
  | opened {length : Option Nat} {own : List Exchange} {r : Except Error (Option Tag)} {s : Stream}
      (h : Led ⟨.array, 0, length, none⟩ own r s) :
      Led start (⟨.type, .ok .array⟩ :: ⟨.enter .array, .ok length⟩ :: own) r s
  /-- The only value was taken. -/
  | taken {tag : Tag} (h : tag ≠ .array) :
      Led ⟨tag, 1, some 1, none⟩ [] (.error .ended) ⟨tag, 1, some 1, none⟩
  /-- All declared elements were taken. -/
  | full {i : Nat} {length : Option Nat} (h : length.any (· ≤ i) = true) (a : Except Error Unit) :
      Led ⟨.array, i, length, none⟩ [⟨.leave .array i, a⟩] (.error (leaveError a))
        ⟨.array, i, length, none⟩
  /-- The first of the declared elements is there without asking. -/
  | declared {i : Nat} {length : Option Nat} (h : ¬ length.any (· ≤ i) = true)
      (hi : ¬ (length.isNone || i != 0) = true) :
      Led ⟨.array, i, length, none⟩ [] (.ok none) ⟨.array, i, length, none⟩
  | next {i : Nat} {length : Option Nat} (h : ¬ length.any (· ≤ i) = true)
      (hi : (length.isNone || i != 0) = true) :
      Led ⟨.array, i, length, none⟩ [⟨.next .array i, .ok ()⟩] (.ok none) ⟨.array, i, length, none⟩
  | lost {i : Nat} {length : Option Nat} (hi : (length.isNone || i != 0) = true) {e : Error}
      (he : e ≠ .ended) :
      Led ⟨.array, i, length, none⟩ [⟨.next .array i, .error e⟩] (.error e)
        ⟨.array, i, length, none⟩
  /-- There are no more elements. -/
  | ended {i : Nat} {length : Option Nat} (hi : (length.isNone || i != 0) = true)
      (a : Except Error Unit) :
      Led ⟨.array, i, length, none⟩ [⟨.next .array i, .error .ended⟩, ⟨.leave .array i, a⟩]
        (.error (leaveError a)) ⟨.array, i, some i, none⟩

/-- The streams that are not over. -/
inductive Open : Stream → Prop
  | start : Open start
  | inside (i : Nat) (length : Option Nat) : Open ⟨.array, i, length, none⟩
  | single {tag : Tag} (ha : tag ≠ .array) (hu : tag ≠ .unknown) : Open ⟨tag, 1, some 1, none⟩

theorem get_bind {δ α : Type} (f : δ → Decoding δ α) (d : δ) :
    ((get : Decoding δ δ) >>= f) d = f d d := rfl

section inside

variable {i : Nat} {length : Option Nat}

theorem advance_full (h : length.any (· ≤ i) = true) (d : Content) :
    advance ⟨⟨.array, i, length, none⟩, d⟩ =
      .ask (.leave .array i) fun a => .done ⟨.error (leaveError a), ⟨.array, i, length, none⟩, d⟩ := by
  unfold advance
  rw [get_bind]
  simp only [h, if_true]
  refine congrArg (Dialogue.ask (.leave .array i)) (funext fun a => ?_)
  cases a <;> rfl

theorem advance_declared (h : ¬ length.any (· ≤ i) = true)
    (hi : ¬ (length.isNone || i != 0) = true) (d : Content) :
    advance ⟨⟨.array, i, length, none⟩, d⟩ = .done ⟨.ok (), ⟨.array, i, length, none⟩, d⟩ := by
  unfold advance
  rw [get_bind]
  simp only [h, hi]
  rfl

theorem advance_next (h : ¬ length.any (· ≤ i) = true) (hi : (length.isNone || i != 0) = true)
    (d : Content) :
    advance ⟨⟨.array, i, length, none⟩, d⟩ = .ask (.next .array i) fun
      | .ok _ => .done ⟨.ok (), ⟨.array, i, length, none⟩, d⟩
      | .error .ended => .ask (.leave .array i) fun a =>
          .done ⟨.error (leaveError a), ⟨.array, i, some i, none⟩, d⟩
      | .error e => .done ⟨.error e, ⟨.array, i, length, none⟩, d⟩ := by
  unfold advance
  rw [get_bind]
  simp only [h, hi, if_true]
  refine congrArg (Dialogue.ask (.next .array i)) (funext fun a => ?_)
  cases a with
  | ok a => rfl
  | error e =>
    cases e with
    | ended =>
      refine congrArg (Dialogue.ask (.leave .array i)) (funext fun a => ?_)
      cases a <;> rfl
    | _ => rfl

end inside

variable {σ : Type} [TokenSource σ] {s : Schema}

/-- What a run of own calls shows. Nothing is resolved and nothing is noted. -/
def Leads (s : Schema) (m : Decoding Streaming (Option Tag)) (st : Stream) (d : Content) (src : σ)
    (reg : Registry) : Prop :=
  ∃ own r st' src', Led st own r st' ∧
    (m ⟨st, d⟩).run s src reg = ⟨some ⟨r, st', d⟩, src', reg, own, []⟩

theorem advance_leads (i : Nat) (length : Option Nat) (d : Content) (src : σ) (reg : Registry) :
    Leads s (advance >>= fun _ => pure none) ⟨.array, i, length, none⟩ d src reg := by
  unfold Leads
  rw [bind_apply]
  by_cases h : length.any (· ≤ i) = true
  · rw [advance_full h]
    exact ⟨_, _, _, _, .full h (TokenSource.answer (.leave .array i) src).1, rfl⟩
  · by_cases hi : (length.isNone || i != 0) = true
    · rw [advance_next h hi]
      simp only [Dialogue.bind, Dialogue.run]
      generalize TokenSource.answer (.next .array i) src = p
      obtain ⟨a, src⟩ := p
      cases a with
      | ok a => exact ⟨_, _, _, _, .next h hi, rfl⟩
      | error e =>
        by_cases he : e = .ended
        · subst he
          exact ⟨_, _, _, _, .ended hi (TokenSource.answer (.leave .array i) src).1, rfl⟩
        · refine ⟨_, _, _, src, .lost hi he, ?_⟩
          cases e with
          | ended => exact absurd rfl he
          | _ => rfl
    · rw [advance_declared h hi]
      exact ⟨_, _, _, _, .declared h hi, rfl⟩

theorem lead_start (d : Content) :
    lead ⟨start, d⟩ = .ask .type fun (a : Except Error Tag) =>
      match a with
      | .error e => .done ⟨.error e, start, d⟩
      | .ok tag =>
        if tag = .array then .ask (.enter .array) fun
          | .error e => .done ⟨.error e, ⟨.array, 0, none, none⟩, d⟩
          | .ok length => (advance >>= fun _ => pure none : Decoding Streaming (Option Tag))
              ⟨⟨.array, 0, length, none⟩, d⟩
        else .done ⟨.ok (some tag), ⟨tag, 0, some 1, none⟩, d⟩ := by
  refine congrArg (Dialogue.ask .type) (funext fun (a : Except Error Tag) => ?_)
  cases a with
  | error e => rfl
  | ok tag =>
    by_cases ht : tag = .array
    · subst ht
      refine congrArg (Dialogue.ask (.enter .array)) (funext fun a => ?_)
      cases a <;> rfl
    · simp only [if_neg ht]
      show ((if tag = .array then _ else _ : Decoding Streaming (Option Tag))
        ⟨⟨tag, 0, none, none⟩, d⟩) = _
      rw [if_neg ht]
      rfl

theorem lead_single {tag : Tag} (ha : tag ≠ .array) (hu : tag ≠ .unknown) (d : Content) :
    lead ⟨⟨tag, 1, some 1, none⟩, d⟩ = .done ⟨.error .ended, ⟨tag, 1, some 1, none⟩, d⟩ := by
  unfold lead advance
  rw [get_bind]
  simp only [hu, if_false]
  rw [bind_apply, get_bind]
  simp only [Option.any_some, Nat.le_refl, decide_true, if_true, ha, if_false]
  rfl

/-- **A stream that is not over asks for nothing else.** -/
theorem lead_leads {st : Stream} (h : Open st) (d : Content) (src : σ) (reg : Registry) :
    Leads s lead st d src reg := by
  cases h with
  | start =>
    unfold Leads
    rw [lead_start]
    simp only [Dialogue.run]
    generalize TokenSource.answer .type src = p
    obtain ⟨(a : Except Error Tag), src⟩ := p
    cases a with
    | error e => exact ⟨_, _, _, _, .untyped e, rfl⟩
    | ok tag =>
      by_cases ht : tag = .array
      · subst ht
        simp only [if_true, Dialogue.run]
        generalize TokenSource.answer (.enter .array) src = p
        obtain ⟨a, src⟩ := p
        cases a with
        | error e => exact ⟨_, _, _, _, .closed e, rfl⟩
        | ok length =>
          obtain ⟨own, r, st', src', hled, hrun⟩ := advance_leads (s := s) 0 length d src reg
          exact ⟨_, r, st', src', .opened hled, by simp only [hrun]; rfl⟩
      · simp only [if_neg ht]
        exact ⟨_, _, _, _, .single ht, rfl⟩
  | inside i length => exact advance_leads i length d src reg
  | single ha hu =>
    unfold Leads
    rw [lead_single ha hu]
    exact ⟨_, _, _, _, .taken ha, rfl⟩

/-! ## A call of a stream -/

theorem advance_element (m : Strategy) (x : Streaming) :
    step m x = ((advance >>= fun _ => pure none : Decoding Streaming (Option Tag)) >>= fun served =>
      element (told served m) >>= fun _ => change (counted served)) x := by
  rw [bind_assoc]
  rfl

/-- An attempt at an element is the own calls of the stream, and then the decoding of the element. -/
theorem lead_element (m : Strategy) (x : Streaming) :
    (if x.stream.tag = .unknown then first m else step m) x =
      (lead >>= fun served => element (told served m) >>= fun _ => change (counted served)) x := by
  unfold lead
  rw [bind_assoc, get_bind]
  by_cases h : x.stream.tag = .unknown
  · simp only [h, if_true]
    refine congrArg (Dialogue.ask .type) (funext fun (a : Except Error Tag) => ?_)
    cases a with
    | error e => rfl
    | ok tag =>
      by_cases ht : tag = .array
      · subst ht
        refine congrArg (Dialogue.ask (.enter .array)) (funext fun a => ?_)
        cases a with
        | error e => rfl
        | ok length => exact advance_element m _
      · show ((if tag = .array then _ else _ : Decoding Streaming Unit)
            ⟨{ x.stream with tag := tag }, x.dest⟩) =
          ((if tag = .array then _ else _ : Decoding Streaming (Option Tag)) >>= _ :
            Decoding Streaming Unit) ⟨{ x.stream with tag := tag }, x.dest⟩
        rw [if_neg ht, if_neg ht]
        rfl
  · simp only [h, if_false]
    exact advance_element m x

theorem element_apply (m : Strategy) (x : Streaming) :
    element m x = (truncated m x.dest).bind fun e =>
      .done ⟨e.result.map fun _ => (), x.stream, e.dest⟩ := by
  show (focus _ _ (truncated m) x).bind _ = _
  rw [focus_apply, Dialogue.bind_bind]
  refine congrArg _ (funext fun e => ?_)
  obtain ⟨result, c⟩ := e
  cases result <;> rfl

/-- How a stream ends with an error. -/
def closed (e : Error) (x : Streaming) : Dialogue (Ending Streaming Unit) :=
  .note (closing e x.stream.count) (.done ⟨.error e, stopped e x.stream, x.dest⟩)

/-- How a call of a stream ends after the element was decoded. -/
def settled (served : Option Tag) (s : Stream) (e : Ending Content Tag) :
    Dialogue (Ending Streaming Unit) :=
  match e.result with
  | .error err => closed err ⟨s, e.dest⟩
  | .ok _ => .done ⟨.ok (), counted served s, e.dest⟩

/-- A call of a stream attempts an element, and closes the stream if that fails. -/
theorem nextBy_attempt (m : Strategy) {x : Streaming} (h : x.stream.terminal = none) :
    nextBy m x = ((if x.stream.tag = .unknown then first m else step m) x).bind fun e =>
      match e.result with
      | .error err => closed err e.dest
      | .ok u => .done ⟨.ok u, e.dest⟩ := by
  unfold nextBy
  rw [get_bind]
  simp only [h]
  refine (Dialogue.bind_bind _ _ _).trans (congrArg _ (funext fun e => ?_))
  obtain ⟨result, y⟩ := e
  cases result <;> rfl

/-- **A call of a stream** is its own calls, and then the decoding of the element, unless the stream
refused. -/
theorem nextBy_apply (m : Strategy) {x : Streaming} (h : x.stream.terminal = none) :
    nextBy m x = (lead x).bind fun l =>
      match l.result with
      | .error err => closed err l.dest
      | .ok served => (truncated (told served m) l.dest.dest).bind (settled served l.dest.stream) := by
  rw [nextBy_attempt m h, lead_element, bind_apply, Dialogue.bind_bind]
  refine congrArg _ (funext fun e => ?_)
  obtain ⟨result, y⟩ := e
  cases result with
  | error err => rfl
  | ok served =>
    simp only [bind_apply, element_apply, Dialogue.bind_bind]
    refine congrArg _ (funext fun e => ?_)
    obtain ⟨result, c⟩ := e
    cases result <;> rfl

theorem nextBy_over (m : Strategy) {x : Streaming} {e : Error} (h : x.stream.terminal = some e) :
    nextBy m x = .done ⟨.error e, x⟩ := by
  unfold nextBy
  rw [get_bind]
  simp only [h]
  rfl

end Stream

end Decant
