import Decant.Proofs.Direct
import Decant.Proofs.Notes
import Decant.Proofs.Outline
import Decant.Proofs.Unknown

/-!
# One call of a stream

* `Stream.Turn` — a call of a stream, and what it finds.
* `Stream.Turn.run_over`, `Stream.Turn.run_refused`, `Stream.Turn.run_led` — how it goes, after the calls
  that the stream makes itself.
* `Stream.Turned` — everything that it can do, and `Stream.Made.turned`: there is nothing else.
* `Stream.Turned.after`, `Stream.Turned.notes` — what it leaves.
-/

namespace Decant

/-- A run with some calls in front. -/
def Run.after {σ α : Type} (xs : List Exchange) (r : Run σ α) : Run σ α :=
  { r with exchanges := xs ++ r.exchanges }

theorem Dialogue.andRun_after {σ α β : Type} [TokenSource σ] (s : Schema) (xs : List Exchange)
    (r : Run σ α) (f : α → Dialogue β) : andRun s (r.after xs) f = (andRun s r f).after xs := by
  obtain ⟨answer, src, reg, ys, notes⟩ := r
  cases answer with
  | none => rfl
  | some a => simp [andRun, Run.after]

namespace Stream

open Decoding

/-- A request for the next element, as a value of a type, within a budget of steps. -/
structure Request where
  steps : Nat
  ty : Ty
  dest : Content

/-- A call of a stream, and what it finds. -/
structure Turn (σ : Type) where
  request : Request
  stream : Stream
  source : σ
  registry : Registry

namespace Turn

variable {σ : Type} [TokenSource σ]

/-- How a call goes. -/
def run (s : Setup) (t : Turn σ) : Run σ (Ending Streaming Unit) :=
  (next s t.request.steps t.request.ty ⟨t.stream, t.request.dest⟩).run s.schema t.source t.registry

/-- How the calls go that the stream makes itself. -/
def lead (s : Setup) (t : Turn σ) : Run σ (Ending Streaming (Option Tag)) :=
  (Stream.lead ⟨t.stream, t.request.dest⟩).run s.schema t.source t.registry

/-- The calls that the stream makes itself. -/
def own (s : Setup) (t : Turn σ) : List Exchange :=
  if t.stream.terminal.isSome then [] else (t.lead s).exchanges

/-- How the element is decoded, if the stream gets to it. -/
def element (s : Setup) (t : Turn σ) : Option (Run σ (Ending Content Tag)) :=
  if t.stream.terminal.isSome then none
  else match (t.lead s).answer with
    | some ⟨.ok served, _⟩ =>
      some ((truncated (told served (s.call t.request.steps t.request.ty)) t.request.dest).run s.schema
        (t.lead s).source (t.lead s).registry)
    | _ => none

/-- Whether the call gave an element. -/
def succeeded (s : Setup) (t : Turn σ) : Bool :=
  (t.run s).answer.any fun e => e.result.toBool

/-- Whether the call failed. -/
def failed (s : Setup) (t : Turn σ) : Bool :=
  (t.run s).answer.any fun e => !e.result.toBool

end Turn

/-! ## How a call goes -/

variable {σ : Type} [TokenSource σ]

/-- What a call of a stream does after its own calls. -/
def Request.rest (s : Setup) (q : Request) (l : Ending Streaming (Option Tag)) :
    Dialogue (Ending Streaming Unit) :=
  match l.result with
  | .error err => closed err l.dest
  | .ok served => (truncated (told served (s.call q.steps q.ty)) l.dest.dest).bind
      (settled served l.dest.stream)

/-- A call of a stream that is over does nothing. -/
theorem Turn.run_over {s : Setup} {u : Turn σ} {e : Error} (hu : u.stream.terminal = some e) :
    u.run s = ⟨some ⟨.error e, u.stream, u.request.dest⟩, u.source, u.registry, [], []⟩ := by
  unfold Turn.run next
  rw [nextBy_over _ hu]
  rfl

theorem Turn.run_eq {s : Setup} {u : Turn σ} (hu : u.stream.terminal = none) :
    u.run s = Dialogue.andRun s.schema (u.lead s) (u.request.rest s) := by
  unfold Turn.run next
  rw [nextBy_apply _ hu, Dialogue.run_bind]
  rfl

/-- A call that the stream refuses by itself ends with the error of its own calls. -/
theorem Turn.run_refused {s : Setup} {u : Turn σ} (hu : u.stream.terminal = none) {e : Error}
    {x : Streaming} {src : σ} {reg : Registry} {own : List Exchange}
    (hl : u.lead s = ⟨some ⟨.error e, x⟩, src, reg, own, []⟩) :
    u.run s = ⟨some ⟨.error e, stopped e x.stream, x.dest⟩, src, reg, own, [closing e x.stream.count]⟩ := by
  rw [Turn.run_eq hu, hl]
  simp [Dialogue.andRun, Request.rest, closed, Dialogue.run]

/-- A call that gets to an element goes as decoding it. -/
theorem Turn.run_led {s : Setup} {u : Turn σ} (hu : u.stream.terminal = none) {served : Option Tag}
    {x : Streaming} {src : σ} {reg : Registry} {own : List Exchange}
    (hl : u.lead s = ⟨some ⟨.ok served, x⟩, src, reg, own, []⟩) :
    u.run s = (Dialogue.andRun s.schema ((truncated (told served (s.call u.request.steps u.request.ty))
      x.dest).run s.schema src reg) (settled served x.stream)).after own := by
  rw [Turn.run_eq hu, hl]
  simp [Dialogue.andRun, Request.rest, Dialogue.run_bind, Run.after]

theorem Turn.succeeded_of_answer {s : Setup} {t : Turn σ} {r : Except Error Unit} {x : Streaming}
    (ha : (t.run s).answer = some ⟨r, x⟩) : t.succeeded s = r.toBool := by
  simp [Turn.succeeded, ha]

theorem Turn.failed_of_answer {s : Setup} {t : Turn σ} {r : Except Error Unit} {x : Streaming}
    (ha : (t.run s).answer = some ⟨r, x⟩) : t.failed s = !r.toBool := by
  simp [Turn.failed, ha]

/-! ## What a call can do -/

theorem same_told {s : Schema} {short : Prop} {m m' : Strategy} (served : Option Tag)
    (h : Same s short m m') : Same s short (told served m) (told served m') := by
  cases served with
  | none => exact h
  | some tag => exact h.serving tag

/-- An element leaves no note that a stream is over, and one of unknown kind is not decoded. -/
theorem element_run {s : Setup} (hs : s.schema.DecodesOne) {reg : Registry}
    (hr : reg.Sound s.schema) (n : Nat) (t : Ty) (served : Option Tag) (d : Content) (src : σ) :
    let q := (truncated (told served (s.call n t)) d).run s.schema src reg
    (∀ x ∈ q.notes, x.closes = false) ∧
      (served = some .unknown → ∀ a d', q.answer ≠ some ⟨.ok a, d'⟩) := by
  intro q
  have hsame : Same s.schema False (truncated (told served (s.call n t)))
      (truncated (told served (s.direct n t))) := (same_told served (s.call_same n t)).truncated
  have hnotes : closesNothing.Holds (truncated (told served (s.direct n t))) := by
    apply notes_truncated
    cases served with
    | none => exact s.direct_notes n t
    | some tag => exact fun d => (s.direct_notes n t d).serving tag
  have ha := (hsame d).alike src hr reg
  constructor
  · intro x hx
    rw [ha.notes] at hx
    exact (hnotes d).run s.schema src reg x hx
  · rintro rfl a d' hq
    have hq := ha.answer.symm.trans hq
    have hrun : (truncated (told (some .unknown) (s.direct n t)) d) =
      ((s.direct n t d).serving .unknown).bind fun e =>
        .done ⟨e.result.mapError Error.truncate, e.dest⟩ := rfl
    rw [hrun] at hq
    rcases Setup.direct_refuses hs n t d with hx | ⟨e, d'', hd⟩
    · rw [hx] at hq
      cases hq
    · rw [hd] at hq
      cases hq

/-- Everything that one call of a stream can do. -/
inductive Turned (s : Setup) (t : Turn σ) : Prop
  /-- The stream was over. -/
  | idle {e : Error} (h : t.stream.terminal = some e) (hown : t.own s = []) (hel : t.element s = none)
      (hrun : t.run s =
        ⟨some ⟨.error e, t.stream, t.request.dest⟩, t.source, t.registry, [], []⟩)
  /-- The stream failed before it got to an element. -/
  | refused {e : Error} {st : Stream} (src : σ) (hled : Led t.stream (t.own s) (.error e) st)
      (hel : t.element s = none)
      (hrun : t.run s = ⟨some ⟨.error e, stopped e st, t.request.dest⟩, src, t.registry, t.own s,
        [closing e st.count]⟩)
  /-- The element could not be decoded. -/
  | failed {e : Error} {d : Content} {served : Option Tag} {st : Stream}
      {q : Run σ (Ending Content Tag)} (hled : Led t.stream (t.own s) (.ok served) st)
      (hel : t.element s = some q) (hq : q.answer = some ⟨.error e, d⟩)
      (hn : ∀ x ∈ q.notes, x.closes = false)
      (hrun : t.run s = ⟨some ⟨.error e, stopped e st, d⟩, q.source, q.registry,
        t.own s ++ q.exchanges, q.notes ++ [closing e st.count]⟩)
  | decoded {tag : Tag} {d : Content} {served : Option Tag} {st : Stream}
      {q : Run σ (Ending Content Tag)} (hled : Led t.stream (t.own s) (.ok served) st)
      (hu : served ≠ some .unknown)
      (hel : t.element s = some q) (hq : q.answer = some ⟨.ok tag, d⟩)
      (hn : ∀ x ∈ q.notes, x.closes = false)
      (hrun : t.run s = ⟨some ⟨.ok (), counted served st, d⟩, q.source, q.registry,
        t.own s ++ q.exchanges, q.notes⟩)
  /-- The budget of steps ran out. -/
  | short {served : Option Tag} {st : Stream} {q : Run σ (Ending Content Tag)}
      (hled : Led t.stream (t.own s) (.ok served) st) (hel : t.element s = some q)
      (hq : q.answer = none) (hn : ∀ x ∈ q.notes, x.closes = false)
      (hrun : t.run s =
        ⟨none, q.source, q.registry, t.own s ++ q.exchanges, q.notes⟩)

/-- **A call does nothing else.** -/
theorem Made.turned {s : Setup} (hs : s.schema.DecodesOne) {t : Turn σ} {own : List Exchange}
    (hm : Made t.stream own) (hr : t.registry.Sound s.schema) : Turned s t := by
  cases ht : t.stream.terminal with
  | some e => exact .idle ht (by simp [Turn.own, ht]) (by simp [Turn.element, ht]) (Turn.run_over ht)
  | none =>
    obtain ⟨xs, r, st, src, hled, hrun⟩ :=
      lead_leads (hm.isOpen ht) (s := s.schema) t.request.dest t.source t.registry
    have hlead : t.lead s = ⟨some ⟨r, st, t.request.dest⟩, src, t.registry, xs, []⟩ := hrun
    obtain rfl : t.own s = xs := by simp [Turn.own, ht, hlead]
    cases r with
    | error e => exact .refused src hled (by simp [Turn.element, ht, hlead]) (Turn.run_refused ht hlead)
    | ok served =>
      have hel : t.element s =
          some ((truncated (told served (s.call t.request.steps t.request.ty)) t.request.dest).run
            s.schema src t.registry) := by
        simp [Turn.element, ht, hlead]
      have hrun := Turn.run_led ht hlead
      obtain ⟨hn, hu⟩ := element_run hs hr t.request.steps t.request.ty served t.request.dest src
      generalize (truncated (told served (s.call t.request.steps t.request.ty)) t.request.dest).run
        s.schema src t.registry = q at *
      obtain ⟨answer, qsrc, qreg, qxs, qnotes⟩ := q
      cases answer with
      | none => exact .short hled hel rfl hn hrun
      | some e =>
        obtain ⟨result, d⟩ := e
        cases result with
        | error e =>
          refine .failed hled hel rfl hn (hrun.trans ?_)
          simp [Dialogue.andRun, settled, closed, Dialogue.run, Run.after]
        | ok tag =>
          refine .decoded hled (fun h => hu h tag d rfl) hel rfl hn (hrun.trans ?_)
          simp [Dialogue.andRun, settled, Dialogue.run, Run.after]

/-! ## What a call leaves -/

section

variable {s : Setup} {t : Turn σ} {own : List Exchange}

/-- A call leaves a stream that goes with its calls, is over exactly if the call failed, and counts the
element that the call gave. -/
theorem Turned.after (ht : Turned s t) (hm : Made t.stream own) {r : Except Error Unit}
    {x : Streaming} (ha : (t.run s).answer = some ⟨r, x⟩) :
    Made x.stream (own ++ t.own s) ∧ x.stream.terminal = Decoding.failure? r ∧
      x.stream.count = t.stream.count + if r.toBool then 1 else 0 := by
  cases ht with
  | idle h hown _ hrun =>
    rw [hrun] at ha
    cases ha
    rw [hown, List.append_nil]
    exact ⟨hm, h, rfl⟩
  | refused src hled _ hrun =>
    rw [hrun] at ha
    cases ha
    exact ⟨.stopped rfl (hm.led hled).1, rfl, hled.count.2.2⟩
  | failed hled _ _ _ hrun =>
    rw [hrun] at ha
    cases ha
    exact ⟨.stopped rfl (hm.led hled).1, rfl, hled.count.2.2⟩
  | @decoded tag d served st q hled hu _ _ _ hrun =>
    rw [hrun] at ha
    cases ha
    refine ⟨(hm.led hled).2 served rfl hu, hled.count.2.1, ?_⟩
    have hcount : st.count = t.stream.count := hled.count.2.2
    cases served with
    | none =>
      show st.count + 1 = _
      rw [hcount]
      rfl
    | some tag =>
      have hzero : t.stream.count = 0 := by
        generalize t.stream = u, t.own s = xs at hled
        cases hled with
        | single _ => rfl
        | opened h => rfl
      show 1 = _
      rw [hzero]
      rfl
  | short _ _ _ _ hrun =>
    rw [hrun] at ha
    cases ha

/-- After a call, all calls of the stream so far are in keeping with the outline. -/
theorem Turned.outline {r : Except Error Unit} {x : Streaming} (ht : Turned s t)
    (hm : Made t.stream own) (ha : (t.run s).answer = some ⟨r, x⟩) :
    Outline (own ++ t.own s) x.stream.count := by
  obtain ⟨hmade, hterm, hcount⟩ := ht.after hm ha
  rcases hmade.outline with ⟨hst, -⟩ | ho
  · -- A stream that was asked for an element has either failed or counted it.
    rw [hst] at hterm hcount
    cases r with
    | ok u => exact absurd hcount.symm (Nat.succ_ne_zero _)
    | error e => cases hterm
  · exact ho

theorem failure?_of_terminal {st : Stream} {e : Error} (h : st.terminal = some e) :
    st.failure? = if e = .ended then none else some e := by
  cases e <;> simp [Stream.failure?, h, Error.isEnd]

/-- Once the only value was taken, a call asks nothing and ends the stream. -/
theorem Turned.of_taken (ht : Turned s t) {tag : Tag} (hne : tag ≠ .array)
    (hst : t.stream = ⟨tag, 1, some 1, none⟩) :
    (t.run s).exchanges = [] ∧ ∃ x, (t.run s).answer = some ⟨.error .ended, x⟩ := by
  cases ht with
  | idle hterm _ _ _ =>
    rw [hst] at hterm
    cases hterm
  | refused src hled _ hrun =>
    obtain ⟨hown, he⟩ := (hst ▸ hled).of_taken hne
    cases he
    rw [hrun, hown]
    exact ⟨rfl, _, rfl⟩
  | failed hled _ _ _ _ | decoded hled _ _ _ _ _ | short hled _ _ _ _ =>
    obtain ⟨-, he⟩ := (hst ▸ hled).of_taken hne
    cases he

/-- One call notes that the stream is over exactly if it fails. -/
theorem Turned.notes (ht : Turned s t) (hst : t.stream.terminal = none) :
    (t.run s).notes.countP Note.closes = if t.failed s then 1 else 0 := by
  have hclosing : ∀ e n, (closing e n).closes = true := by
    intro e n
    unfold closing
    split <;> rfl
  have hnone : ∀ {q : Run σ (Ending Content Tag)}, (∀ x ∈ q.notes, x.closes = false) →
      q.notes.countP Note.closes = 0 := by
    intro q hn
    rw [List.countP_eq_zero]
    intro x hx
    simp [hn x hx]
  cases ht with
  | idle h _ _ _ =>
    rw [hst] at h
    cases h
  | refused _ _ _ hrun => simp [Turn.failed, hrun, hclosing, Except.toBool]
  | failed _ _ _ hn hrun => simp [Turn.failed, hrun, hclosing, hnone hn, Except.toBool]
  | decoded _ _ _ _ hn hrun => simp [Turn.failed, hrun, hnone hn, Except.toBool]
  | short _ _ _ hn hrun => simp [Turn.failed, hrun, hnone hn]

end

end Stream

end Decant
