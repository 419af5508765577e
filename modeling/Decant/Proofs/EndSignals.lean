import Decant.Catalog.EntryRoutines
import Decant.Proofs.Moves
import Decant.Proofs.Turns
import Decant.Proofs.Watching

/-!
# End signals inside values

* `Contained` — after an end signal inside a value nothing is asked any more, and the outermost
  decoder reports a truncated stream.
* `Setup.decode_contained`, `Setup.carry_contained`, `Stream.Turn.contained` — so it is for
  destinations, for requests with any callbacks, and for the elements of streams.
* `Setup.end_signals_contained` — all of these, and that an end signal never leaves a decoder, whatever
  the callbacks do.

The signal of `next` that a container holds nothing more is no such signal. No container is left after
one that is, since leaving it would be one more call.
-/

namespace Decant

namespace Decoding

variable {δ α : Type} {m : Decoding δ α} {d : δ} {call : Ty → Strategy} {rounds : Nat}

/-- Decoding ends with just the error that the source failed with, if it did; an end signal reads as a
truncated stream. -/
def Reported (failure : Option Error) (e : Ending δ α) : Prop :=
  ∀ x ∈ failure, e.result = .error (Error.truncate x)

theorem truncated_stops (h : (m d).Stops Relayed) : (truncated m d).Stops Reported := by
  apply h.bind
  · intro e _
    exact .done nofun
  · intro err e he
    obtain ⟨y, hy, htrunc⟩ := he err rfl
    refine .done fun x hx => ?_
    cases hx
    rw [hy, ← htrunc]
    rfl

/-- What a request ends with is truncated already. -/
theorem truncated_request {around : Decoding (Hand δ) Unit → Decoding (Hand δ) Unit}
    {r : Routine δ .decoder} (hr : r.IsRequest) (i : Nat) :
    truncated (performBy around call rounds i r) = performBy around call rounds i r := by
  have hfail : ∀ (e : Error) (y : Hand δ), (⟨.error e.truncate.truncate, y⟩ : Ending (Hand δ) Unit) =
      ⟨.error e.truncate, y⟩ := fun e y => by rw [e.truncate_truncate]
  have hgone : ∀ (c : Container) (body : Nat → Decoding (Hand δ) Unit) (finish : Tag → Nat → δ → δ),
      truncated (goThrough c rounds body finish) = goThrough c rounds body finish := by
    intro c body finish
    funext x
    rw [truncated, goThrough_apply, Dialogue.bind_bind]
    refine congrArg _ (funext fun e => ?_)
    obtain ⟨result, y⟩ := e
    cases result with
    | error e => exact congrArg Dialogue.done (hfail e y)
    | ok u =>
      refine congrArg (Dialogue.ask .type) (funext fun a => ?_)
      cases a with
      | error e => exact congrArg Dialogue.done (hfail e y)
      | ok tag =>
        refine (Dialogue.bind_bind _ _ _).trans (congrArg _ (funext fun w => ?_))
        obtain ⟨result, z⟩ := w
        cases result with
        | ok n => rfl
        | error e => exact congrArg Dialogue.done (hfail e z)
  cases r with
  | array body finish => exact hgone .array _ finish
  | map body finish => exact hgone .map _ finish
  | decode t start finish =>
    show truncated (decodeInto call t start finish) = decodeInto call t start finish
    funext x
    rw [truncated, decodeInto_apply, Dialogue.bind_bind]
    refine congrArg _ (funext fun e => ?_)
    obtain ⟨result, y⟩ := e
    cases result with
    | error e => exact congrArg Dialogue.done (hfail e _)
    | ok u =>
      refine (Dialogue.bind_bind _ _ _).trans (congrArg _ (funext fun e => ?_))
      obtain ⟨result, c⟩ := e
      cases result with
      | ok tag => rfl
      | error e => exact congrArg Dialogue.done (hfail e _)
  | _ => cases hr

theorem truncated_ne_ended {s : Schema} {σ : Type} [TokenSource σ] (src : σ) (reg : Registry) (d' : δ) :
    ((truncated m d).run s src reg).answer ≠ some ⟨.error .ended, d'⟩ :=
  fun h => Error.truncate_ne_ended .ended (truncated_error h)

end Decoding

open Decoding

/-- After an end signal inside a value nothing is asked any more, and the outermost decoder reports a
truncated stream. The events are those of the run. -/
structure Contained {σ δ α : Type} (events : List Event) (r : Run σ (Ending δ α)) : Prop where
  calls : Event.calls events = r.exchanges
  reports : ∀ pre x post, events = pre ++ x :: post → x.failure? = some .ended →
    Event.calls post = [] ∧ ∃ d, r.answer = some ⟨.error .truncated, d⟩

section

variable {σ δ α : Type} [TokenSource σ] {s : Setup} {reg : Registry}

theorem Contained.of_alike {m m' : Decoding δ α} {d : δ} {src : σ} {r : Run σ (Ending δ α)}
    (hm : (m d).Stops Reported) (hsame : Same s.schema False m m')
    (ha : r.Alike ((m' d).run s.schema src (.empty false))) :
    Contained ((m d).story s.schema src (.empty false)) r := by
  have hrun := (hsame d).alike src (Registry.sound_empty s.schema false) (.empty false)
  constructor
  · rw [Dialogue.calls_story, hrun.exchanges, ha.exchanges]
  · intro pre x post hx he
    obtain ⟨hpost, ⟨result, d'⟩, hans, hrep⟩ := hm.story s.schema src _ hx he
    obtain rfl : result = .error .truncated := hrep _ rfl
    exact ⟨hpost, d', ha.answer.trans (hrun.answer.symm.trans hans)⟩

namespace Setup

/-- What happens while the next value is decoded. -/
def decodeStory (s : Setup) (n : Nat) (t : Ty) (dest : Content) (src : σ) : List Event :=
  (truncated (do let _ ← s.watched n t) dest).story s.schema src (.empty false)

/-- What happens while a routine is carried out. -/
def carryStory (s : Setup) (n i : Nat) {h : Handle} (r : Routine δ h) (x : Hand δ) (src : σ) :
    List Event :=
  (performBy Decoding.watched (s.watched n) n i r x).story s.schema src (.empty false)

theorem decode_contained (hs : s.RelaysErrors) (hr : reg.Sound s.schema) (n : Nat) (t : Ty)
    (dest : Content) (src : σ) :
    Contained (s.decodeStory n t dest src) ((s.decode n t dest).run s.schema src reg) := by
  have hstops := failFast.bind (watched_failFast hs n t) fun _ => failFast.pure ()
  have hsame : Same s.schema False (truncated do let _ ← s.watched n t) (s.decodeDirect n t) :=
    ((s.watched_same n t).bind fun _ => .pure ()).truncated
  exact .of_alike (truncated_stops (hstops dest)) hsame (s.decode_alike_direct hr n t dest src)

theorem carry_contained (hs : s.RelaysErrors) (hr : reg.Sound s.schema) (n i : Nat)
    {r : Routine δ .decoder} (hreq : r.IsRequest) {x : Hand δ} (hp : r.PassesOn x.state) (src : σ) :
    Contained (s.carryStory n i r x src) (s.carry n i r x src reg) := by
  have hpasses : (performBy Decoding.watched (s.watched n) n i r x).Stops Relayed :=
    performBy_passes (watched_failFast hs n) watched_stops i hp
  have hstops := truncated_stops hpasses
  rw [truncated_request hreq] at hstops
  have hsame : Same s.schema False (performBy Decoding.watched (s.watched n) n i r)
      (Decoding.perform (s.direct n) n i r) :=
    same_performBy same_watched (s.watched_same n) ⟨Nat.le_refl n, .inr rfl⟩ i r
  exact .of_alike hstops hsame (s.carry_alike hr n i r x src)

end Setup

/-! ### Streams -/

namespace Stream

theorem told_stops {m : Strategy} {Q : Option Error → Ending Content Tag → Prop} {c : Content}
    (h : (m c).Stops Q) (served : Option Tag) : (told served m c).Stops Q := by
  cases served with
  | none => exact h
  | some tag => exact h.serving tag

/-- What happens while the element is decoded, if the stream gets to it. -/
def Turn.story (s : Setup) (u : Turn σ) : List Event :=
  if u.stream.terminal.isSome then []
  else match (u.lead s).answer with
    | some ⟨.ok served, x⟩ =>
      (truncated (told served (s.watched u.request.steps u.request.ty)) x.dest).story s.schema
        (u.lead s).source (.empty false)
    | _ => []

theorem element_contained (hs : s.RelaysErrors) (hr : reg.Sound s.schema) (n : Nat) (t : Ty)
    (served : Option Tag) (c : Content) (src : σ) :
    Contained ((truncated (told served (s.watched n t)) c).story s.schema src (.empty false))
      ((truncated (told served (s.call n t)) c).run s.schema src reg) := by
  have hsame : Same s.schema False (truncated (told served (s.call n t)))
      (truncated (told served (s.direct n t))) := (same_told served (s.call_same n t)).truncated
  exact .of_alike (truncated_stops (told_stops (s.watched_failFast hs n t c) served))
    (same_told served (s.watched_same n t)).truncated ((hsame c).alike src hr (.empty false))

/-- A call of a stream makes its own calls and those of the element. After an end signal inside the
element nothing is asked any more, and the stream fails as truncated. -/
theorem Turn.contained (hs : s.RelaysErrors) {u : Turn σ} (hr : u.registry.Reachable s.schema) :
    (u.run s).exchanges = u.own s ++ Event.calls (u.story s) ∧
      ∀ pre x post, u.story s = pre ++ x :: post → x.failure? = some .ended →
        Event.calls post = [] ∧ ∃ y, (u.run s).answer = some ⟨.error .truncated, y⟩ ∧
          y.stream.failure? = some .truncated := by
  unfold Turn.own Turn.story
  cases ht : u.stream.terminal with
  | some e =>
    rw [Turn.run_over ht]
    exact ⟨rfl, fun pre x post hx => by simp at hx⟩
  | none =>
    rw [Turn.run_eq ht]
    have hreg : (u.lead s).registry.Sound s.schema := (hr.led _ _).sound
    simp only [Option.isSome_none, Bool.false_eq_true, if_false]
    generalize u.lead s = l at hreg
    obtain ⟨answer, src, reg, own, notes⟩ := l
    cases answer with
    | none => exact ⟨(List.append_nil _).symm, fun pre x post hx => by simp at hx⟩
    | some l =>
      obtain ⟨result, y⟩ := l
      cases result with
      | error e => exact ⟨rfl, fun pre x post hx => by simp at hx⟩
      | ok served =>
        obtain ⟨hcalls, hreports⟩ :=
          element_contained hs hreg u.request.steps u.request.ty served y.dest src
        simp only [Dialogue.andRun, Request.rest, Dialogue.run_bind]
        generalize (truncated (told served (s.call u.request.steps u.request.ty)) y.dest).run s.schema
          src reg = q at hcalls hreports
        obtain ⟨answer, qsrc, qreg, xs, qnotes⟩ := q
        constructor
        · rw [hcalls]
          cases answer with
          | none => rfl
          | some e => cases h : e.result <;> simp [settled, closed, Dialogue.run, h]
        · intro pre x post hx he
          obtain ⟨hpost, d, hans⟩ := hreports pre x post hx he
          obtain rfl : answer = some ⟨.error .truncated, d⟩ := hans
          exact ⟨hpost, _, rfl, rfl⟩

end Stream

namespace Setup

/-- **An end signal inside a value is never the end of a container around it.** Whatever types and
callbacks do, neither decoding nor a request ends with an end signal. If they pass errors on, then after
a callback, a type or the routine that takes over the entries of maps raised an end signal, or a call
answered with one that is not the signal of `next`, no call is made any more, so no container is left;
and the outermost decoder reports a truncated stream. A stream does so for its elements. That an end signal
was raised is an event exactly where what is watched ended with one. -/
theorem end_signals_contained (hr : reg.Reachable s.schema) (n : Nat) (src : σ) :
    (∀ {γ α : Type} (m : Decoding γ α) d,
        (Decoding.watched m d).story s.schema src reg = (m d).story s.schema src reg ++
          if ((m d).run s.schema src reg).answer.bind (fun e => failure? e.result) = some .ended then [.raised]
          else []) ∧
      (∀ t dest d, ((s.decode n t dest).run s.schema src reg).answer ≠ some ⟨.error .ended, d⟩) ∧
      (∀ (i : Nat) (r : Routine δ .decoder) x y, r.IsRequest →
        (s.carry n i r x src reg).answer ≠ some ⟨.error .ended, y⟩) ∧
      (s.RelaysErrors →
        (∀ t dest, Contained (s.decodeStory n t dest src) ((s.decode n t dest).run s.schema src reg)) ∧
        (∀ (i : Nat) (r : Routine δ .decoder) x, r.IsRequest → r.PassesOn x.state →
          Contained (s.carryStory n i r x src) (s.carry n i r x src reg)) ∧
        ∀ u : Stream.Turn σ, u.registry.Reachable s.schema →
          (u.run s).exchanges = u.own s ++ Event.calls (u.story s) ∧
          ∀ pre x post, u.story s = pre ++ x :: post → x.failure? = some .ended →
            Event.calls post = [] ∧ ∃ y, (u.run s).answer = some ⟨.error .truncated, y⟩ ∧
              y.stream.failure? = some .truncated) := by
  have hsound := hr.sound
  refine ⟨fun m d => story_watched m d src reg, fun t dest d => truncated_ne_ended src reg d, fun i r x y hreq => ?_,
    fun hs => ⟨?_, ?_, ?_⟩⟩
  · have htrunc : truncated (Decoding.perform (s.call n) n i r) = Decoding.perform (s.call n) n i r := by
      rw [← performBy_id]
      exact truncated_request hreq i
    unfold carry
    rw [← htrunc]
    exact truncated_ne_ended src reg y
  · exact fun t dest => decode_contained hs hsound n t dest src
  · exact fun i r x hreq hp => carry_contained hs hsound n i hreq hp src
  · exact fun u hu => Stream.Turn.contained hs hu

end Setup

end

/-- Taking entries as they are, and failing after one of them, passes errors on. -/
theorem EntryRoutine.failing_careful (e : Error) (i : Nat) : (EntryRoutine.failing e i).Careful := by
  have hpairs : (EntryRoutine.pairs i).Careful :=
    .seq (.update _) (.seq (.key (.decode ..)) (.seq (.value (.decode ..)) (.seq (.update _) .skip)))
  refine .seq hpairs ?_
  split
  · exact .fail e
  · exact .skip

/-- The second entry of a map in an array raises an end signal: in a callback, in the routine that takes
over the entries of maps, and in a type that decodes by hand, which a stream decodes. -/
theorem Setup.end_signals_contained_second :
    let s : Setup := ⟨Catalog.schema [], some EntryRoutine.ending⟩
    let src : Script :=
      ⟨[.enter .array none, .next, .enter .map (some 3), .string "a".toUTF8, .value, .int 1, .next,
        .string "b".toUTF8, .value, .int (-1), .next, .string "c".toUTF8, .value, .int 2, .close, .stop,
        .close]⟩
    let entry : Nat → Routine Unit .entry := fun i =>
      .seq (.key (.decode .text (fun _ => .text "") fun _ _ u => u))
        (.seq (.value (.decode .i64 (fun _ => .int 0) fun _ _ u => u))
          (if i = 1 then .fail .ended else .skip))
    let body : Routine Unit .decoder := .array (fun _ => .map entry fun _ _ u => u) fun _ _ u => u
    let asked := s.carry 9 0 body ⟨(), none⟩ src (.empty true)
    let decoded := (s.decode 9 (.list .dynamic) (.list [])).run s.schema src (.empty true)
    let u : Stream.Turn Script :=
      ⟨⟨9, .map .sorted .text (.named "Ender"), .map []⟩, .start, src, .empty true⟩
    let calls : List Call := [.type, .enter .array, .next .array 0, .type, .enter .map, .type, .string,
      .toValue 0, .type, .int, .next .map 1, .type, .string, .toValue 1, .type, .int]
    (Registry.empty true).Reachable s.schema ∧ s.RelaysErrors ∧ body.IsRequest ∧ body.PassesOn () ∧
      (asked.exchanges.map (·.call) = calls ∧ ∃ y, asked.answer = some ⟨.error .truncated, y⟩) ∧
      (decoded.exchanges.map (·.call) = calls ∧ ∃ d, decoded.answer = some ⟨.error .truncated, d⟩) ∧
      (u.run s).exchanges.map (·.call) = calls ∧ ∃ y, (u.run s).answer = some ⟨.error .truncated, y⟩ ∧
        y.stream.failure? = some .truncated := by
  intro s src entry body asked decoded u calls
  have hr : (Registry.empty true).Reachable s.schema := .empty true
  have hs : s.RelaysErrors := by
    refine ⟨Catalog.schema_relaysErrors [], fun routine h i state => ?_⟩
    cases h
    exact (EntryRoutine.failing_careful .ended i).passesOn state
  have hbody : body.Careful := by
    refine .array (fun _ => .map (fun i => ?_) _) _
    refine .seq (.key (.decode ..)) (.seq (.value (.decode ..)) ?_)
    split
    · exact .fail _
    · exact .skip
  have hraised : ∀ events : List Event, events.any (·.exchange?.isNone) = true →
      ∃ pre post, events = pre ++ .raised :: post := by
    intro events h
    obtain ⟨x, hx, hnone⟩ := List.any_eq_true.1 h
    cases x with
    | asked y => cases hnone
    | raised => exact List.append_of_mem hx
  obtain ⟨-, -, -, h⟩ := end_signals_contained hr 9 src
  obtain ⟨hdecode, hcarry, hturn⟩ := h hs
  obtain ⟨pre, post, hx⟩ := hraised (s.carryStory 9 0 body ⟨(), none⟩ src) (by decide +kernel)
  obtain ⟨pre', post', hx'⟩ :=
    hraised (s.decodeStory 9 (.list .dynamic) (.list []) src) (by decide +kernel)
  obtain ⟨pre'', post'', hx''⟩ := hraised (u.story s) (by decide +kernel)
  have hasked := ((hcarry 0 body ⟨(), none⟩ trivial (hbody.passesOn ())).reports pre _ post hx rfl).2
  have hdecoded := ((hdecode (.list .dynamic) (.list [])).reports pre' _ post' hx' rfl).2
  have hstream := ((hturn u hr).2 pre'' _ post'' hx'' rfl).2
  exact ⟨hr, hs, trivial, hbody.passesOn (), ⟨by decide +kernel, hasked⟩, ⟨by decide +kernel, hdecoded⟩,
    by decide +kernel, hstream⟩

end Decant
