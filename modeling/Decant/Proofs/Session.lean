import Decant.Proofs.CatalogContract
import Decant.Proofs.Turns

/-!
# Sessions of streams

* `Stream.session` — a stream is asked for one element after the other, each as a value of a type of
  its own.
* `Stream.Goes` — the calls of a session, each with what it can do.
* `Stream.Orderly` — what holds of every session, and `Stream.session_orderly`.
-/

namespace Decant

namespace Stream

open Decoding

variable {σ : Type} [TokenSource σ]

/-- Ask a stream for one element after the other. The session is over early if a budget of steps runs
out. -/
def session (s : Setup) : List Request → Stream → σ → Registry → List (Turn σ)
  | [], _, _, _ => []
  | q :: qs, st, src, reg =>
    let t : Turn σ := ⟨q, st, src, reg⟩
    t :: match (t.run s).answer with
      | none => []
      | some e => session s qs e.dest.stream (t.run s).source (t.run s).registry

/-- The calls of a session, from a stream that has made some calls before. -/
inductive Goes (s : Setup) : Stream → List Exchange → List (Turn σ) → Prop
  | nil {st : Stream} {own : List Exchange} (hm : Made st own) : Goes s st own []
  | short {t : Turn σ} {own : List Exchange} (hm : Made t.stream own) (ht : Turned s t)
      (ha : (t.run s).answer = none) : Goes s t.stream own [t]
  | cons {t : Turn σ} {own : List Exchange} {r : Except Error Unit} {x : Streaming}
      {rest : List (Turn σ)} (hm : Made t.stream own) (ht : Turned s t)
      (ha : (t.run s).answer = some ⟨r, x⟩) (h : Goes s x.stream (own ++ t.own s) rest) :
      Goes s t.stream own (t :: rest)

/-- A session consists of such calls. -/
theorem session_goes {s : Setup} (hs : s.schema.DecodesOne) (qs : List Request) {st : Stream} {src : σ}
    {reg : Registry} {own : List Exchange} (hr : reg.Sound s.schema) (hm : Made st own) :
    Goes s st own (session s qs st src reg) := by
  induction qs generalizing st src reg own with
  | nil => exact .nil hm
  | cons q qs ih =>
    let t : Turn σ := ⟨q, st, src, reg⟩
    have ht : Turned s t := hm.turned hs hr
    have hr' : (t.run s).registry.Sound s.schema := Dialogue.run_sound _ _ hr
    show Goes s t.stream own (t :: match (t.run s).answer with
      | none => []
      | some e => session s qs e.dest.stream (t.run s).source (t.run s).registry)
    cases ha : (t.run s).answer with
    | none => exact .short hm ht ha
    | some e => exact .cons hm ht ha (ih hr' (ht.after hm ha).1)

namespace Goes

variable {s : Setup} {st : Stream} {own : List Exchange} {turns : List (Turn σ)}

theorem turned (h : Goes s st own turns) : ∀ t ∈ turns, Turned s t := by
  induction h with
  | nil _ => exact fun u hu => absurd hu List.not_mem_nil
  | short _ ht _ =>
    intro u hu
    rwa [List.mem_singleton.1 hu]
  | cons _ ht _ _ ih =>
    intro u hu
    rcases List.mem_cons.1 hu with rfl | hu
    · exact ht
    · exact ih u hu

/-- Once a stream is over, every call fails with its error and does nothing. -/
theorem stopped (h : Goes s st own turns) {e : Error} (hst : st.terminal = some e) :
    ∀ u ∈ turns, u.stream = st ∧ u.own s = [] ∧ u.run s =
      ⟨some ⟨.error e, st, u.request.dest⟩, u.source, u.registry, [], []⟩ := by
  induction h with
  | nil _ => exact fun u hu => absurd hu List.not_mem_nil
  | short _ ht ha =>
    rw [Turn.run_over hst] at ha
    cases ha
  | @cons t own r x rest _ ht ha _ ih =>
    have hrun := Turn.run_over (s := s) hst
    rw [hrun] at ha
    cases ha
    intro u hu
    rcases List.mem_cons.1 hu with rfl | hu
    · exact ⟨rfl, by simp [Turn.own, hst], hrun⟩
    · exact ih hst u hu

theorem count (h : Goes s st own turns) {pre post : List (Turn σ)} {t : Turn σ}
    (hx : turns = pre ++ t :: post) : t.stream.count = st.count + pre.countP (·.succeeded s) ∧
      ∀ e ∈ (t.run s).answer, e.dest.stream.count =
        st.count + (pre ++ [t]).countP (·.succeeded s) := by
  induction h generalizing pre with
  | nil _ => simp at hx
  | @short u own _ _ ha =>
    obtain ⟨rfl, rfl, rfl⟩ : pre = [] ∧ u = t ∧ post = [] := by
      cases pre <;> simp_all
    refine ⟨rfl, fun e he => ?_⟩
    rw [ha] at he
    cases he
  | @cons u own r x rest hm ht ha _ ih =>
    have hcount : x.stream.count = u.stream.count + if u.succeeded s then 1 else 0 := by
      rw [Turn.succeeded_of_answer ha]
      exact (ht.after hm ha).2.2
    cases pre with
    | nil =>
      obtain ⟨rfl, rfl⟩ := List.cons.inj hx
      refine ⟨rfl, fun e he => ?_⟩
      rw [ha] at he
      cases he
      simp [List.countP_cons, hcount]
    | cons v pre =>
      obtain ⟨rfl, rfl⟩ := List.cons.inj hx
      obtain ⟨hbefore, hafter⟩ := ih rfl
      simp only [List.cons_append, List.countP_cons]
      refine ⟨by omega, fun e he => ?_⟩
      have := hafter e he
      omega

theorem outline (h : Goes s st own turns) (hne : turns ≠ []) :
    Outline (own ++ turns.flatMap (·.own s)) (st.count + turns.countP (·.succeeded s)) := by
  induction h with
  | nil _ => exact absurd rfl hne
  | @short t own hm ht ha =>
    have hs : t.succeeded s = false := by simp [Turn.succeeded, ha]
    simp only [List.flatMap_cons, List.flatMap_nil, List.append_nil, List.countP_cons,
      List.countP_nil, hs]
    cases ht with
    | short hled _ _ _ _ =>
      have ho := (hm.led hled).1
      rwa [hled.count.2.2] at ho
    | idle _ _ _ hrun | refused _ _ _ hrun | failed _ _ _ _ hrun | decoded _ _ _ _ _ hrun =>
      rw [hrun] at ha
      cases ha
  | @cons t own r x rest hm ht ha h ih =>
    have hcount : x.stream.count = t.stream.count + if t.succeeded s then 1 else 0 := by
      rw [Turn.succeeded_of_answer ha]
      exact (ht.after hm ha).2.2
    simp only [List.flatMap_cons, List.countP_cons]
    rw [← List.append_assoc, Nat.add_comm (List.countP _ rest), ← Nat.add_assoc, ← hcount]
    by_cases hrest : rest = []
    · subst hrest
      simp only [List.flatMap_nil, List.append_nil, List.countP_nil]
      exact ht.outline hm ha
    · exact ih hrest

theorem stuck (h : Goes s st own turns) : turns.Pairwise fun t u =>
    ∀ e x, (t.run s).answer = some ⟨.error e, x⟩ → u.stream = x.stream ∧ u.own s = [] ∧ u.run s =
      ⟨some ⟨.error e, x.stream, u.request.dest⟩, u.source, u.registry, [], []⟩ := by
  induction h with
  | nil _ => exact .nil
  | short _ _ _ => exact List.pairwise_singleton _ _
  | cons hm ht ha h ih =>
    refine .cons (fun u hu e y hy => ?_) ih
    rw [ha] at hy
    cases hy
    exact h.stopped (ht.after hm ha).2.1 u hu

/-- Once the only value was taken, the stream ends. -/
theorem after_single {tag : Tag} (ht : tag ≠ .array) (h : Goes s ⟨tag, 1, some 1, none⟩ own turns) :
    ∀ u ∈ turns, (u.run s).exchanges = [] ∧ ∃ x, (u.run s).answer = some ⟨.error .ended, x⟩ := by
  generalize hst : (⟨tag, 1, some 1, none⟩ : Stream) = st at h
  cases h with
  | nil _ => exact fun u hu => absurd hu List.not_mem_nil
  | short _ hturned _ =>
    intro u hu
    obtain rfl := List.mem_singleton.1 hu
    exact hturned.of_taken ht hst.symm
  | @cons t own r x rest hm hturned ha h =>
    obtain ⟨hx, y, hy⟩ := hturned.of_taken ht hst.symm
    have hover : x.stream.terminal = some .ended := by
      rw [ha] at hy
      cases hy
      exact (hturned.after hm ha).2.1
    intro u hu
    rcases List.mem_cons.1 hu with rfl | hu
    · exact ⟨hx, y, hy⟩
    · obtain ⟨-, -, hrun⟩ := h.stopped hover u hu
      rw [hrun]
      exact ⟨rfl, _, rfl⟩

theorem single (h : Goes s st own turns) : turns.Pairwise fun t u =>
    ∀ tag, ⟨.type, .ok tag⟩ ∈ t.own s → tag ≠ .array → t.succeeded s →
      (u.run s).exchanges = [] ∧ ∃ x, (u.run s).answer = some ⟨.error .ended, x⟩ := by
  induction h with
  | nil _ => exact .nil
  | short _ _ _ => exact List.pairwise_singleton _ _
  | @cons t own r x rest hm ht ha h ih =>
    refine .cons (fun u hu tag htag hne hs => ?_) ih
    cases ht with
    | decoded hled _ _ _ _ hrun =>
      obtain ⟨hr, rfl⟩ := hled.of_type htag hne
      cases hr
      rw [hrun] at ha
      cases ha
      exact after_single hne h u hu
    | short _ _ _ _ hrun =>
      rw [hrun] at ha
      cases ha
    | idle _ _ _ hrun | refused _ _ _ hrun | failed _ _ _ _ hrun =>
      simp [Turn.succeeded, hrun, Except.toBool] at hs

theorem notes (h : Goes s st own turns) (hst : st.terminal = none) :
    (turns.flatMap fun t => (t.run s).notes).countP Note.closes =
      if turns.any (·.failed s) then 1 else 0 := by
  induction h with
  | nil _ => rfl
  | short _ ht _ => simp [ht.notes hst]
  | @cons t own r x rest hm ht ha h ih =>
    have hterm := (ht.after hm ha).2.1
    simp only [List.flatMap_cons, List.countP_append, ht.notes hst, List.any_cons,
      Turn.failed_of_answer ha]
    cases r with
    | ok u => simp [ih hterm, Except.toBool]
    | error e =>
      have hrest : (rest.flatMap fun t => (t.run s).notes) = [] := by
        rw [List.flatMap_eq_nil_iff]
        intro u hu
        rw [(h.stopped hterm u hu).2.2]
      simp [hrest, Except.toBool]

theorem left (h : Goes s st own turns) {pre post : List (Turn σ)} {t : Turn σ} {n : Nat}
    {a : Except Error Unit} (hx : turns = pre ++ t :: post) (ha : ⟨.leave .array n, a⟩ ∈ t.own s) :
    (t.run s).exchanges = t.own s ∧ (t.own s).getLast? = some ⟨.leave .array n, a⟩ ∧
      ∀ u ∈ post, (u.run s).exchanges = [] := by
  have ht : Turned s t := h.turned t (by simp [hx])
  have hafter : ∀ e x, (t.run s).answer = some ⟨.error e, x⟩ → ∀ u ∈ post, (u.run s).exchanges = [] := by
    intro e x he u hu
    have hpair := h.stuck
    rw [hx, List.pairwise_append, List.pairwise_cons] at hpair
    rw [(hpair.2.1.1 u hu e x he).2.2]
  cases ht with
  | idle _ hown _ _ =>
    rw [hown] at ha
    cases ha
  | refused src hled _ hrun =>
    refine ⟨by rw [hrun], (hled.of_leave ha).1, hafter _ _ (by rw [hrun])⟩
  | failed hled _ _ _ _ | decoded hled _ _ _ _ _ | short hled _ _ _ _ =>
    obtain ⟨-, e, he⟩ := hled.of_leave ha
    cases he

theorem failure (h : Goes s st own turns) (hst : st.terminal = none) {pre post : List (Turn σ)}
    {t : Turn σ} {e : Ending Streaming Unit} (hx : turns = pre ++ t :: post)
    (ha : (t.run s).answer = some e) : e.dest.stream.failure? = none ↔
      (∀ u ∈ pre ++ [t], u.succeeded s) ∨ e.result = .error .ended := by
  induction h generalizing pre with
  | nil _ => simp at hx
  | @short u own _ _ hu =>
    obtain ⟨rfl, rfl, rfl⟩ : pre = [] ∧ u = t ∧ post = [] := by
      cases pre <;> simp_all
    rw [hu] at ha
    cases ha
  | @cons u own r x rest hm ht hu h ih =>
    have hterm : x.stream.terminal = Decoding.failure? r := (ht.after hm hu).2.1
    have hsucc : u.succeeded s = r.toBool := Turn.succeeded_of_answer hu
    cases pre with
    | nil =>
      obtain ⟨rfl, rfl⟩ := List.cons.inj hx
      rw [hu] at ha
      cases ha
      cases r with
      | ok v => simp [hsucc, failure?, hterm, Decoding.failure?, Except.toBool]
      | error e => simp [hsucc, failure?_of_terminal (e := e) hterm, Except.toBool]
    | cons v pre =>
      obtain ⟨rfl, rfl⟩ := List.cons.inj hx
      cases r with
      | ok v => simp [hsucc, ih hterm rfl, Except.toBool]
      | error e' =>
        obtain ⟨-, -, hrun⟩ := h.stopped hterm t (by simp)
        rw [hrun] at ha
        cases ha
        simp [hsucc, failure?_of_terminal (e := e') hterm, Except.toBool]

end Goes

/-- What a call asks is asked by the stream itself, and then to decode the element. -/
theorem Turned.parts {s : Setup} {t : Turn σ} (h : Turned s t) : match t.element s with
    | none => (t.run s).exchanges = t.own s ∧
        ∃ e st, (t.run s).answer = some ⟨.error e, st, t.request.dest⟩
    | some q => (t.run s).exchanges = t.own s ++ q.exchanges ∧
        (t.run s).answer.map (fun e => (e.result, e.dest.dest)) =
          q.answer.map fun e => (e.result.map fun _ => (), e.dest) := by
  cases h with
  | idle _ hown hel hrun =>
    rw [hel]
    exact ⟨by rw [hrun, hown], _, _, by rw [hrun]⟩
  | refused _ _ hel hrun =>
    rw [hel]
    exact ⟨by rw [hrun], _, _, by rw [hrun]⟩
  | failed _ hel hq _ hrun | decoded _ _ hel hq _ hrun | short _ hel hq _ hrun =>
    rw [hel]
    exact ⟨by rw [hrun], by rw [hrun, hq]; rfl⟩

/-- What holds of the calls of every session. -/
structure Orderly (s : Setup) (turns : List (Turn σ)) : Prop where
  /-- The calls are those of the stream, followed by those for the element, which decide how the call
  ends. -/
  parts : ∀ t ∈ turns, match t.element s with
    | none => (t.run s).exchanges = t.own s ∧
        ∃ e st, (t.run s).answer = some ⟨.error e, st, t.request.dest⟩
    | some q => (t.run s).exchanges = t.own s ++ q.exchanges ∧
        (t.run s).answer.map (fun e => (e.result, e.dest.dest)) =
          q.answer.map fun e => (e.result.map fun _ => (), e.dest)
  /-- The calls of the stream itself follow the outline. -/
  outline : turns ≠ [] → Outline (turns.flatMap (·.own s)) (turns.countP (·.succeeded s))
  /-- Leaving the array is the last call of all. -/
  left : ∀ pre t post n a, turns = pre ++ t :: post → ⟨.leave .array n, a⟩ ∈ t.own s →
    (t.run s).exchanges = t.own s ∧ (t.own s).getLast? = some ⟨.leave .array n, a⟩ ∧
      ∀ u ∈ post, (u.run s).exchanges = []
  /-- The number of elements is the number of calls that succeeded. -/
  count : ∀ pre t post, turns = pre ++ t :: post → t.stream.count = pre.countP (·.succeeded s) ∧
    ∀ e ∈ (t.run s).answer, e.dest.stream.count = (pre ++ [t]).countP (·.succeeded s)
  /-- After a failure every call fails with the same error, asks nothing, notes nothing and changes
  nothing. -/
  stuck : turns.Pairwise fun t u => ∀ e x, (t.run s).answer = some ⟨.error e, x⟩ →
    u.stream = x.stream ∧ (u.run s).exchanges = [] ∧ (u.run s).notes = [] ∧
      (u.run s).answer = some ⟨.error e, x.stream, u.request.dest⟩
  /-- One note says that the stream is over. -/
  notes : (turns.flatMap fun t => (t.run s).notes).countP Note.closes =
    if turns.any (·.failed s) then 1 else 0
  /-- After a value that is not an array, the stream ends without asking anything. -/
  single : turns.Pairwise fun t u => ∀ tag, ⟨.type, .ok tag⟩ ∈ t.own s → tag ≠ .array →
    t.succeeded s → (u.run s).exchanges = [] ∧ ∃ x, (u.run s).answer = some ⟨.error .ended, x⟩
  /-- The stream shows no failure as long as no call has failed, or if it ended naturally. -/
  failure : ∀ pre t post e, turns = pre ++ t :: post → (t.run s).answer = some e →
    (e.dest.stream.failure? = none ↔
      (∀ u ∈ pre ++ [t], u.succeeded s) ∨ e.result = .error .ended)

/-- **Every session is orderly**, whatever the source, the registry and the routine that takes over map
entries, and whatever types the elements are decoded as. -/
theorem session_orderly {s : Setup} (hs : s.schema.DecodesOne) {reg : Registry}
    (hr : reg.Reachable s.schema) (requests : List Request) (src : σ) :
    Orderly s (session s requests start src reg) := by
  have h : Goes s start [] (session s requests start src reg) :=
    session_goes hs requests hr.sound .start
  exact {
    parts := fun t ht => (h.turned t ht).parts
    outline := fun hne => by simpa [start] using h.outline hne
    left := fun pre t post n a hx ha => h.left hx ha
    count := fun pre t post hx => by simpa [start] using h.count hx
    stuck := h.stuck.imp fun hu e x hx => by
      obtain ⟨hst, -, hrun⟩ := hu e x hx
      rw [hrun]
      exact ⟨hst, rfl, rfl, rfl⟩
    notes := h.notes rfl
    single := h.single
    failure := fun pre t post e hx ha => h.failure rfl hx ha }

/-- A map that is decoded by hand and a text, out of an array that declares two elements, and two more
calls after them. -/
theorem session_orderly_mixed :
    let s := Setup.plain (Catalog.schema [])
    let src : Script := ⟨[.enter .array (some 2), .enter .map none, .next, .string "a".toUTF8, .value,
      .int 1, .stop, .close, .next, .string "b".toUTF8, .close]⟩
    let requests : List Request := [⟨9, .named "Pairs", .list []⟩, ⟨9, .text, .text ""⟩,
      ⟨9, .i64, .int 7⟩, ⟨9, .i64, .int 8⟩]
    let turns := session s requests start src (.empty true)
    s.schema.DecodesOne ∧ (Registry.empty true).Reachable s.schema ∧ Orderly s turns ∧
      turns.map (·.succeeded s) = [true, true, false, false] ∧
        (turns.flatMap (·.own s)).map (·.call) =
          [.type, .enter .array, .next .array 1, .leave .array 2] := by
  intro s src requests turns
  have hs : s.schema.DecodesOne := Catalog.schema_decodesOne []
  have hr : (Registry.empty true).Reachable s.schema := .empty true
  exact ⟨hs, hr, session_orderly hs hr requests src, by decide +kernel, by decide +kernel⟩

end Stream

end Decant
