import Decant.Proofs.Alignment
import Decant.Proofs.Turns

/-!
# Reading an array element by element

* `Stream.drain` — ask a stream for elements of one type until the first error.
* `Stream.Drained` — the elements that this gave, and the error it ended with.
* `Stream.drain_decode` — it makes the same calls as decoding a list of that type, gives the same items
  and ends with the same error, except where the source ends while the array itself is entered or left:
  the list is truncated then, and the stream ends naturally.

The loop that goes through a container and the stream that goes on from call to call are compared round
by round.
-/

namespace Decant

namespace Stream

open Decoding

variable {σ : Type} [TokenSource σ]

/-- Ask a stream for elements of a type, each decoded afresh, until the first error. The last number
bounds how many calls are made. -/
def drain (s : Setup) (t : Ty) (n : Nat) : Nat → Stream → σ → Registry → List (Turn σ)
  | 0, _, _, _ => []
  | k + 1, st, src, reg =>
    let u : Turn σ := ⟨⟨n, t, s.schema.initial t⟩, st, src, reg⟩
    u :: match (u.run s).answer with
      | some ⟨.ok _, x⟩ => drain s t n k x.stream (u.run s).source (u.run s).registry
      | _ => []

/-- Calls that gave elements, in order, and then failed. -/
inductive Drained (s : Setup) : List (Turn σ) → List Content → Error → Stream → Prop
  | last {u : Turn σ} {e : Error} {x : Streaming} (h : (u.run s).answer = some ⟨.error e, x⟩) :
      Drained s [u] [] e x.stream
  | next {u : Turn σ} {x : Streaming} {rest : List (Turn σ)} {xs : List Content} {e : Error}
      {st : Stream} (h : (u.run s).answer = some ⟨.ok (), x⟩) (hrest : Drained s rest xs e st) :
      Drained s (u :: rest) (x.dest :: xs) e st

/-- The source ended while the array itself was entered or left. -/
def Turn.cut (s : Setup) (u : Turn σ) : Prop :=
  u.element s = none ∧
    (⟨.enter .array, .error .ended⟩ ∈ u.own s ∨ ∃ n, ⟨.leave .array n, .error .ended⟩ ∈ u.own s)

/-! ## One round -/

section rounds

variable {i k : Nat} {length : Option Nat}

theorem lead_inside (d : Content) :
    lead ⟨⟨.array, i, length, none⟩, d⟩ = (advance ⟨⟨.array, i, length, none⟩, d⟩).bind fun l =>
      .done ⟨l.result.map fun _ => none, l.dest⟩ := by
  show (advance _).bind _ = _
  refine congrArg _ (funext fun e => ?_)
  obtain ⟨result, x⟩ := e
  cases result <;> rfl

variable {δ : Type} {body : Nat → Decoding δ Unit}

theorem walkOut_full (h : length.any (· ≤ i) = true) (d : δ) :
    walkOut .array length body (k + 1) i d = .ask (.leave .array i) fun (a : Except Error Unit) =>
      .done ⟨a.map fun _ => i, d⟩ := by
  unfold walkOut walkFrom
  rw [if_pos h, pure_bind]
  refine congrArg (Dialogue.ask (.leave .array i)) (funext fun a => ?_)
  cases a <;> rfl

theorem walkOut_declared (h : ¬ length.any (· ≤ i) = true)
    (hi : ¬ (length.isNone || i != 0) = true) (d : δ) :
    walkOut .array length body (k + 1) i d =
      (body i >>= fun _ => walkOut .array length body k (i + 1)) d := by
  rw [walkOut, walkFrom, if_neg h, goesOn, if_neg hi, pure_bind, if_pos rfl, bind_assoc]
  rfl

theorem walkOut_next (h : ¬ length.any (· ≤ i) = true) (hi : (length.isNone || i != 0) = true)
    (d : δ) : walkOut .array length body (k + 1) i d =
      .ask (.next .array i) fun (a : Except Error Unit) =>
        match a with
        | .ok _ => (body i >>= fun _ => walkOut .array length body k (i + 1)) d
        | .error .ended => .ask (.leave .array i) fun (a : Except Error Unit) =>
            .done ⟨a.map fun _ => i, d⟩
        | .error e => .done ⟨.error e, d⟩ := by
  rw [walkOut, walkFrom, if_neg h, goesOn, if_pos hi, bind_assoc]
  refine congrArg (Dialogue.ask (.next .array i)) (funext fun a => ?_)
  cases a with
  | ok a =>
    show (((if true = true then _ else _ : Decoding δ Nat) >>= _ : Decoding δ Nat)) d = _
    rw [if_pos rfl, bind_assoc]
    rfl
  | error e =>
    cases e with
    | ended =>
      refine congrArg (Dialogue.ask (.leave .array i)) (funext fun a => ?_)
      cases a <;> rfl
    | _ => rfl

/-- An item that could be decoded is appended. -/
theorem item_bind (s : Schema) (t : Ty) (f : Strategy) (g : Unit → Decoding (List Content) Nat)
    (acc : List Content) : (item s t f >>= g) acc = (f (s.initial t)).bind fun e =>
      match e.result with
      | .ok _ => g () (acc ++ [e.dest])
      | .error err => .done ⟨.error err, acc⟩ := by
  rw [bind_apply, item, bind_apply, fresh_apply, Dialogue.bind_bind, Dialogue.bind_bind]
  refine congrArg _ (funext fun e => ?_)
  obtain ⟨result, c⟩ := e
  cases result <;> rfl

end rounds

/-! ## All rounds -/

/-- What a list and a stream of its items have in common, once some items were decoded: the calls, and
either all items or the items before a failure, which are followed by the same error. -/
structure Matches (s : Setup) (acc : List Content) (count : Nat) (xs : List Exchange)
    (answer : Option (Ending (List Content) Nat)) (turns : List (Turn σ)) : Prop where
  exchanges : xs = turns.flatMap fun u => (u.run s).exchanges
  ok : ∀ m d, answer = some ⟨.ok m, d⟩ → ∃ items st, d = acc ++ items ∧
    Drained s turns items .ended st ∧ st.count = count + items.length ∧ st.terminal = some .ended
  error : ∀ e d, answer = some ⟨.error e, d⟩ → ∃ items e' st, Drained s turns items e' st ∧
    e'.truncate = e.truncate ∧ st.terminal = some e' ∧ (e' = .ended ↔ ∃ u ∈ turns, u.cut s)
  stuck : answer = none → ∀ items e st, ¬ Drained s turns items e st

section matching

variable {s : Setup} {acc : List Content} {count : Nat} {u : Turn σ} {xs ys : List Exchange} {src : σ}
  {reg : Registry} {x : Streaming} {notes : List Note}

/-- The array was left. -/
theorem matches_leave {m : Nat} {a : Except Error Unit} (hx : x.stream.terminal = some (leaveError a))
    (hc : x.stream.count = count) (hcut : u.cut s ↔ a = .error .ended)
    (hrun : u.run s = ⟨some ⟨.error (leaveError a), x⟩, src, reg, xs, notes⟩) :
    Matches s acc count xs (some ⟨a.map fun _ => m, acc⟩) [u] := by
  have hlast : Drained s [u] [] (leaveError a) x.stream := .last (by rw [hrun])
  refine ⟨by simp [hrun], ?_, ?_, by simp⟩
  · intro m' d hok
    cases a with
    | error e => cases hok
    | ok v =>
      cases hok
      exact ⟨[], x.stream, (List.append_nil acc).symm, hlast, hc, hx⟩
  · intro e d herr
    cases a with
    | ok v => cases herr
    | error e' =>
      cases herr
      exact ⟨[], _, x.stream, hlast, rfl, hx, by simp [hcut, leaveError]⟩

/-- The budget of steps ran out. -/
theorem matches_stuck (h : (u.run s).answer = none) :
    Matches s acc count (u.run s).exchanges none [u] := by
  refine ⟨by simp, by simp, by simp, ?_⟩
  rintro - items e st hdr
  cases hdr with
  | last hlast =>
    rw [h] at hlast
    cases hlast
  | next hnext =>
    rw [h] at hnext
    cases hnext

/-- Something failed with an error of the source or of an element. -/
theorem matches_fail {e e' : Error} (hx : x.stream.terminal = some e') (he : e'.truncate = e.truncate)
    (hcut : e' = .ended ↔ u.cut s)
    (hrun : u.run s = ⟨some ⟨.error e', x⟩, src, reg, xs, notes⟩) :
    Matches s acc count xs (some ⟨.error e, acc⟩) [u] := by
  refine ⟨by simp [hrun], ?_, ?_, by simp⟩
  · intro m d hok
    cases hok
  · intro e d herr
    cases herr
    exact ⟨[], e', x.stream, .last (by rw [hrun]), he, hx, by simp [hcut]⟩

/-- An element was decoded, and what follows matches. -/
theorem matches_cons {answer : Option (Ending (List Content) Nat)} {rest : List (Turn σ)}
    (hrun : u.run s = ⟨some ⟨.ok (), x⟩, src, reg, xs, notes⟩) (hcut : ¬ u.cut s)
    (h : Matches s (acc ++ [x.dest]) (count + 1) ys answer rest) :
    Matches s acc count (xs ++ ys) answer (u :: rest) := by
  have ha : (u.run s).answer = some ⟨.ok (), x⟩ := by rw [hrun]
  refine ⟨by simp [hrun, h.exchanges], ?_, ?_, ?_⟩
  · intro m d hok
    obtain ⟨items, st, hd, hdr, hcount, hterm⟩ := h.ok m d hok
    refine ⟨x.dest :: items, st, by simp [hd], .next ha hdr, ?_, hterm⟩
    rw [hcount, List.length_cons]
    omega
  · intro e d herr
    obtain ⟨items, e', st, hdr, he, hterm, hiff⟩ := h.error e d herr
    refine ⟨x.dest :: items, e', st, .next ha hdr, he, hterm, ?_⟩
    simp [hiff, hcut]
  · intro hnone items e st hdr
    cases hdr with
    | last hlast =>
      rw [ha] at hlast
      cases hlast
    | next _ hrest => exact h.stuck hnone _ _ _ hrest

end matching

/-- Decoding an element through the registry shows what decoding it without one does. -/
theorem call_run (s : Setup) (n : Nat) (t : Ty) (d : Content) (src : σ) {reg : Registry}
    (hr : reg.Sound s.schema) (plain : Registry) :
    let q := (s.direct n t d).run s.schema src plain
    let p := (truncated (s.call n t) d).run s.schema src reg
    p.exchanges = q.exchanges ∧ p.source = q.source ∧
      p.answer = q.answer.map fun e => ⟨e.result.mapError Error.truncate, e.dest⟩ := by
  intro q p
  have hsame : Same s.schema False (s.call n t) (s.direct n t) := s.call_same n t
  have ha := (hsame d).alike src hr plain
  have hp := Dialogue.run_map s.schema (s.call n t d)
    (fun e => (⟨e.result.mapError Error.truncate, e.dest⟩ : Ending Content Tag)) src reg
  change p = _ at hp
  rw [hp]
  refine ⟨ha.exchanges, ha.source, ?_⟩
  rw [← ha.answer]

theorem Turn.cut_iff {s : Setup} {u : Turn σ} (hu : u.stream.terminal = none) {e : Error}
    {x : Streaming} {src : σ} {own : List Exchange}
    (hl : u.lead s = ⟨some ⟨.error e, x⟩, src, u.registry, own, []⟩) :
    u.cut s ↔ ⟨.enter .array, .error .ended⟩ ∈ own ∨ ∃ n, ⟨.leave .array n, .error .ended⟩ ∈ own := by
  simp [Turn.cut, Turn.element, Turn.own, hu, hl]

/-- A call that leaves the array is cut off if the source ends then. -/
theorem Turn.cut_leave (own : List Exchange) {s : Setup} {u : Turn σ}
    (hu : u.stream.terminal = none) {e : Error} {x : Streaming} {src : σ} {i : Nat}
    {a : Except Error Unit}
    (hl : u.lead s = ⟨some ⟨.error e, x⟩, src, u.registry, own ++ [⟨.leave .array i, a⟩], []⟩)
    (hown : ∀ x ∈ own, x.call = .next .array i) : u.cut s ↔ a = .error .ended := by
  rw [Turn.cut_iff hu hl]
  constructor
  · rintro (hm | ⟨n, hm⟩)
    · rcases List.mem_append.1 hm with hm | hm
      · cases hown _ hm
      · cases List.mem_singleton.1 hm
    · rcases List.mem_append.1 hm with hm | hm
      · cases hown _ hm
      · cases List.mem_singleton.1 hm
        rfl
  · rintro rfl
    exact .inr ⟨i, List.mem_append_right _ List.mem_cons_self⟩

theorem Turn.not_cut {s : Setup} {u : Turn σ} (hu : u.stream.terminal = none) {served : Option Tag}
    {x : Streaming} (hl : (u.lead s).answer = some ⟨.ok served, x⟩) : ¬ u.cut s := by
  simp [Turn.cut, Turn.element, hu, hl]

/-- A stream that fails is not asked again. -/
theorem drain_failed {s : Setup} {t : Ty} {n k : Nat} {st : Stream} {src : σ} {reg : Registry}
    {e : Error} {x : Streaming}
    (h : ((⟨⟨n, t, s.schema.initial t⟩, st, src, reg⟩ : Turn σ).run s).answer =
      some ⟨.error e, x⟩) :
    drain s t n (k + 1) st src reg = [⟨⟨n, t, s.schema.initial t⟩, st, src, reg⟩] := by
  simp only [drain, h]

section rounds

variable {s : Setup} {t : Ty} {n i k : Nat} {length : Option Nat} {acc : List Content} {src : σ}
  {reg plain : Registry}

/-- What decoding a list does from item `i` on. -/
def itemsFrom (s : Setup) (t : Ty) (n : Nat) (length : Option Nat) (k i : Nat) :
    Decoding (List Content) Nat :=
  walkOut .array length (fun _ => item s.schema t (s.direct n t)) k i

/-- A dialogue of a list, led after some calls, goes together with a stream. -/
def Together (s : Setup) (acc : List Content) (count : Nat) (own : List Exchange)
    (d : Dialogue (Ending (List Content) Nat)) (src : σ) (plain : Registry) (turns : List (Turn σ)) :
    Prop :=
  let w := d.run s.schema src plain
  Matches s acc count (own ++ w.exchanges) w.answer turns

/-- A round in which the stream gets to an element, after some calls of its own. -/
theorem round_element {own : List Exchange} {src' : σ} (hr : reg.Sound s.schema)
    (ih : ∀ (acc : List Content) (src : σ) (reg plain : Registry), reg.Sound s.schema →
      Together s acc (i + 1) [] (itemsFrom s t n length k (i + 1) acc) src plain
        (drain s t n k ⟨.array, i + 1, length, none⟩ src reg))
    (hlead : (lead ⟨⟨.array, i, length, none⟩, s.schema.initial t⟩).run s.schema src reg =
      ⟨some ⟨.ok none, ⟨.array, i, length, none⟩, s.schema.initial t⟩, src', reg, own, []⟩) :
    Together s acc i own
      ((item s.schema t (s.direct n t) >>= fun _ => itemsFrom s t n length k (i + 1)) acc) src' plain
      (drain s t n (k + 1) ⟨.array, i, length, none⟩ src reg) := by
  obtain ⟨hexch, hsrc, hans⟩ := call_run s n t (s.schema.initial t) src' hr plain
  have hsound := (truncated (s.call n t) (s.schema.initial t)).run_sound src' hr
  let u : Turn σ := ⟨⟨n, t, s.schema.initial t⟩, ⟨.array, i, length, none⟩, src, reg⟩
  have hcut : ¬ u.cut s := Turn.not_cut rfl (by rw [Turn.lead, hlead])
  have hrun := Turn.run_led (s := s) (u := u) rfl hlead
  rw [item_bind, Together, Dialogue.run_bind]
  show Matches s acc i _ _ (u :: match (u.run s).answer with
    | some ⟨.ok _, x⟩ => drain s t n k x.stream (u.run s).source (u.run s).registry
    | _ => [])
  generalize (s.direct n t (s.schema.initial t)).run s.schema src' plain = q at *
  change u.run s = (Dialogue.andRun s.schema
    ((truncated (s.call n t) (s.schema.initial t)).run s.schema src' reg) _).after own at hrun
  generalize (truncated (s.call n t) (s.schema.initial t)).run s.schema src' reg = p at *
  obtain ⟨answer, qsrc, qreg, qxs, qnotes⟩ := q
  obtain ⟨panswer, psrc, preg, pxs, pnotes⟩ := p
  simp only at hexch hsrc hans hsound
  subst hexch hsrc hans
  cases answer with
  | none =>
    have hstuck : u.run s = ⟨none, psrc, preg, own ++ pxs, pnotes⟩ := hrun
    have hm : Matches s acc i (u.run s).exchanges none [u] := matches_stuck (by rw [hstuck])
    rw [hstuck] at hm ⊢
    exact hm
  | some e =>
    obtain ⟨result, c⟩ := e
    cases result with
    | error e =>
      have hfailed : u.run s = ⟨some ⟨.error e.truncate, stopped e.truncate u.stream, c⟩, psrc, preg,
          own ++ (pxs ++ []), pnotes ++ [closing e.truncate i]⟩ := hrun
      have hne : e.truncate = .ended ↔ u.cut s := by simp [hcut, e.truncate_ne_ended]
      have hm : Matches s acc i (own ++ (pxs ++ [])) (some ⟨.error e, acc⟩) [u] :=
        matches_fail rfl e.truncate_truncate hne hfailed
      rw [hfailed]
      exact hm
    | ok tag =>
      have hdecoded : u.run s = ⟨some ⟨.ok (), ⟨.array, i + 1, length, none⟩, c⟩, psrc, preg,
          own ++ (pxs ++ []), pnotes ++ []⟩ := hrun
      have hm := matches_cons hdecoded hcut (ih (acc ++ [c]) psrc preg qreg hsound)
      rw [hdecoded]
      simpa [Dialogue.andRun] using hm

/-- **Going through an array and asking a stream for its elements**, from any element on, make the same
calls and come to the same items and the same error. -/
theorem rounds_together (hr : reg.Sound s.schema) :
    Together s acc i [] (itemsFrom s t n length k i acc) src plain
      (drain s t n k ⟨.array, i, length, none⟩ src reg) := by
  induction k generalizing i acc src reg plain with
  | zero =>
    refine ⟨rfl, ?_, ?_, ?_⟩
    · rintro m d ⟨⟩
    · rintro e d ⟨⟩
    · rintro - items e st ⟨⟩
  | succ k ih =>
    let u : Turn σ := ⟨⟨n, t, s.schema.initial t⟩, ⟨.array, i, length, none⟩, src, reg⟩
    have hu : u.stream.terminal = none := rfl
    have hlead : u.lead s = ((advance ⟨u.stream, s.schema.initial t⟩).bind fun l =>
        .done ⟨l.result.map fun _ => none, l.dest⟩).run s.schema src reg := by
      unfold Turn.lead
      rw [lead_inside]
    unfold Together itemsFrom
    by_cases h : length.any (· ≤ i) = true
    · rw [advance_full h] at hlead
      have hrun := Turn.run_refused hu hlead
      have hcut := Turn.cut_leave [] hu hlead (by simp)
      rw [walkOut_full h, drain_failed (by rw [hrun])]
      exact matches_leave rfl rfl hcut hrun
    · by_cases hi : (length.isNone || i != 0) = true
      · rw [advance_next h hi] at hlead
        rw [walkOut_next h hi]
        simp only [Dialogue.bind, Dialogue.run, List.nil_append] at hlead ⊢
        generalize TokenSource.answer (.next .array i) src = p at hlead ⊢
        obtain ⟨a, src'⟩ := p
        cases a with
        | ok v => exact round_element hr (fun _ _ _ _ h => ih h) hlead
        | error e =>
          by_cases he : e = .ended
          · subst he
            have hrun := Turn.run_refused hu hlead
            have hcut := Turn.cut_leave [_] hu hlead (by simp)
            rw [drain_failed (by rw [hrun])]
            exact matches_leave rfl rfl hcut hrun
          · have hlead : u.lead s = ⟨some ⟨.error e, u.stream, s.schema.initial t⟩, src', reg,
                [⟨.next .array i, .error e⟩], []⟩ := by
              cases e with
              | ended => exact absurd rfl he
              | _ => exact hlead
            have hrun := Turn.run_refused hu hlead
            have hcut := Turn.cut_iff hu hlead
            have hm : Matches s acc i [⟨.next .array i, .error e⟩] (some ⟨.error e, acc⟩) [u] :=
              matches_fail rfl rfl (by simp [hcut, he]) hrun
            rw [drain_failed (by rw [hrun])]
            cases e with
            | ended => exact absurd rfl he
            | _ => exact hm
      · rw [advance_declared h hi] at hlead
        rw [walkOut_declared h hi]
        exact round_element hr (fun _ _ _ _ h => ih h) hlead

/-- The first call of a stream goes as the call of a stream inside the array, after the calls that
enter it. -/
theorem drain_start (s : Setup) (t : Ty) (n k : Nat) (reg : Registry) {src₁ src₂ : σ}
    (htype : TokenSource.answer .type src = (.ok .array, src₁))
    (henter : TokenSource.answer (.enter .array) src₁ = (.ok length, src₂)) :
    ∃ u v rest, drain s t n (k + 1) start src reg = u :: rest ∧
      drain s t n (k + 1) ⟨.array, 0, length, none⟩ src₂ reg = v :: rest ∧
      u.run s = (v.run s).after [⟨.type, .ok .array⟩, ⟨.enter .array, .ok length⟩] ∧
      (u.cut s ↔ v.cut s) := by
  let u : Turn σ := ⟨⟨n, t, s.schema.initial t⟩, start, src, reg⟩
  let v : Turn σ := ⟨⟨n, t, s.schema.initial t⟩, ⟨.array, 0, length, none⟩, src₂, reg⟩
  have hu : u.stream.terminal = none := rfl
  have hv : v.stream.terminal = none := rfl
  have hlead : u.lead s =
      (v.lead s).after [⟨.type, .ok .array⟩, ⟨.enter .array, .ok length⟩] := by
    unfold Turn.lead
    rw [lead_start]
    simp only [Dialogue.run, u, htype, if_true, henter]
    rfl
  have hrun : u.run s = (v.run s).after [⟨.type, .ok .array⟩, ⟨.enter .array, .ok length⟩] := by
    rw [Turn.run_eq hu, Turn.run_eq hv, hlead, Dialogue.andRun_after]
  have hmatch : drain s t n (k + 1) start src reg = u :: match (v.run s).answer with
      | some ⟨.ok _, x⟩ => drain s t n k x.stream (v.run s).source (v.run s).registry
      | _ => [] := by
    show (u :: match (u.run s).answer with
      | some ⟨.ok _, x⟩ => drain s t n k x.stream (u.run s).source (u.run s).registry
      | _ => []) = _
    rw [hrun]
    rfl
  refine ⟨u, v, _, hmatch, rfl, hrun, ?_⟩
  have hanswer : (u.lead s).answer = (v.lead s).answer := by rw [hlead]; rfl
  have hexch : (u.lead s).exchanges =
      ⟨.type, .ok .array⟩ :: ⟨.enter .array, .ok length⟩ :: (v.lead s).exchanges := by rw [hlead]; rfl
  have helement : u.element s = none ↔ v.element s = none := by
    simp only [Turn.element, hu, hv, hanswer]
    rcases (v.lead s).answer with _ | ⟨⟨_⟩ | ⟨_⟩, _⟩ <;> simp
  simp [Turn.cut, helement, Turn.own, hu, hv, hexch]

/-- What matches inside the array matches from its start. -/
theorem Matches.started (own : List Exchange) {u v : Turn σ} {xs : List Exchange}
    {rest : List (Turn σ)} {answer : Option (Ending (List Content) Nat)} {acc : List Content} {count : Nat}
    (h : Matches s acc count xs answer (v :: rest)) (hrun : u.run s = (v.run s).after own)
    (hcut : u.cut s ↔ v.cut s) : Matches s acc count (own ++ xs) answer (u :: rest) := by
  have ha : (u.run s).answer = (v.run s).answer := by rw [hrun]; rfl
  have hdr : ∀ {items e st}, Drained s (v :: rest) items e st ↔ Drained s (u :: rest) items e st := by
    intro items e st
    constructor
    · rintro (hlast | ⟨hnext, hrest⟩)
      · exact .last (ha.trans hlast)
      · exact .next (ha.trans hnext) hrest
    · rintro (hlast | ⟨hnext, hrest⟩)
      · exact .last (ha.symm.trans hlast)
      · exact .next (ha.symm.trans hnext) hrest
  refine ⟨by simp [h.exchanges, hrun, Run.after], ?_, ?_, ?_⟩
  · simpa only [hdr] using h.ok
  · simpa only [hdr, List.mem_cons, exists_eq_or_imp, hcut] using h.error
  · simpa only [hdr] using h.stuck

theorem walk_array {δ : Type} {body : Nat → Decoding δ Unit} (d : δ) :
    walk .array k .array body d = .ask (.enter .array) fun (a : Except Error (Option Nat)) =>
      match a with
      | .error e => .done ⟨.error e, d⟩
      | .ok length => walkOut .array length body k 0 d := by
  refine (congrFun (walk_eq (c := .array) k) d).trans ?_
  refine congrArg (Dialogue.ask (.enter .array)) (funext fun (a : Except Error (Option Nat)) => ?_)
  cases a <;> rfl

/-- Going through an array of a list, once its tag was observed, goes together with a stream. -/
theorem walk_together (hr : reg.Sound s.schema) {src₁ : σ}
    (htype : TokenSource.answer .type src = (.ok .array, src₁)) :
    Together s [] 0 [⟨.type, .ok .array⟩]
      (walk .array (k + 1) .array (fun _ => item s.schema t (s.direct n t)) []) src₁ plain
      (drain s t n (k + 1) start src reg) := by
  unfold Together
  rw [walk_array]
  simp only [Dialogue.run]
  generalize henter : TokenSource.answer (.enter .array) src₁ = p
  obtain ⟨(a : Except Error (Option Nat)), src₂⟩ := p
  cases a with
  | error e =>
    let u : Turn σ := ⟨⟨n, t, s.schema.initial t⟩, start, src, reg⟩
    have hlead : u.lead s = ⟨some ⟨.error e, ⟨.array, 0, none, none⟩, s.schema.initial t⟩, src₂, reg,
        [⟨.type, .ok .array⟩, ⟨.enter .array, .error e⟩], []⟩ := by
      unfold Turn.lead
      rw [lead_start]
      simp only [Dialogue.run, u, htype, if_true, henter]
      rfl
    have hrun := Turn.run_refused rfl hlead
    have hcut : e = .ended ↔ u.cut s := by
      rw [Turn.cut_iff rfl hlead]
      constructor
      · rintro rfl
        exact .inl (by simp)
      · rintro (hm | ⟨m, hm⟩)
        · simpa [eq_comm] using hm
        · simp at hm
    rw [drain_failed (by rw [hrun])]
    have hm : Matches s [] 0 [⟨.type, .ok .array⟩, ⟨.enter .array, .error e⟩] (some ⟨.error e, []⟩) [u] :=
      matches_fail rfl rfl hcut hrun
    exact hm
  | ok length =>
    obtain ⟨u, v, rest, hu, hv, hrun, hcut⟩ := drain_start s t n k reg htype henter
    have h : Together s [] 0 [] (itemsFrom s t n length (k + 1) 0 []) src₂ plain
        (drain s t n (k + 1) ⟨.array, 0, length, none⟩ src₂ reg) := rounds_together hr
    rw [hv] at h
    rw [hu]
    exact h.started [_, _] hrun hcut

end rounds

/-! ## Whole lists -/

/-- How decoding a list ends, given how going through its array ended. -/
def listed (dest : Content) (w : Ending (List Content) Nat) : Ending Content Unit :=
  match w.result with
  | .ok _ => ⟨.ok (), .list w.dest⟩
  | .error e => ⟨.error e.truncate, dest⟩

/-- Decoding a list of anything but bytes asks for a type and goes through an array. -/
theorem decodeDirect_list (s : Setup) {t : Ty} (ht : t ≠ .u8) (n : Nat) (dest : Content) :
    s.decodeDirect (n + 1) (.list t) dest = .ask .type fun (a : Except Error Tag) =>
      match a with
      | .error e => .done ⟨.error e.truncate, dest⟩
      | .ok tag => (walk .array n tag (fun _ => item s.schema t (s.direct n t)) []).bind fun w =>
          .done (listed dest w) := by
  have hplan : s.schema.plan (.list t) = .list t := if_neg ht
  have hdirect : s.direct (n + 1) (.list t) =
      list s.schema (fun u => pure (s.direct n u)) n t := by
    rw [Setup.direct, hplan]
    rfl
  unfold Setup.decodeDirect
  rw [hdirect, list, pure_bind]
  refine congrArg (Dialogue.ask .type) (funext fun (a : Except Error Tag) => ?_)
  cases a with
  | error e => rfl
  | ok tag =>
    show Dialogue.bind (Dialogue.bind ((fresh [] _ >>= _ : Strategy) dest) _) _ = _
    rw [bind_apply, fresh_apply, Dialogue.bind_bind, Dialogue.bind_bind, Dialogue.bind_bind]
    refine congrArg _ (funext fun e => ?_)
    obtain ⟨result, items⟩ := e
    cases result <;> rfl

theorem listed_ok {dest d : Content} {w : Option (Ending (List Content) Nat)}
    (h : w.map (listed dest) = some ⟨.ok (), d⟩) : ∃ m items, w = some ⟨.ok m, items⟩ ∧ d = .list items := by
  obtain ⟨⟨result, items⟩, hw, hd⟩ := Option.map_eq_some_iff.1 h
  cases result with
  | error e => cases hd
  | ok m =>
    cases hd
    exact ⟨m, items, hw, rfl⟩

theorem listed_error {dest d : Content} {e : Error} {w : Option (Ending (List Content) Nat)}
    (h : w.map (listed dest) = some ⟨.error e, d⟩) :
    ∃ e₀ items, w = some ⟨.error e₀, items⟩ ∧ e = e₀.truncate := by
  obtain ⟨⟨result, items⟩, hw, hd⟩ := Option.map_eq_some_iff.1 h
  cases result with
  | ok m => cases hd
  | error e₀ =>
    cases hd
    exact ⟨e₀, items, hw, rfl⟩

/-- Decoding a list whose array is announced goes as going through the array. -/
theorem decode_list_run (s : Setup) {t : Ty} (ht : t ≠ .u8) {reg : Registry}
    (hr : reg.Reachable s.schema) (n : Nat) (dest : Content) (src : σ)
    (htype : (TokenSource.answer .type src).1 = .ok .array) :
    let r := (s.decode (n + 1) (.list t) dest).run s.schema src reg
    let w := (walk .array n .array (fun _ => item s.schema t (s.direct n t)) []).run s.schema
      (TokenSource.answer .type src).2 (.empty false)
    r.exchanges = ⟨.type, .ok .array⟩ :: w.exchanges ∧ r.answer = w.answer.map (listed dest) := by
  intro r w
  have hlist : ((s.decodeDirect (n + 1) (.list t) dest).run s.schema src (.empty false)) =
      (Dialogue.andRun s.schema w fun e => .done (listed dest e)).after [⟨.type, .ok .array⟩] := by
    rw [decodeDirect_list s ht]
    simp only [Dialogue.run, htype, Dialogue.run_bind]
    rfl
  have halike := s.decode_alike_direct hr.sound (n + 1) (.list t) dest src
  rw [hlist] at halike
  constructor
  · rw [halike.exchanges]
    cases h : w.answer <;> simp [Dialogue.andRun, Run.after, Dialogue.run, h]
  · rw [halike.answer]
    cases h : w.answer <;> simp [Dialogue.andRun, Run.after, Dialogue.run, h]

/-- **Streaming an array is decoding it whole.** Where the source announces an array, asking a stream for
elements of a type until the first error makes the calls that decoding a list of that type makes. If the
list is decoded, the stream gave its items in order and then ended. If decoding it fails, the stream gave
some elements and then failed with the same error, unless the source ended while the array itself was
entered or left: the list is truncated then, and the stream ended. If decoding the list does not come to
an end, then neither does the stream. -/
theorem drain_decode {s : Setup} {t : Ty} (ht : t ≠ .u8) {reg reg' : Registry}
    (hr : reg.Reachable s.schema) (hr' : reg'.Reachable s.schema) (n : Nat) (dest : Content) (src : σ)
    (htype : (TokenSource.answer .type src).1 = .ok .array) :
    let r := (s.decode (n + 2) (.list t) dest).run s.schema src reg
    let turns := drain s t (n + 1) (n + 1) start src reg'
    r.exchanges = turns.flatMap (fun u => (u.run s).exchanges) ∧
      (∀ d, r.answer = some ⟨.ok (), d⟩ → ∃ items st, d = .list items ∧
        Drained s turns items .ended st ∧ st.count = items.length ∧ st.failure? = none) ∧
      (∀ e d, r.answer = some ⟨.error e, d⟩ → ∃ items e' st, Drained s turns items e' st ∧
        ((∃ u ∈ turns, u.cut s) → e = .truncated ∧ e' = .ended ∧ st.failure? = none) ∧
        ((¬ ∃ u ∈ turns, u.cut s) → e' = e ∧ st.failure? = some e)) ∧
      (r.answer = none → ∀ items e st, ¬ Drained s turns items e st) := by
  intro r turns
  let w := (walk .array (n + 1) .array (fun _ => item s.schema t (s.direct (n + 1) t)) []).run s.schema
    (TokenSource.answer .type src).2 (.empty false)
  have hm : Matches s [] 0 (⟨.type, .ok .array⟩ :: w.exchanges) w.answer turns :=
    walk_together hr'.sound (Prod.ext htype rfl)
  obtain ⟨hexch, hanswer⟩ := decode_list_run s ht hr (n + 1) dest src htype
  refine ⟨hexch.trans hm.exchanges, ?_, ?_, ?_⟩
  · intro d hd
    obtain ⟨m, items, hw, rfl⟩ := listed_ok (hanswer.symm.trans hd)
    obtain ⟨items', st, rfl, hdr, hcount, hterm⟩ := hm.ok m items hw
    refine ⟨_, st, rfl, by simpa using hdr, by simpa using hcount, ?_⟩
    rw [failure?_of_terminal hterm, if_pos rfl]
  · intro e d hd
    obtain ⟨e₀, items, hw, rfl⟩ := listed_error (hanswer.symm.trans hd)
    obtain ⟨items', e', st, hdr, he, hterm, hcut⟩ := hm.error e₀ items hw
    have hfailure := failure?_of_terminal hterm
    refine ⟨items', e', st, hdr, ?_, ?_⟩
    · intro h
      obtain rfl := hcut.2 h
      rw [if_pos rfl] at hfailure
      exact ⟨he.symm, rfl, hfailure⟩
    · intro h
      have hne : e' ≠ .ended := fun hended => h (hcut.1 hended)
      have hsame : e' = e₀.truncate := by
        rw [← he, Error.truncate_of_ne hne]
      rw [if_neg hne, hsame] at hfailure
      exact ⟨hsame, hfailure⟩
  · intro hnone
    exact hm.stuck (Option.map_eq_none_iff.1 (hanswer.symm.trans hnone))

/-- Two numbers out of an array whose length is not declared. -/
theorem drain_decode_numbers :
    let s := Setup.plain (Catalog.schema [])
    let src : Script := ⟨[.enter .array none, .next, .int 1, .next, .int 2, .stop, .close]⟩
    let r := (s.decode 5 (.list .i64) (.list [])).run s.schema src (.empty false)
    let turns := drain s .i64 4 4 start src (.empty true)
    Ty.i64 ≠ .u8 ∧ (Registry.empty false).Reachable s.schema ∧ (Registry.empty true).Reachable s.schema ∧
      (TokenSource.answer .type src).1 = .ok .array ∧
      r.answer = some ⟨.ok (), .list [.int 1, .int 2]⟩ ∧
      r.exchanges = turns.flatMap (fun u => (u.run s).exchanges) ∧
      ∃ st, Drained s turns [.int 1, .int 2] .ended st ∧ st.count = 2 ∧ st.failure? = none := by
  intro s src r turns
  have hu8 : Ty.i64 ≠ .u8 := by decide
  have hr : (Registry.empty false).Reachable s.schema := .empty false
  have hr' : (Registry.empty true).Reachable s.schema := .empty true
  have htype : (TokenSource.answer .type src).1 = .ok .array := rfl
  obtain ⟨hexch, hok, -, -⟩ := drain_decode (s := s) hu8 hr hr' 3 (.list []) src htype
  have hanswer : r.answer = some ⟨.ok (), .list [.int 1, .int 2]⟩ := by rfl
  obtain ⟨items, st, hitems, hdr, hcount, hfailure⟩ := hok _ hanswer
  cases hitems
  exact ⟨hu8, hr, hr', htype, hanswer, hexch, st, hdr, hcount, hfailure⟩

end Stream

end Decant
