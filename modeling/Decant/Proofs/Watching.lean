import Decant.Proofs.FailFast

/-!
# Watching for end signals

* `Dialogue.story` — what happens while a dialogue is led: its calls, and the end signals that are
  marked as raised by hand.
* `Dialogue.Stops.story` — after a failure among these events nothing is asked any more.
* `Decoding.watched`, `Decoding.story_watched` — a decoding with a mark at its end, exactly if it ends with
  an end signal.
* `Setup.watched` — the strategy of a type with marks put where an end signal leaves a value, a
  callback, or the routine that takes over the entries of maps.
* `Setup.watched_same`, `Setup.watched_failFast` — it goes as the type does, and fails fast.
-/

namespace Decant

/-! ## What happens while a dialogue is led -/

/-- What happens while a dialogue is led. -/
inductive Event where
  | asked (x : Exchange)
  /-- An end signal was raised. -/
  | raised

namespace Event

/-- The error of an event, unless it is a call that went well, or said that a container holds nothing
more. -/
def failure? : Event → Option Error
  | asked x => x.failure?
  | raised => some .ended

def exchange? : Event → Option Exchange
  | asked x => some x
  | raised => none

/-- The calls among some events. -/
def calls (events : List Event) : List Exchange := events.filterMap exchange?

end Event

namespace Dialogue

variable {σ α β : Type} [TokenSource σ]

/-- What happens while a dialogue is led that asks for compiled types only by `Dialogue.raising`. -/
def story (s : Schema) : Dialogue α → σ → Registry → List Event
  | done _, _, _ | exhausted, _, _ => []
  | ask c next, src, reg =>
    let (a, src) := TokenSource.answer c src
    .asked ⟨c, a⟩ :: (next a).story s src reg
  | resolve t next, src, reg =>
    let (p, reg) := reg.resolve s t
    .raised :: (next p).story s src reg
  | note _ rest, src, reg => rest.story s src reg

@[simp] theorem story_raising (s : Schema) (rest : Dialogue α) (src : σ) (reg : Registry) :
    rest.raising.story s src reg = .raised :: rest.story s src (reg.resolve s .dynamic).2 := rfl

theorem calls_story (s : Schema) (d : Dialogue α) (src : σ) (reg : Registry) :
    Event.calls (d.story s src reg) = (d.run s src reg).exchanges := by
  induction d generalizing src reg with
  | done a => rfl
  | exhausted => rfl
  | ask c next ih => exact congrArg (_ :: ·) (ih _ _ _)
  | resolve t next ih => exact ih _ _ _
  | note n rest ih => exact ih _ _

theorem story_bind (s : Schema) (d : Dialogue α) (f : α → Dialogue β) (src : σ) (reg : Registry) :
    (d.bind f).story s src reg = d.story s src reg ++ (d.run s src reg).answer.elim [] fun a =>
      (f a).story s (d.run s src reg).source (d.run s src reg).registry := by
  induction d generalizing src reg with
  | done a => rfl
  | exhausted => rfl
  | ask c next ih => exact congrArg (_ :: ·) (ih _ _ _)
  | resolve t next ih => exact congrArg (_ :: ·) (ih _ _ _)
  | note n rest ih => exact ih _ _

variable {Q : Option Error → α → Prop} {d : Dialogue α} {e : Error} {pre post : List Event} {x : Event}

theorem Closes.story (h : d.Closes Q e) (s : Schema) (src : σ) (reg : Registry) {err : Error}
    (hx : d.story s src reg = pre ++ x :: post) (he : x.failure? = some err) :
    ∃ a, (d.run s src reg).answer = some a ∧ Q (some err) a := by
  induction h generalizing reg pre with
  | done h => simp [Dialogue.story] at hx
  | raised _ hraised ih _ =>
    cases pre with
    | nil =>
      obtain ⟨rfl, -⟩ := List.cons.inj hx
      cases he
      exact (hraised.run s src _).2
    | cons y pre => exact ih _ (List.cons.inj hx).2

/-- After a failure nothing is asked any more, and the result is in keeping with it. -/
theorem Stops.story (h : d.Stops Q) (s : Schema) (src : σ) (reg : Registry) {err : Error}
    (hx : d.story s src reg = pre ++ x :: post) (he : x.failure? = some err) :
    Event.calls post = [] ∧ ∃ a, (d.run s src reg).answer = some a ∧ Q (some err) a := by
  -- Once a dialogue only closes, it makes no calls, so there are none behind any of its events.
  have hclosed : ∀ {d : Dialogue α} {e : Error} {src : σ} {reg : Registry} {pre : List Event},
      d.Closes Q e → d.story s src reg = pre ++ x :: post → Event.calls post = [] := by
    intro d e src reg pre h hx
    have hnone : Event.calls (d.story s src reg) = [] := (calls_story ..).trans (h.run s src reg).1
    rw [hx, Event.calls, List.filterMap_append, List.append_eq_nil_iff] at hnone
    have hrest : Event.calls (x :: post) = [] := hnone.2
    cases x with
    | asked y => cases hrest
    | raised => exact hrest
  induction h generalizing src pre with
  | done h => simp [Dialogue.story] at hx
  | exhausted => simp [Dialogue.story] at hx
  | note n _ ih => exact ih src hx
  | @raised rest h =>
    have hc : rest.raising.Closes Q .ended := .raised h h
    exact ⟨hclosed hc hx, hc.story s src reg hx he⟩
  | @ask c next hgo hstop ih =>
    simp only [Dialogue.story, Dialogue.run] at hx ⊢
    generalize TokenSource.answer c src = p at hx
    obtain ⟨a, src⟩ := p
    cases hfail : Exchange.failure? ⟨c, a⟩ with
    | none =>
      cases pre with
      | nil =>
        obtain ⟨rfl, -⟩ := List.cons.inj hx
        cases hfail.symm.trans he
      | cons y pre => exact ih a hfail src (List.cons.inj hx).2
    | some e =>
      have hc := hstop a e hfail
      cases pre with
      | nil =>
        obtain ⟨rfl, rfl⟩ := List.cons.inj hx
        cases hfail.symm.trans he
        exact ⟨(calls_story ..).trans (hc.run s src reg).1, (hc.run s src reg).2⟩
      | cons y pre =>
        have hx := (List.cons.inj hx).2
        exact ⟨hclosed hc hx, hc.story s src reg hx he⟩

end Dialogue

namespace Decoding

variable {δ α : Type} {s : Schema} {short : Prop} {m m' : Decoding δ α} {d : δ} {n k : Nat}
  {call call' : Ty → Strategy}

/-! ## Marking end signals -/

/-- Mark an end signal. -/
def mark (e : Ending δ α) : Dialogue (Ending δ α) :=
  if failure? e.result = some .ended then (Dialogue.done e).raising else .done e

/-- A decoding with a mark at its end if that is an end signal. -/
def watched (m : Decoding δ α) : Decoding δ α := fun d => (m d).bind mark

theorem result_of_failure {r : Except Error α} {e : Error} (h : failure? r = some e) : r = .error e := by
  cases r with
  | ok a => cases h
  | error y => cases h; rfl

theorem watched_stops {G : α → δ → Prop} {F : Error → δ → Prop} (h : (m d).Stops (Within G F)) :
    (watched m d).Stops (Within G F) := by
  have hmarked : ∀ {e : Ending δ α} {failure : Option Error}, failure? e.result = some .ended →
      Within G F failure e → Within G F (some .ended) e := by
    intro e failure hend he
    refine ⟨fun x hx => ?_, he.2⟩
    cases hx
    exact ⟨.ended, result_of_failure hend, rfl⟩
  apply h.bind
  · intro e he
    unfold mark
    split
    · next hend => exact .raised (.done (hmarked hend he))
    · exact .done he
  · intro err e he
    unfold mark
    split
    · next hend => exact .raised (.done he) (.done (hmarked hend he))
    · exact .done he

theorem watched_holds (h : failFast.Holds m) : failFast.Holds (watched m) :=
  fun d => stops_relayed.1 (watched_stops (stops_relayed.2 (h d)))

/-- Marks change nothing. -/
theorem same_watched (h : Same s short m m') : Same s short (watched m) m' := by
  intro d
  have hmark : ∀ e e' : Ending δ α, e = e' → Dialogue.Like s short Eq (mark e) (.done e') := by
    rintro e _ rfl
    unfold mark
    split
    · exact .resolve _ fun _ _ => .done rfl
    · exact .done rfl
  have hd := (h d).bind hmark
  rwa [Dialogue.bind_done] at hd

/-- A mark is put exactly if decoding ended with an end signal. -/
theorem story_watched {σ : Type} [TokenSource σ] (m : Decoding δ α) (d : δ) (src : σ) (reg : Registry) :
    (watched m d).story s src reg = (m d).story s src reg ++
      if ((m d).run s src reg).answer.bind (fun e => failure? e.result) = some .ended then [.raised]
      else [] := by
  rw [watched, Dialogue.story_bind]
  generalize (m d).run s src reg = r
  obtain ⟨answer, rsrc, rreg, xs, notes⟩ := r
  cases answer with
  | none => rfl
  | some e =>
    by_cases hend : failure? e.result = some .ended <;> simp [mark, hend, Dialogue.story]

/-! ### Routines -/

/-- The entries that are made of a map, given what is done with each. -/
def entriesBy (entry : Nat → Decoding (Hand Entries) Unit) (rounds : Nat) :
    Decoding Content (List (Value × Value)) := do
  let (_, h) ← fresh (⟨Entries.empty, none⟩ : Hand Entries) <| walk .map rounds .map entry
  return h.state.made

/-- The value after a tag, with something done around what a routine does with the entries of maps, and
around its callbacks. -/
def readBy (around : Decoding (Hand Entries) Unit → Decoding (Hand Entries) Unit)
    (routine : EntryRoutine) (call : Ty → Strategy) (rounds : Nat) (tag : Tag) :
    Decoding Content Value :=
  if tag = .map then do
    return .map (← entriesBy (fun i => around (performBy around call rounds i (routine i))) rounds)
  else readDynamic none (fun u => pure (call u)) rounds tag

/-- Decode a value of no fixed type, with something done around what a routine does with the entries
of maps. -/
def dynamicBy (around : Decoding (Hand Entries) Unit → Decoding (Hand Entries) Unit)
    (entryRoutine : Option EntryRoutine) (call : Ty → Strategy) (rounds : Nat) : Strategy :=
  match entryRoutine with
  | none => dynamic none (fun u => pure (call u)) rounds
  | some routine => do
    let tag : Tag ← ask .type
    let v ← readBy around routine call rounds tag
    set (Content.dynamic v)
    return tag

/-- What takes over the entries of maps is of no account for other values. -/
theorem readDynamic_of_ne {tag : Tag} (h : tag ≠ .map) (entryRoutine : Option EntryRoutine)
    (resolve : Ty → Decoding Content Strategy) (rounds : Nat) :
    readDynamic entryRoutine resolve rounds tag = readDynamic none resolve rounds tag := by
  cases tag with
  | map => exact absurd rfl h
  | _ => rfl

theorem same_customBy (hc : ∀ t, Same s short (call t) (call' t)) (hs : Steps short n k)
    (routine : Routine Work .decoder) :
    Same s short (customBy watched call n routine) (custom call' k routine) := by
  intro c
  rw [custom_apply]
  have hroutine := same_performBy same_watched hc hs 0 routine ⟨⟨c, .unit⟩, none⟩
  exact hroutine.bind fun _ _ he => .done (by rw [he])

theorem same_entriesBy (hs : Steps short n k) {entry entry' : Nat → Decoding (Hand Entries) Unit}
    (he : ∀ i, Same s short (entry i) (entry' i)) :
    Same s short (entriesBy entry n) (entriesBy entry' k) :=
  ((same_walk .map .map hs he).fresh _).bind fun _ => .pure _

theorem same_dynamicBy (hc : ∀ t, Same s short (call t) (call' t)) (hs : Steps short n k)
    (entryRoutine : Option EntryRoutine) :
    Same s short (dynamicBy watched entryRoutine call n)
      (dynamic entryRoutine (fun u => pure (call' u)) k) := by
  have hget : ∀ t, SameGet s short (pure (call t)) (pure (call' t)) := fun t => .pure (hc t)
  cases entryRoutine with
  | none => exact same_dynamic none hget hs
  | some routine =>
    apply (Same.ask .type).bind
    intro tag
    refine Same.bind ?_ fun _ => .done fun _ => ⟨_, rfl⟩
    unfold readBy
    split
    · next htag =>
      subst htag
      have hentry : ∀ i, Same s short (watched (performBy watched call n i (routine i)))
          (perform (fun u => through (pure (call' u))) k i (routine i)) :=
        fun i => same_watched (same_performBy same_watched hc hs i (routine i))
      exact (same_entriesBy hs hentry).bind fun _ => .pure _
    · next htag =>
      rw [readDynamic_of_ne htag (some routine)]
      exact same_readDynamic none hget hs tag

theorem dynamicBy_failFast {entryRoutine : Option EntryRoutine}
    (hr : ∀ routine, entryRoutine = some routine → ∀ i state, (routine i).PassesOn state)
    (hc : ∀ t, failFast.Holds (call t)) : failFast.Holds (dynamicBy watched entryRoutine call n) := by
  have hnone : ∀ routine, (none : Option EntryRoutine) = some routine →
      ∀ i, failFast.Holds (perform call n i (routine i)) := fun _ h => nomatch h
  cases entryRoutine with
  | none => exact failFast.dynamic (hc .dynamic) hnone
  | some routine =>
    apply failFast.bind (failFast.ask .type rfl)
    intro tag
    refine failFast.bind ?_ fun _ => failFast.quiet fun _ => ⟨_, rfl⟩
    unfold readBy
    split
    · have hentry : ∀ i, failFast.Holds (watched (performBy watched call n i (routine i))) :=
        fun i => watched_holds fun x => performBy_passes hc watched_stops i (hr routine rfl i x.state)
      exact failFast.map _ (failFast.map _ (failFast.fresh _ (failFast.walk .map .map hentry)))
    · exact failFast.readDynamic (hc .dynamic) hnone tag

end Decoding

/-! ## Watching types -/

namespace Setup

open Decoding

variable {s : Setup}

/-- The strategy of a type, with marks where an end signal leaves a value, a callback, or the routine
that takes over the entries of maps. -/
def watched (s : Setup) : Nat → Ty → Strategy
  | 0, _ => exhausted
  | n + 1, t =>
    Decoding.watched <|
      match s.schema.plan t with
      | .custom routine => customBy Decoding.watched (s.watched n) n routine
      | .dynamic => dynamicBy Decoding.watched s.entryRoutine (s.watched n) n
      | p => p.run s (fun u => pure (s.watched n u)) (fun u => pure (s.watched n u)) n t

/-- **A watched type decodes as it does unwatched.** -/
theorem watched_same (s : Setup) (n : Nat) (t : Ty) :
    Same s.schema False (s.watched n t) (s.direct n t) := by
  induction n generalizing t with
  | zero => exact fun _ => .exhausted
  | succ n ih =>
    have hsteps : Steps False n n := ⟨Nat.le_refl n, .inr rfl⟩
    have hget : ∀ u, SameGet s.schema False (pure (s.watched n u)) (pure (s.direct n u)) :=
      fun u => .pure (ih u)
    apply same_watched
    show Same s.schema False _
      ((s.schema.plan t).run s (fun u => pure (s.direct n u)) (fun u => pure (s.direct n u)) n t)
    generalize s.schema.plan t = p
    cases p with
    | custom routine =>
      show Same _ _ _ (custom (fun u => through (pure (s.direct n u))) n routine)
      exact same_customBy (fun u => (hget u).through) hsteps routine
    | dynamic => exact same_dynamicBy ih hsteps s.entryRoutine
    | _ => exact Plan.run_same s hget hget hsteps t _

theorem watched_failFast (hs : s.RelaysErrors) (n : Nat) (t : Ty) : failFast.Holds (s.watched n t) := by
  induction n generalizing t with
  | zero => exact failFast.exhausted
  | succ n ih =>
    apply watched_holds
    have hplan := Plan.run_holds failFast hs.kept ih n t
    cases hp : s.schema.plan t with
    | custom routine =>
      obtain ⟨name, initial, uses, rfl, hd⟩ := Schema.plan_custom hp
      exact customBy_failFast (hs.types name initial uses _ hd) ih watched_stops
    | dynamic => exact dynamicBy_failFast hs.entries ih
    | _ =>
      rw [hp] at hplan
      exact hplan

end Setup

end Decant
