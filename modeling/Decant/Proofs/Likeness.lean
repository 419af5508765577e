import Decant.Proofs.Compiling

/-!
# Dialogues that go alike

* `Dialogue.Like` — one dialogue goes as another that needs no registry, whatever compiled types a
  sound registry hands to the first. Where the first may be `short` it may also run out of steps.
* `Dialogue.Like.run` — led with the same source they show the same.
* `Decoding.Same` — decodings that go alike from every destination, with one lemma for each way to
  put decodings together.
-/

namespace Decant

/-- Two runs show the same; what they leave in their registries is not looked at. -/
structure Run.Alike {σ α : Type} (r q : Run σ α) : Prop where
  answer : r.answer = q.answer
  source : r.source = q.source
  exchanges : r.exchanges = q.exchanges
  notes : r.notes = q.notes

namespace Run.Alike

variable {σ α : Type} {r q p : Run σ α}

theorem symm (h : r.Alike q) : q.Alike r :=
  ⟨h.answer.symm, h.source.symm, h.exchanges.symm, h.notes.symm⟩

theorem trans (h : r.Alike q) (h' : q.Alike p) : r.Alike p :=
  ⟨h.answer.trans h'.answer, h.source.trans h'.source, h.exchanges.trans h'.exchanges,
    h.notes.trans h'.notes⟩

end Run.Alike

/-! ## Dialogues -/

/-- One dialogue goes as another, which asks the registry for nothing. -/
inductive Dialogue.Like (s : Schema) (short : Prop) {α β : Type} (R : α → β → Prop) :
    Dialogue α → Dialogue β → Prop
  | done {a : α} {b : β} (h : R a b) : Like s short R (.done a) (.done b)
  | exhausted : Like s short R .exhausted .exhausted
  | cut (h : short) (e : Dialogue β) : Like s short R .exhausted e
  | ask (c : Call) {next : Answer c → Dialogue α} {next' : Answer c → Dialogue β}
      (h : ∀ a, Like s short R (next a) (next' a)) : Like s short R (.ask c next) (.ask c next')
  | resolve (t : Ty) {next : Compiled → Dialogue α} {e : Dialogue β}
      (h : ∀ f, Compiled.Of s t f → Like s short R (next f) e) : Like s short R (.resolve t next) e
  | note (n : Note) {d : Dialogue α} {e : Dialogue β} (h : Like s short R d e) :
      Like s short R (.note n d) (.note n e)

namespace Dialogue

variable {s : Schema} {short : Prop} {α β γ δ : Type}

theorem Like.bind {R : α → β → Prop} {S : γ → δ → Prop} {d : Dialogue α} {e : Dialogue β}
    {f : α → Dialogue γ} {g : β → Dialogue δ} (h : Like s short R d e)
    (hf : ∀ a b, R a b → Like s short S (f a) (g b)) : Like s short S (d.bind f) (e.bind g) := by
  induction h with
  | done h => exact hf _ _ h
  | exhausted => exact .exhausted
  | cut h e => exact .cut h _
  | ask c _ ih => exact .ask c ih
  | resolve t _ ih => exact .resolve t ih
  | note n _ ih => exact .note n ih

theorem Like.serving {R : α → β → Prop} {d : Dialogue α} {e : Dialogue β} (h : Like s short R d e)
    (tag : Tag) : Like s short R (d.serving tag) (e.serving tag) := by
  induction h with
  | done h => exact .done h
  | exhausted => exact .exhausted
  | cut h e => exact .cut h _
  | ask c h ih =>
    cases c with
    | type => exact h (.ok tag)
    | _ => exact .ask _ ih
  | resolve t _ ih => exact .resolve t ih
  | note n _ ih => exact .note n ih

/-- Led with the same source, dialogues that go alike show the same. The registry of the second is
of no account, since it is not asked for anything. -/
theorem Like.run {σ : Type} [TokenSource σ] {d e : Dialogue α} (h : Like s short Eq d e) (src : σ)
    {reg : Registry} (hr : reg.Sound s) (reg' : Registry) :
    (short ∧ (d.run s src reg).answer = none) ∨ (d.run s src reg).Alike (e.run s src reg') := by
  induction h generalizing src reg with
  | done h => exact .inr ⟨congrArg some h, rfl, rfl, rfl⟩
  | exhausted => exact .inr ⟨rfl, rfl, rfl, rfl⟩
  | cut h e => exact .inl ⟨h, rfl⟩
  | ask c _ ih =>
    rcases ih _ (TokenSource.answer c src).2 hr with h | h
    · exact .inl h
    · exact .inr ⟨h.answer, h.source, congrArg (_ :: ·) h.exchanges, h.notes⟩
  | resolve t _ ih =>
    obtain ⟨hf, hr'⟩ := Registry.resolve_sound hr t
    exact ih _ hf src hr'
  | note n _ ih =>
    rcases ih src hr with h | h
    · exact .inl h
    · exact .inr ⟨h.answer, h.source, h.exchanges, congrArg (n :: ·) h.notes⟩

theorem Like.alike {σ : Type} [TokenSource σ] {d e : Dialogue α} (h : Like s False Eq d e) (src : σ)
    {reg : Registry} (hr : reg.Sound s) (reg' : Registry) :
    (d.run s src reg).Alike (e.run s src reg') :=
  (h.run src hr reg').resolve_left fun hcut => hcut.1

end Dialogue

/-! ## Decodings -/

namespace Decoding

variable {s : Schema} {short : Prop} {δ γ α β : Type}

/-- Decodings that go alike and end alike from every destination. -/
def Same (s : Schema) (short : Prop) (m m' : Decoding δ α) : Prop :=
  ∀ d, Dialogue.Like s short Eq (m d) (m' d)

/-- Two ways to get at a strategy, which leave the destination alone and get at strategies that go
alike. -/
def SameGet (s : Schema) (short : Prop) (g g' : Decoding Content Strategy) : Prop :=
  ∀ d, Dialogue.Like s short
    (fun e e' => ∃ f f', e = ⟨.ok f, d⟩ ∧ e' = ⟨.ok f', d⟩ ∧ Same s short f f') (g d) (g' d)

/-- A decoding that asks nothing goes as itself. -/
theorem Same.done {m : Decoding δ α} (h : ∀ d, ∃ e, m d = .done e) : Same s short m m := by
  intro d
  obtain ⟨e, he⟩ := h d
  rw [he]
  exact .done rfl

theorem Same.pure (a : α) : Same s short (pure a : Decoding δ α) (pure a) := fun _ => .done rfl

theorem Same.fail (e : Error) : Same s short (fail e : Decoding δ α) (fail e) := fun _ => .done rfl

theorem Same.ask (c : Call) : Same s short (ask c : Decoding δ c.Reply) (ask c) :=
  fun _ => .ask c fun _ => .done rfl

theorem Same.note (n : Note) : Same s short (note n : Decoding δ Unit) (note n) :=
  fun _ => .note n (.done rfl)

theorem Same.bind {m m' : Decoding δ α} {f f' : α → Decoding δ β} (h : Same s short m m')
    (hf : ∀ a, Same s short (f a) (f' a)) : Same s short (m >>= f) (m' >>= f') := by
  intro d
  refine (h d).bind ?_
  rintro ⟨result, dest⟩ _ rfl
  cases result with
  | ok a => exact hf a dest
  | error err => exact .done rfl

theorem Same.attempt {m m' : Decoding δ α} (h : Same s short m m') :
    Same s short (attempt m) (attempt m') :=
  fun d => (h d).bind fun _ _ he => .done (by rw [he])

theorem Same.truncated {m m' : Decoding δ α} (h : Same s short m m') :
    Same s short (truncated m) (truncated m') :=
  fun d => (h d).bind fun _ _ he => .done (by rw [he])

theorem Same.serving {m m' : Decoding δ α} (h : Same s short m m') (tag : Tag) :
    Same s short (m.serving tag) (m'.serving tag) :=
  fun d => (h d).serving tag

theorem Same.isolate (start : γ) {m m' : Decoding γ α} (h : Same s short m m') :
    Same s short (isolate start m : Decoding δ _) (isolate start m') :=
  fun _ => (h start).bind fun _ _ he => .done (by rw [he])

theorem Same.ofResult (r : Except Error α) :
    Same s short (ofResult r : Decoding δ α) (ofResult r) := by
  cases r with
  | ok a => exact .pure a
  | error e => exact .fail e

theorem Same.fresh (start : γ) {m m' : Decoding γ α} (h : Same s short m m') :
    Same s short (fresh start m : Decoding δ _) (fresh start m') :=
  (h.isolate start).bind fun p => (Same.ofResult p.1).bind fun _ => .pure _

theorem Same.focus (part : δ → γ) (put : γ → δ → δ) {m m' : Decoding γ α} (h : Same s short m m') :
    Same s short (focus part put m) (focus part put m') := by
  apply Same.bind (.done fun d => ⟨_, rfl⟩)
  intro d
  apply (h.isolate (part d)).bind
  intro p
  exact Same.bind (.done fun _ => ⟨_, rfl⟩) fun _ => .ofResult p.1

/-- Getting at a strategy, in front of decodings that use it alike. -/
theorem SameGet.bind {g g' : Decoding Content Strategy} {k k' : Strategy → Decoding Content α}
    (h : SameGet s short g g')
    (hk : ∀ f f', Same s short f f' → Same s short (k f) (k' f')) :
    Same s short (g >>= k) (g' >>= k') := by
  intro d
  refine (h d).bind ?_
  rintro _ _ ⟨f, f', rfl, rfl, hf⟩
  exact hk f f' hf d

theorem SameGet.pure {f f' : Strategy} (h : Same s short f f') :
    SameGet s short (pure f) (pure f') := fun _ => .done ⟨f, f', rfl, rfl, h⟩

theorem SameGet.through {g g' : Decoding Content Strategy} (h : SameGet s short g g') :
    Same s short (through g) (through g') := h.bind fun _ _ hf => hf

/-! ### Containers -/

/-- The steps that two decodings may take: as many, or fewer where the first may be short. -/
def Steps (short : Prop) (n m : Nat) : Prop := n ≤ m ∧ (short ∨ n = m)

theorem Steps.of_succ {n m : Nat} (h : Steps short (n + 1) m) :
    ∃ k, m = k + 1 ∧ Steps short n k := by
  obtain ⟨hle, hs⟩ := h
  exact ⟨m - 1, by omega, by omega, hs.imp id fun h => by omega⟩

theorem same_zero {m m' : Decoding δ α} {n : Nat} (h : Steps short 0 n) (hm : m = exhausted)
    (hm' : n = 0 → m' = exhausted) : Same s short m m' := by
  intro d
  subst hm
  rcases h.2 with hs | hn
  · exact .cut hs _
  · rw [hm' hn.symm]
    exact .exhausted

theorem same_hasNext (c : Container) (i : Nat) :
    Same s short (hasNext c i : Decoding δ Bool) (hasNext c i) := by
  apply (Same.ask (.next c i)).attempt.bind
  intro r
  cases r with
  | ok a => exact .pure true
  | error e =>
    cases e with
    | ended => exact .pure false
    | _ => exact .fail _

theorem same_goesOn (c : Container) (length : Option Nat) (i : Nat) :
    Same s short (goesOn c length i : Decoding δ Bool) (goesOn c length i) := by
  unfold goesOn
  split
  · exact same_hasNext c i
  · exact .pure true

theorem same_walkFrom (c : Container) (length : Option Nat) {body body' : Nat → Decoding δ Unit}
    (hb : ∀ i, Same s short (body i) (body' i)) :
    ∀ {n m : Nat} (i : Nat), Steps short n m →
      Same s short (walkFrom c length body n i) (walkFrom c length body' m i)
  | 0, m, i, h => same_zero h rfl fun hm => by rw [hm]; rfl
  | n + 1, m, i, h => by
    obtain ⟨k, rfl, hk⟩ := h.of_succ
    unfold walkFrom
    split
    · exact .pure i
    · apply (same_goesOn c length i).bind
      intro b
      split
      · exact (hb i).bind fun _ => same_walkFrom c length hb (i + 1) hk
      · exact .pure i

theorem same_walk (c : Container) (tag : Tag) {n m : Nat} (h : Steps short n m)
    {body body' : Nat → Decoding δ Unit} (hb : ∀ i, Same s short (body i) (body' i)) :
    Same s short (walk c n tag body) (walk c m tag body') := by
  unfold walk
  split
  · exact (Same.ask .nil).bind fun _ => .pure 0
  · split
    · apply (Same.ask (.enter c)).bind
      intro length
      exact (same_walkFrom c length hb 0 h).bind fun k => (Same.ask _).bind fun _ => .pure k
    · exact .fail _

end Decoding

end Decant
