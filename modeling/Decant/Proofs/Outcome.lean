import Decant.Proofs.SuccessfulRuns

/-!
# What a dialogue comes to

* `Dialogue.Outcome` — what a dialogue comes to with a source, which source it leaves, and what it notes.
  It asks the registry for nothing, and does not run out of steps.
* `Dialogue.Outcome.unique` — there is one outcome at most.
* `Decoding.bind_outcome`, `Decoding.ask_outcome` — one decoding after another, and a question whose answer
  is known.
* `InTurn` — steps made one after the other, until one of them fails.
* `Decoding.walk_outcome`, `Decoding.container_outcome` — going through a container of a value is a step for
  each of its items.
-/

namespace Decant

/-- Led with a source, a dialogue comes to a result, leaves the source in a state, and leaves notes. -/
inductive Dialogue.Outcome {σ α : Type} [TokenSource σ] : Dialogue α → σ → α → σ → List Note → Prop
  | done (a : α) (src : σ) : Outcome (.done a) src a src []
  | ask {c : Call} {next : Answer c → Dialogue α} {a : Answer c} {b : α} {src src' src'' : σ}
      {notes : List Note} (ha : TokenSource.answer c src = (a, src'))
      (h : Outcome (next a) src' b src'' notes) : Outcome (.ask c next) src b src'' notes
  | note (n : Note) {rest : Dialogue α} {b : α} {src src' : σ} {notes : List Note}
      (h : Outcome rest src b src' notes) : Outcome (.note n rest) src b src' (n :: notes)

namespace Dialogue

variable {σ α β : Type} [TokenSource σ] {src src' src'' : σ} {a b : α} {c : β} {d e : Dialogue α}
  {notes notes' : List Note}

theorem done_outcome : (done a).Outcome src b src' notes ↔ b = a ∧ src' = src ∧ notes = [] := by
  constructor
  · intro h
    cases h
    exact ⟨rfl, rfl, rfl⟩
  · rintro ⟨rfl, rfl, rfl⟩
    exact .done _ _

/-- There is one outcome at most. -/
theorem Outcome.unique (h : d.Outcome src a src' notes) (h' : d.Outcome src b src'' notes') :
    a = b ∧ src' = src'' ∧ notes = notes' := by
  induction h generalizing notes' with
  | done a src =>
    obtain ⟨rfl, rfl, rfl⟩ := done_outcome.1 h'
    exact ⟨rfl, rfl, rfl⟩
  | ask ha _ ih =>
    cases h' with
    | ask ha' h' =>
      cases ha.symm.trans ha'
      exact ih h'
  | note n _ ih =>
    cases h' with
    | note _ h' =>
      obtain ⟨rfl, rfl, rfl⟩ := ih h'
      exact ⟨rfl, rfl, rfl⟩

theorem Outcome.bind {f : α → Dialogue β} (h : d.Outcome src a src' notes)
    (hf : (f a).Outcome src' c src'' notes') : (d.bind f).Outcome src c src'' (notes ++ notes') := by
  induction h with
  | done a src => exact hf
  | ask ha _ ih => exact .ask ha (ih hf)
  | note n _ ih => exact .note n (ih hf)

theorem Outcome.of_bind {f : α → Dialogue β} (h : (d.bind f).Outcome src c src'' notes) :
    ∃ a src' ns ms, d.Outcome src a src' ns ∧ (f a).Outcome src' c src'' ms ∧ notes = ns ++ ms := by
  induction d generalizing src notes with
  | done a => exact ⟨a, src, [], notes, .done a src, h, rfl⟩
  | exhausted => cases h
  | ask q next ih =>
    cases h with
    | ask ha h =>
      obtain ⟨a, src', ns, ms, hd, hf, rfl⟩ := ih _ h
      exact ⟨a, src', ns, ms, .ask ha hd, hf, rfl⟩
  | resolve t next ih => cases h
  | note n rest ih =>
    cases h with
    | note _ h =>
      obtain ⟨a, src', ns, ms, hd, hf, rfl⟩ := ih h
      exact ⟨a, src', n :: ns, ms, .note n hd, hf, rfl⟩

/-- What is done at the end of a dialogue only changes what it comes to. -/
theorem map_outcome {f : α → β} : (d.bind fun a => .done (f a)).Outcome src c src' notes ↔
    ∃ a, d.Outcome src a src' notes ∧ c = f a := by
  constructor
  · intro h
    obtain ⟨a, _, ns, ms, hd, hf, rfl⟩ := h.of_bind
    obtain ⟨rfl, rfl, rfl⟩ := done_outcome.1 hf
    exact ⟨a, by rwa [List.append_nil], rfl⟩
  · rintro ⟨a, hd, rfl⟩
    have h := hd.bind (f := fun a => .done (f a)) (.done (f a) src')
    rwa [List.append_nil] at h

theorem Gives.outcome (h : d.Gives src a src') : d.Outcome src a src' [] := by
  induction h with
  | done a src => exact .done a src
  | ask ha _ ih => exact .ask ha ih

theorem Outcome.run (h : d.Outcome src a src' notes) (s : Schema) (reg : Registry) :
    (d.run s src reg).answer = some a ∧ (d.run s src reg).source = src' ∧
      (d.run s src reg).notes = notes := by
  induction h with
  | done a src => exact ⟨rfl, rfl, rfl⟩
  | ask ha _ ih =>
    simp only [Dialogue.run, ha]
    exact ih
  | note n _ ih => exact ⟨ih.1, ih.2.1, congrArg (n :: ·) ih.2.2⟩

/-- What goes as a dialogue, except that the other may be short of steps, comes to nothing else. -/
theorem Like.outcome {s : Schema} {short : Prop} (h : Like s short Eq d e)
    (hd : d.Outcome src a src' notes) : e.Outcome src a src' notes := by
  induction h generalizing src notes with
  | done h => exact h ▸ hd
  | exhausted | cut _ _ | resolve _ _ _ => cases hd
  | ask q _ ih =>
    cases hd with
    | ask ha hd => exact .ask ha (ih _ hd)
  | note n _ ih =>
    cases hd with
    | note _ hd => exact .note n (ih hd)

/-- A run that came to an end is an outcome, if the registry is not asked. -/
theorem Like.outcome_of_run {s : Schema} (h : Like s False Eq d e) {reg : Registry}
    (ha : (e.run s src reg).answer = some a) :
    e.Outcome src a (e.run s src reg).source (e.run s src reg).notes := by
  induction h generalizing src with
  | done h =>
    cases ha
    exact .done _ _
  | exhausted => cases ha
  | cut h _ => exact h.elim
  | ask q _ ih => exact .ask rfl (ih _ ha)
  | resolve t _ ih =>
    obtain ⟨hf, -⟩ := Registry.resolve_sound (Registry.sound_empty s false) t
    exact ih _ hf ha
  | note n _ ih => exact .note n (ih ha)

end Dialogue

/-! ## Decodings -/

namespace Decoding

variable {σ δ γ α β : Type} [TokenSource σ] {src src' src'' : σ} {d d' : δ} {a : α}
  {m : Decoding δ α} {f : α → Decoding δ β} {e : Ending δ β} {err : Error} {notes notes' : List Note}

/-- After a success decoding goes on with the result. -/
theorem bind_outcome (h : (m d).Outcome src ⟨.ok a, d'⟩ src' notes) :
    ((m >>= f) d).Outcome src e src'' notes' ↔
      ∃ ms, (f a d').Outcome src' e src'' ms ∧ notes' = notes ++ ms := by
  constructor
  · intro hb
    obtain ⟨x, _, ns, ms, hm, hf, rfl⟩ := hb.of_bind
    obtain ⟨rfl, rfl, rfl⟩ := h.unique hm
    exact ⟨ms, hf, rfl⟩
  · rintro ⟨ms, hf, rfl⟩
    exact h.bind hf

/-- After a failure decoding is over. -/
theorem bind_outcome_error (h : (m d).Outcome src ⟨.error err, d'⟩ src' notes) :
    ((m >>= f) d).Outcome src e src'' notes' ↔ e = ⟨.error err, d'⟩ ∧ src'' = src' ∧ notes' = notes := by
  constructor
  · intro hb
    obtain ⟨x, _, ns, ms, hm, hf, rfl⟩ := hb.of_bind
    obtain ⟨rfl, rfl, rfl⟩ := h.unique hm
    obtain ⟨rfl, rfl, rfl⟩ := Dialogue.done_outcome.1 hf
    exact ⟨rfl, rfl, List.append_nil _⟩
  · rintro ⟨rfl, rfl, rfl⟩
    have hb : ((m >>= f) d).Outcome src ⟨.error err, d'⟩ src'' (notes' ++ []) := by
      rw [bind_apply]
      exact h.bind (.done _ _)
    rwa [List.append_nil] at hb

/-- One decoding after another comes to an end with either of them. -/
theorem outcome_of_bind (h : ((m >>= f) d).Outcome src e src'' notes) :
    (∃ a d' src' ns ms, (m d).Outcome src ⟨.ok a, d'⟩ src' ns ∧ (f a d').Outcome src' e src'' ms ∧
        notes = ns ++ ms) ∨
      ∃ err d', (m d).Outcome src ⟨.error err, d'⟩ src'' notes ∧ e = ⟨.error err, d'⟩ := by
  obtain ⟨⟨result, d'⟩, src', ns, ms, hm, hf, rfl⟩ := h.of_bind
  cases result with
  | ok a => exact .inl ⟨a, d', src', ns, ms, hm, hf, rfl⟩
  | error err =>
    obtain ⟨rfl, rfl, rfl⟩ := Dialogue.done_outcome.1 hf
    rw [List.append_nil]
    exact .inr ⟨err, d', hm, rfl⟩

/-- A question whose answer is known. -/
theorem ask_outcome {c : Call} {f : c.Reply → Decoding δ β} {a : c.Reply}
    (ha : TokenSource.answer c src = (.ok a, src')) :
    ((ask c >>= f) d).Outcome src e src'' notes ↔ (f a d).Outcome src' e src'' notes := by
  constructor
  · intro h
    cases h with
    | ask ha' h =>
      cases ha.symm.trans ha'
      exact h
  · intro h
    exact .ask ha h

/-- Making something else of a result. -/
theorem pure_outcome {g : α → β} : ((m >>= fun a => pure (g a)) d).Outcome src e src' notes ↔
    ∃ x, (m d).Outcome src x src' notes ∧ e = ⟨x.result.map g, x.dest⟩ := by
  refine Iff.trans (Iff.of_eq ?_) Dialogue.map_outcome
  refine congrArg (fun q : Dialogue (Ending δ β) => q.Outcome src e src' notes) ?_
  refine congrArg (m d).bind (funext fun x => ?_)
  obtain ⟨result, dest⟩ := x
  cases result <;> rfl

theorem fresh_outcome {start : γ} {m : Decoding γ α} {e : Ending δ (α × γ)} :
    (fresh start m d).Outcome src e src' notes ↔
      ∃ x, (m start).Outcome src x src' notes ∧ e = ⟨x.result.map (·, x.dest), d⟩ := by
  rw [fresh_apply, Dialogue.map_outcome]

theorem focus_outcome {part : δ → γ} {put : γ → δ → δ} {m : Decoding γ α} {e : Ending δ α} :
    (focus part put m d).Outcome src e src' notes ↔
      ∃ x, (m (part d)).Outcome src x src' notes ∧ e = ⟨x.result, put x.dest d⟩ := by
  rw [focus_apply, Dialogue.map_outcome]

end Decoding

/-! ## Steps in turn -/

/-- Steps made one after the other, each from the destination that the one before it left, until one of
them fails. -/
inductive InTurn {ι δ : Type} (step : ι → δ → Ending δ Unit → List Note → Prop) :
    List ι → δ → Ending δ Unit → List Note → Prop
  | nil (d : δ) : InTurn step [] d ⟨.ok (), d⟩ []
  | failed {x : ι} {xs : List ι} {d d' : δ} {err : Error} {notes : List Note}
      (h : step x d ⟨.error err, d'⟩ notes) : InTurn step (x :: xs) d ⟨.error err, d'⟩ notes
  | cons {x : ι} {xs : List ι} {d d' : δ} {e : Ending δ Unit} {notes notes' : List Note}
      (h : step x d ⟨.ok (), d'⟩ notes) (hrest : InTurn step xs d' e notes') :
      InTurn step (x :: xs) d e (notes ++ notes')

namespace InTurn

variable {ι δ : Type} {step step' : ι → δ → Ending δ Unit → List Note → Prop} {xs ys : List ι} {d d' : δ}
  {e : Ending δ Unit} {err : Error} {notes notes' : List Note}

theorem imp (h : InTurn step xs d e notes) (hs : ∀ x ∈ xs, ∀ d e ns, step x d e ns → step' x d e ns) :
    InTurn step' xs d e notes := by
  induction h with
  | nil d => exact .nil d
  | failed h => exact .failed (hs _ List.mem_cons_self _ _ _ h)
  | cons h _ ih =>
    exact .cons (hs _ List.mem_cons_self _ _ _ h) (ih fun x hx => hs x (List.mem_cons_of_mem _ hx))

theorem append (h : InTurn step xs d ⟨.ok (), d'⟩ notes) (hrest : InTurn step ys d' e notes') :
    InTurn step (xs ++ ys) d e (notes ++ notes') := by
  generalize hx : (⟨.ok (), d'⟩ : Ending δ Unit) = x at h
  induction h with
  | nil d =>
    cases hx
    exact hrest
  | failed h => cases hx
  | cons h _ ih =>
    rw [List.append_assoc]
    exact .cons h (ih hx)

/-- Steps that fail do so with the first one that fails. -/
theorem error_iff : InTurn step xs d ⟨.error err, d'⟩ notes ↔
    ∃ pre x post c ns ms, xs = pre ++ x :: post ∧ InTurn step pre d ⟨.ok (), c⟩ ns ∧
      step x c ⟨.error err, d'⟩ ms ∧ notes = ns ++ ms := by
  constructor
  · intro h
    generalize he : (⟨.error err, d'⟩ : Ending δ Unit) = e at h
    induction h with
    | nil d => cases he
    | @failed x xs d _ _ ns h =>
      cases he
      exact ⟨[], x, xs, d, [], ns, rfl, .nil d, h, rfl⟩
    | @cons x xs d c e ns ms h _ ih =>
      obtain ⟨pre, y, post, c', ns', ms', rfl, hpre, hy, rfl⟩ := ih he
      exact ⟨x :: pre, y, post, c', ns ++ ns', ms', rfl, .cons h hpre, hy, (List.append_assoc _ _ _).symm⟩
  · rintro ⟨pre, x, post, c, ns, ms, rfl, hpre, hx, rfl⟩
    exact hpre.append (.failed hx)

end InTurn

/-! ## Containers of a value -/

namespace Decoding

variable {ι δ : Type} {f : Frame} {stack : List Frame} {body : Nat → Decoding δ Unit} {items : List ι}
  {step : ι → δ → Ending δ Unit → List Note → Prop} {d : δ} {e : Ending δ Nat} {notes : List Note}

/-- How a walk ends, given how the steps that it makes end. -/
def counted (n : Nat) (e : Ending δ Unit) : Ending δ Nat := ⟨e.result.map fun _ => n, e.dest⟩

/-- A step as a relation on the destination is what the body of a walk does with an item. If it succeeds,
the cursor is left behind the item. -/
def Handles (f : Frame) (stack : List Frame) (body : Nat → Decoding δ Unit) (items : List ι)
    (step : ι → δ → Ending δ Unit → List Note → Prop) : Prop :=
  ∀ i x, items[i]? = some x → ∀ d,
    (∀ e notes, step x d e notes ↔
      ∃ src, (body i d).Outcome (⟨f.head? i, none, f :: stack⟩ : Cursor) e src notes) ∧
    ∀ d' src notes, (body i d).Outcome (⟨f.head? i, none, f :: stack⟩ : Cursor) ⟨.ok (), d'⟩ src notes →
      src = ⟨none, none, f :: stack⟩

/-- A step, and the others after it. -/
theorem round_outcome (hb : Handles f stack body items step) {i : Nat} {x : ι} {xs : List ι}
    (hi : items[i]? = some x) {g : Unit → Decoding δ Nat} {count : Nat}
    (hg : ∀ d e notes, (∃ src, (g () d).Outcome (⟨none, none, f :: stack⟩ : Cursor) e src notes) ↔
      ∃ x, InTurn step xs d x notes ∧ e = counted count x) :
    (∃ src, ((body i >>= g) d).Outcome (⟨f.head? i, none, f :: stack⟩ : Cursor) e src notes) ↔
      ∃ y, InTurn step (x :: xs) d y notes ∧ e = counted count y := by
  obtain ⟨hstep, hleaves⟩ := hb i x hi d
  constructor
  · rintro ⟨src, h⟩
    rcases outcome_of_bind h with ⟨u, d', src', ns, ms, hbody, hrest, rfl⟩ | ⟨err, d', hbody, rfl⟩
    · obtain rfl := hleaves d' src' ns hbody
      obtain ⟨y, hy, rfl⟩ := (hg d' e ms).1 ⟨src, hrest⟩
      exact ⟨y, .cons ((hstep _ _).2 ⟨_, hbody⟩) hy, rfl⟩
    · exact ⟨_, .failed ((hstep _ _).2 ⟨_, hbody⟩), rfl⟩
  · rintro ⟨y, hy, rfl⟩
    cases hy with
    | failed h =>
      obtain ⟨src, hbody⟩ := (hstep _ _).1 h
      exact ⟨src, (bind_outcome_error hbody).2 ⟨rfl, rfl, rfl⟩⟩
    | cons h hrest =>
      obtain ⟨src', hbody⟩ := (hstep _ _).1 h
      obtain rfl := hleaves _ src' _ hbody
      obtain ⟨src, hg⟩ := (hg _ _ _).2 ⟨y, hrest, rfl⟩
      exact ⟨src, (bind_outcome hbody).2 ⟨_, hg, rfl⟩⟩

/-- From any item on, a walk is a step for each item that is left. -/
theorem walkOut_outcome (hb : Handles f stack body items step) (hl : f.length = items.length) :
    ∀ (k i n : Nat) (d : δ) (e : Ending δ Nat) (notes : List Note), i + k = f.length → k < n →
      ((∃ src, (walkOut f.kind (some f.length) body n i d).Outcome
          (⟨if i = 0 then f.head? 0 else none, none, f :: stack⟩ : Cursor) e src notes) ↔
        ∃ x, InTurn step (items.drop i) d x notes ∧ e = counted f.length x)
  | 0, i, n + 1, d, e, notes, hi, _ => by
    have hi : i = f.length := hi
    have hnext : (if i = 0 then f.head? 0 else none) = none := by
      split
      · exact Frame.head?_eq_none (by omega)
      · rfl
    subst hi
    unfold walkOut walkFrom
    rw [hnext, if_pos (by simp), pure_bind, hl, List.drop_length]
    constructor
    · rintro ⟨src, h⟩
      obtain ⟨rfl, rfl, rfl⟩ := Dialogue.done_outcome.1
        ((ask_outcome (Cursor.answer_leave none _)).1 h)
      exact ⟨_, .nil d, rfl⟩
    · rintro ⟨x, hx, rfl⟩
      cases hx
      exact ⟨_, (ask_outcome (Cursor.answer_leave none _)).2 (.done _ _)⟩
  | k + 1, i, n + 1, d, e, notes, hi, hn => by
    have hlt : i < items.length := by omega
    have hrest : ∀ d e notes, (∃ src, (walkOut f.kind (some f.length) body n (i + 1) d).Outcome
        (⟨none, none, f :: stack⟩ : Cursor) e src notes) ↔
          ∃ x, InTurn step (items.drop (i + 1)) d x notes ∧ e = counted f.length x := fun d e notes =>
      walkOut_outcome hb hl k (i + 1) n d e notes (by omega) (by omega)
    have hround : (∃ src, ((body i >>= fun _ => walkOut f.kind (some f.length) body n (i + 1)) d).Outcome
        (⟨f.head? i, none, f :: stack⟩ : Cursor) e src notes) ↔
          ∃ y, InTurn step (items.drop i) d y notes ∧ e = counted f.length y := by
      rw [List.drop_eq_getElem_cons hlt]
      exact round_outcome hb (List.getElem?_eq_getElem hlt) hrest
    unfold walkOut walkFrom
    rw [if_neg (by simp; omega), goesOn]
    by_cases h : i = 0
    · subst h
      rw [if_neg (by simp), pure_bind, if_pos rfl, bind_assoc, if_pos rfl]
      exact hround
    · rw [if_neg h, if_pos (by simpa using h), bind_assoc]
      obtain ⟨v, hv⟩ := Frame.exists_head? (f := f) (n := i) (by omega)
      rw [hv] at hround
      have hgo : (hasNext f.kind i d).Outcome (⟨none, none, f :: stack⟩ : Cursor) ⟨.ok true, d⟩
          ⟨some v, none, f :: stack⟩ [] :=
        .ask (Cursor.answer_next hv (Option.some_ne_none v)) (.done _ _)
      refine Iff.trans (exists_congr fun src => (bind_outcome hgo).trans ?_) hround
      rw [if_pos rfl, bind_assoc]
      simp only [List.nil_append, exists_eq_right']
      rfl

/-- **Going through a container of a value is a step for each of its items.** -/
theorem walk_outcome (hb : Handles f stack body items step) (hl : f.length = items.length) {v : Value}
    (hv : Frame.ofValue? v = some f) {n : Nat} (hn : items.length < n) :
    (∃ src, (walk f.kind n f.kind.tag body d).Outcome (⟨none, some v, stack⟩ : Cursor) e src notes) ↔
      ∃ x, InTurn step items d x notes ∧ e = counted f.length x := by
  have hout := walkOut_outcome hb hl f.length 0 n d e notes (Nat.zero_add _) (by omega)
  rw [if_pos rfl, List.drop_zero] at hout
  rw [← hout, walk_eq]
  exact exists_congr fun src => ask_outcome (Cursor.answer_enter none rfl hv)

/-- Decoding a container of a value comes to what the steps for its items come to, if nothing is asked behind
the items. -/
theorem container_outcome {γ : Type} {c : γ} {m : Tag → Decoding γ Tag} {finish : Ending δ Unit → Ending γ Tag}
    {v : Value} {n : Nat} {cur : Option Value} {e : Ending γ Tag}
    (hm : m f.kind.tag c = (walk f.kind n f.kind.tag body d).bind fun x =>
      .done (finish ⟨x.result.map fun _ => (), x.dest⟩))
    (hb : Handles f stack body items step) (hl : f.length = items.length)
    (hv : Frame.ofValue? v = some f) (ht : v.tag = f.kind.tag) (hn : items.length < n) :
    (∃ src, ((do
        let tag : Tag ← ask .type
        m tag) c).Outcome (⟨some v, cur, stack⟩ : Cursor) e src notes) ↔
      ∃ x, InTurn step items d x notes ∧ e = finish x := by
  have hask : ∀ src, ((do
        let tag : Tag ← ask .type
        m tag) c).Outcome (⟨some v, cur, stack⟩ : Cursor) e src notes ↔
      ∃ y, (walk f.kind n f.kind.tag body d).Outcome (⟨none, some v, stack⟩ : Cursor) y src notes ∧
        e = finish ⟨y.result.map fun _ => (), y.dest⟩ := by
    intro src
    rw [← Dialogue.map_outcome, ← hm, ← ht]
    exact ask_outcome (c := .type) rfl
  have hfinish : ∀ x : Ending δ Unit,
      finish ⟨(counted f.length x).result.map fun _ => (), (counted f.length x).dest⟩ = finish x := by
    rintro ⟨result, dest⟩
    cases result <;> rfl
  constructor
  · rintro ⟨src, h⟩
    obtain ⟨y, hy, rfl⟩ := (hask src).1 h
    obtain ⟨x, hx, rfl⟩ := (walk_outcome hb hl hv hn).1 ⟨src, hy⟩
    exact ⟨x, hx, hfinish x⟩
  · rintro ⟨x, hx, rfl⟩
    obtain ⟨src, hy⟩ := (walk_outcome hb hl hv hn).2 ⟨x, hx, rfl⟩
    exact ⟨src, (hask src).2 ⟨_, hy, (hfinish x).symm⟩⟩

end Decoding

end Decant
