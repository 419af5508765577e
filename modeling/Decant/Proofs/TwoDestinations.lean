import Decant.Proofs.Composition

/-!
# Decoding into two destinations

* `Dialogue.Abreast` — two dialogues ask and note the same, whatever they are answered, and come to
  related ends.
* `Decoding.walk_abreast` — the rule for going through a container from two destinations, with an
  invariant of both.
* `Decoding.Indifferent` — a decoding that goes abreast with itself from related destinations, with one
  lemma for each decoder. Most of them leave nothing of their destination: they work apart from it, or
  set it before they go on.
-/

namespace Decant

/-! ## Dialogues -/

/-- Two dialogues ask and note the same and come to related ends. -/
inductive Dialogue.Abreast {α β : Type} (R : α → β → Prop) : Dialogue α → Dialogue β → Prop
  | done {a : α} {b : β} (h : R a b) : Abreast R (.done a) (.done b)
  | exhausted : Abreast R .exhausted .exhausted
  | ask (c : Call) {next : Answer c → Dialogue α} {next' : Answer c → Dialogue β}
      (h : ∀ a, Abreast R (next a) (next' a)) : Abreast R (.ask c next) (.ask c next')
  | resolve (t : Ty) {next : Compiled → Dialogue α} {next' : Compiled → Dialogue β}
      (h : ∀ f, Abreast R (next f) (next' f)) : Abreast R (.resolve t next) (.resolve t next')
  | note (n : Note) {d : Dialogue α} {e : Dialogue β} (h : Abreast R d e) :
      Abreast R (.note n d) (.note n e)

namespace Dialogue.Abreast

variable {α β γ δ : Type} {R : α → β → Prop} {S : γ → δ → Prop} {d : Dialogue α} {e : Dialogue β}

theorem refl {R : α → α → Prop} (hR : ∀ a, R a a) (d : Dialogue α) : Abreast R d d := by
  induction d with
  | done a => exact .done (hR a)
  | exhausted => exact .exhausted
  | ask c next ih => exact .ask c ih
  | resolve t next ih => exact .resolve t ih
  | note n rest ih => exact .note n ih

theorem bind {f : α → Dialogue γ} {g : β → Dialogue δ} (h : Abreast R d e)
    (hf : ∀ a b, R a b → Abreast S (f a) (g b)) : Abreast S (d.bind f) (e.bind g) := by
  induction h with
  | done h => exact hf _ _ h
  | exhausted => exact .exhausted
  | ask c _ ih => exact .ask c ih
  | resolve t _ ih => exact .resolve t ih
  | note n _ ih => exact .note n ih

theorem mono {R' : α → β → Prop} (h : Abreast R d e) (hr : ∀ a b, R a b → R' a b) :
    Abreast R' d e := by
  have hd := h.bind fun a b hab => done (hr a b hab)
  rwa [bind_done, bind_done] at hd

/-- Led with the same source, dialogues that go abreast show the same up to their ends. -/
theorem run {σ : Type} [TokenSource σ] (h : Abreast R d e) (s : Schema) (src : σ) (reg : Registry) :
    let r := d.run s src reg
    let q := e.run s src reg
    Option.Rel R r.answer q.answer ∧ r.source = q.source ∧ r.exchanges = q.exchanges ∧
      r.notes = q.notes := by
  induction h generalizing src reg with
  | done h => exact ⟨.some h, rfl, rfl, rfl⟩
  | exhausted => exact ⟨.none, rfl, rfl, rfl⟩
  | ask c _ ih =>
    obtain ⟨ha, hs, hx, hn⟩ := ih (TokenSource.answer c src).1 (TokenSource.answer c src).2 reg
    exact ⟨ha, hs, congrArg (_ :: ·) hx, hn⟩
  | resolve t _ ih => exact ih _ src _
  | note n _ ih =>
    obtain ⟨ha, hs, hx, hn⟩ := ih src reg
    exact ⟨ha, hs, hx, congrArg (n :: ·) hn⟩

end Dialogue.Abreast

/-! ## Decodings -/

namespace Decoding

open Dialogue (Abreast)

variable {δ γ α β : Type} {P Q S : δ → δ → Prop}

/-- Two ends with the same result, or the same error, and with related destinations. -/
inductive Matched (G : α → δ → δ → Prop) (F : Error → δ → δ → Prop) :
    Ending δ α → Ending δ α → Prop
  | ok {a : α} {d d' : δ} (h : G a d d') : Matched G F ⟨.ok a, d⟩ ⟨.ok a, d'⟩
  | error {e : Error} {d d' : δ} (h : F e d d') : Matched G F ⟨.error e, d⟩ ⟨.error e, d'⟩

section

variable {G : α → δ → δ → Prop} {H : β → δ → δ → Prop} {F : Error → δ → δ → Prop} {d d' : δ}

theorem Matched.result_eq {e e' : Ending δ α} (h : Matched G F e e') : e.result = e'.result := by
  cases h <;> rfl

theorem Matched.mono {G' : α → δ → δ → Prop} {F' : Error → δ → δ → Prop} {e e' : Ending δ α}
    (h : Matched G F e e') (hg : ∀ a d d', G a d d' → G' a d d')
    (hf : ∀ e d d', F e d d' → F' e d d') : Matched G' F' e e' := by
  cases h with
  | ok h => exact .ok (hg _ _ _ h)
  | error h => exact .error (hf _ _ _ h)

theorem abreast_bind {m m' : Decoding δ α} {f f' : α → Decoding δ β}
    (h : Abreast (Matched G F) (m d) (m' d'))
    (hf : ∀ a x x', G a x x' → Abreast (Matched H F) (f a x) (f' a x')) :
    Abreast (Matched H F) ((m >>= f) d) ((m' >>= f') d') := by
  apply h.bind
  intro e e' he
  cases he with
  | ok hg => exact hf _ _ _ hg
  | error hf => exact .done (.error hf)

theorem abreast_ask (c : Call) {f f' : c.Reply → Decoding δ β} (hF : ∀ e, F e d d')
    (hf : ∀ a, Abreast (Matched H F) (f a d) (f' a d')) :
    Abreast (Matched H F) ((ask c >>= f) d) ((ask c >>= f') d') := by
  refine .ask c fun a => ?_
  cases a with
  | ok a => exact hf a
  | error e => exact .done (.error (hF e))

theorem abreast_hasNext (c : Container) (i : Nat) {f f' : Bool → Decoding δ β} (hF : ∀ e, F e d d')
    (hf : ∀ b, Abreast (Matched H F) (f b d) (f' b d')) :
    Abreast (Matched H F) ((hasNext c i >>= f) d) ((hasNext c i >>= f') d') := by
  refine .ask (.next c i) fun a => ?_
  cases a with
  | ok a => exact hf true
  | error e =>
    cases e with
    | ended => exact hf false
    | _ => exact .done (.error (hF _))

variable {J : Nat → δ → δ → Prop} {body body' : Nat → Decoding δ Unit}

theorem walkFrom_abreast (c : Container) (length : Option Nat) (hF : ∀ i d d' e, J i d d' → F e d d')
    (hb : ∀ i d d', J i d d' → Abreast (Matched (fun _ => J (i + 1)) F) (body i d) (body' i d')) :
    ∀ (n i : Nat) {d d' : δ}, J i d d' →
      Abreast (Matched J F) (walkFrom c length body n i d) (walkFrom c length body' n i d')
  | 0, _, _, _, _ => .exhausted
  | n + 1, i, d, d', hj => by
    have hround : Abreast (Matched J F) ((body i >>= fun _ => walkFrom c length body n (i + 1)) d)
        ((body' i >>= fun _ => walkFrom c length body' n (i + 1)) d') :=
      abreast_bind (hb i d d' hj) fun _ _ _ hj' => walkFrom_abreast c length hF hb n (i + 1) hj'
    unfold walkFrom
    split
    · exact .done (.ok hj)
    · unfold goesOn
      split
      · apply abreast_hasNext c i fun e => hF i d d' e hj
        intro more
        cases more with
        | true => exact hround
        | false => exact .done (.ok hj)
      · exact hround

/-- **Going through a container abreast**, with an invariant that every element carries on. -/
theorem walk_abreast (c : Container) (n : Nat) (tag : Tag) (hF : ∀ i d d' e, J i d d' → F e d d')
    (hb : ∀ i d d', J i d d' → Abreast (Matched (fun _ => J (i + 1)) F) (body i d) (body' i d'))
    (hj : J 0 d d') : Abreast (Matched J F) (walk c n tag body d) (walk c n tag body' d') := by
  unfold walk
  split
  · exact abreast_ask .nil (fun e => hF 0 d d' e hj) fun _ => .done (.ok hj)
  · split
    · apply abreast_ask (.enter c) fun e => hF 0 d d' e hj
      intro length
      apply abreast_bind (walkFrom_abreast c length hF hb n 0 hj)
      intro k x x' hj'
      exact abreast_ask (.leave c k) (fun e => hF k x x' e hj') fun _ => .done (.ok hj')
    · exact .done (.error (hF 0 d d' _ hj))

end

/-! ### Decoding twice -/

/-- Two destinations of which nothing is known. -/
def Any (_ _ : δ) : Prop := True

/-- From destinations in a first relation, a decoding asks and notes the same and has the same result.
After success the destinations are in a second relation. -/
def Indifferent (P : δ → δ → Prop) (m : Decoding δ α) (Q : δ → δ → Prop) : Prop :=
  ∀ d d', P d d' → Abreast (Matched (fun _ => Q) fun _ => Any) (m d) (m d')

namespace Indifferent

/-- What starts from one destination goes abreast with itself. -/
theorem same (m : Decoding δ α) : Indifferent Eq m Eq := by
  rintro d _ rfl
  refine .refl (fun ⟨result, x⟩ => ?_) (m d)
  cases result with
  | ok a => exact .ok rfl
  | error e => exact .error trivial

theorem any {m : Decoding δ α} (h : Indifferent P m Q) : Indifferent P m Any :=
  fun d d' hd => (h d d' hd).mono fun _ _ he => he.mono (fun _ _ _ _ => trivial) fun _ _ _ h => h

theorem pure (a : α) : Indifferent P (pure a : Decoding δ α) P := fun _ _ hd => .done (.ok hd)

theorem fail (e : Error) : Indifferent P (fail e : Decoding δ α) Q :=
  fun _ _ _ => .done (.error trivial)

theorem bind {m : Decoding δ α} {f : α → Decoding δ β} (h : Indifferent P m Q)
    (hf : ∀ a, Indifferent Q (f a) S) : Indifferent P (m >>= f) S :=
  fun d d' hd => abreast_bind (h d d' hd) hf

theorem ask (c : Call) : Indifferent P (ask c : Decoding δ c.Reply) P := by
  refine fun d d' hd => .ask c fun a => ?_
  cases a with
  | ok a => exact .done (.ok hd)
  | error e => exact .done (.error trivial)

theorem note (n : Note) : Indifferent P (note n : Decoding δ Unit) P :=
  fun _ _ hd => .note n (.done (.ok hd))

/-- Setting a destination leaves nothing of what it held. -/
theorem set (x : δ) : Indifferent P (set x : Decoding δ PUnit) Eq :=
  fun _ _ _ => .done (.ok rfl)

theorem map {m : Decoding δ α} (f : α → β) (h : Indifferent P m Q) :
    Indifferent P (m >>= fun a => Pure.pure (f a)) Q := h.bind fun _ => .pure _

/-- An error may be caught, as long as nothing is made of what it left. -/
theorem attempt {m : Decoding δ α} (h : Indifferent P m Q) : Indifferent P (attempt m) Any := by
  intro d d' hd
  apply (h d d' hd).bind
  intro e e' he
  cases he <;> exact .done (.ok trivial)

/-- What is worked on apart starts from the same destination both times. -/
theorem fresh (start : γ) (m : Decoding γ α) : Indifferent P (fresh start m : Decoding δ (α × γ)) P := by
  intro d d' hd
  rw [fresh_apply, fresh_apply]
  have h : Abreast Eq (m start) (m start) := .refl (fun _ => rfl) _
  apply h.bind
  rintro ⟨result, x⟩ _ rfl
  cases result with
  | ok a => exact .done (.ok hd)
  | error e => exact .done (.error trivial)

theorem focus (part : δ → γ) (put : γ → δ → δ) {m : Decoding γ α} (h : Indifferent Any m Any) :
    Indifferent Any (focus part put m) Any := by
  intro d d' _
  rw [focus_apply, focus_apply]
  apply (h (part d) (part d') trivial).bind
  intro e e' he
  cases he with
  | ok _ => exact .done (.ok trivial)
  | error _ => exact .done (.error trivial)

theorem walk (c : Container) (n : Nat) (tag : Tag) {body : Nat → Decoding δ Unit}
    (hb : ∀ i, Indifferent Any (body i) Any) : Indifferent Any (walk c n tag body) Any :=
  fun _ _ hd => walk_abreast (J := fun _ => Any) c n tag (fun _ _ _ _ _ => trivial) hb hd

/-! ### Leaves -/

/-- Reading a leaf does not look at the destination. -/
def leaf (P : δ → δ → Prop) : LeafLaw δ where
  Holds m := Indifferent P m P
  pure := .pure
  fail := .fail
  ask c _ := .ask c
  bind := .bind

theorem readText (tag expected : Tag) :
    Indifferent P (readText tag expected : Decoding δ ByteArray) P := (leaf P).readText tag expected

theorem readString (tag expected : Tag) :
    Indifferent P (readString tag expected : Decoding δ String) P := (leaf P).readString tag expected

theorem readScalar {times : TimeFormat} (k : Scalar) (tag : Tag) :
    Indifferent P (readScalar times k tag : Decoding δ Content) P :=
  (leaf P).readScalar k tag

/-- A strategy that ends by setting its destination. -/
theorem setting {P : Content → Content → Prop} (c : Content) (tag : Tag) :
    Indifferent P (MonadStateOf.set c >>= fun _ => Pure.pure tag : Strategy) Eq :=
  (set c).bind fun _ => .pure tag

theorem scalar {times : TimeFormat} (k : Scalar) : Indifferent Any (scalar times k) Eq := by
  apply (ask .type).bind
  intro tag
  dsimp only
  split
  · exact (ask .nil).bind fun _ => setting _ tag
  · exact (readScalar k tag).bind fun c => setting c tag

theorem bytes : Indifferent Any bytes Eq := by
  apply (ask .type).bind
  intro tag
  apply (readText tag .bytes).bind
  intro b
  exact setting _ tag

theorem error (initial : Content) (build : ErrorValue → Content) :
    Indifferent Any (error initial build) Eq := by
  apply (ask .type).bind
  intro tag
  cases tag with
  | nil => exact (ask .nil).bind fun _ => setting _ .nil
  | error => exact (ask .error).bind fun e => setting _ .error
  | string => exact (readText .string .error).bind fun b => setting _ .string
  | bytes => exact (readText .bytes .error).bind fun b => setting _ .bytes
  | _ => exact .fail _

/-- A type that decodes from a text, if what it held does not count for whether it refuses one. -/
theorem text {accept : Content → ByteArray → Content × Option Error}
    (ha : ∀ c c' b, (accept c b).2 = (accept c' b).2) : Indifferent Any (text accept) Any := by
  apply (ask .type).bind
  intro tag
  apply (readText tag .string).bind
  intro b d d' _
  show Abreast _ (taken tag (accept d b) d) (taken tag (accept d' b) d')
  have hr := ha d d' b
  generalize accept d b = x, accept d' b = y at hr
  obtain ⟨c, refusal⟩ := x
  obtain ⟨c', refusal'⟩ := y
  obtain rfl : refusal = refusal' := hr
  cases refusal with
  | none => exact .done (.ok trivial)
  | some e => exact .done (.error trivial)

/-! ### Containers

Lists and maps are built apart, and the others are set before their elements are asked for, so what
was in the destination is gone before the strategies of the elements come in. -/

section

variable (s : Schema) {n : Nat} (nested : Ty → Strategy)

theorem list (t : Ty) : Indifferent Any (list s (fun u => Pure.pure (nested u)) n t) Eq := by
  unfold Decoding.list
  rw [pure_bind]
  apply (ask .type).bind
  intro tag
  apply (fresh _ _).bind
  intro _
  exact setting _ tag

theorem array (t : Ty) (length : Nat) :
    Indifferent Any (array s (fun u => Pure.pure (nested u)) (fun u => Pure.pure (nested u)) n t length)
      Eq := by
  unfold Decoding.array
  simp only [pure_bind]
  apply (ask .type).bind
  intro tag
  exact (set _).bind fun _ => same _

theorem mapOf (key value : Ty) :
    Indifferent Any (Decoding.map s (fun u => Pure.pure (nested u)) n key value) Eq := by
  unfold Decoding.map
  simp only [pure_bind]
  apply (ask .type).bind
  intro tag
  apply (fresh _ _).bind
  intro _
  exact setting _ tag

theorem textMap (value : Ty) :
    Indifferent Any (textMap s (fun u => Pure.pure (nested u)) n value) Eq := by
  unfold Decoding.textMap
  simp only [pure_bind]
  apply (ask .type).bind
  intro tag
  exact (set _).bind fun _ => same _

end

/-! ### Values of no fixed type -/

section

variable {n : Nat} {nested : Ty → Strategy} {P : Content → Content → Prop}

theorem dynamicItems : Indifferent P (dynamicItems (fun u => Pure.pure (nested u)) n) P := by
  unfold Decoding.dynamicItems
  rw [pure_bind]
  exact (fresh _ _).map _

theorem dynamicEntries (entryRoutine : Option EntryRoutine) :
    Indifferent P (dynamicEntries entryRoutine (fun u => Pure.pure (nested u)) n) P := by
  cases entryRoutine with
  | some routine => exact (fresh _ _).map _
  | none =>
    unfold Decoding.dynamicEntries
    simp only [pure_bind]
    exact (fresh _ _).map _

theorem readDynamic (entryRoutine : Option EntryRoutine) (tag : Tag) :
    Indifferent P (readDynamic entryRoutine (fun u => Pure.pure (nested u)) n tag) P := by
  cases tag with
  | array => exact dynamicItems.map _
  | map => exact (dynamicEntries entryRoutine).map _
  | string =>
    apply (ask .string).bind
    intro b
    cases Utf8.read? b with
    | some s => exact .pure _
    | none => exact .pure _
  | unknown => exact .fail _
  | _ => exact (ask _).map _

/-- Whatever takes over the entries of maps, it works apart from the destination. -/
theorem dynamic (entryRoutine : Option EntryRoutine) :
    Indifferent Any (dynamic entryRoutine (fun u => Pure.pure (nested u)) n) Eq := by
  apply (ask .type).bind
  intro tag
  apply (readDynamic entryRoutine tag).bind
  intro v
  exact setting _ tag

theorem discard (f : Strategy) : Indifferent P (discard f : Decoding Content Unit) P :=
  ((fresh _ f).map _).map _

/-! ### Records -/

theorem field {fields : Fields Slot}
    (hf : ∀ name i t, fields.get? name = some (.member i t) → Indifferent Any (nested t) Any) (i : Nat) :
    Indifferent Any (field (fun u => Pure.pure (nested u)) (fun u => Pure.pure (nested u)) fields i)
      Any := by
  apply (ask .type).bind
  intro tag
  apply (readString tag .string).bind
  intro name
  have hslot : Indifferent Any (do
      let _ ← Decoding.ask (.toValue i)
      intoSlot (fun u => Pure.pure (nested u)) (fun u => Pure.pure (nested u))
        (fields.get? name)) Any := by
    apply (ask (.toValue i)).bind
    intro _
    cases hget : fields.get? name with
    | none =>
      simp only [intoSlot, through_pure]
      exact discard _
    | some slot =>
      cases slot with
      | member i t =>
        simp only [intoSlot, through_pure]
        exact (focus _ _ (hf name i t hget)).map _
      | unsupported path => exact .fail _
  simp only
  split
  · exact (note _).bind fun _ => hslot
  · exact hslot

/-- Fields are decoded in place, so nothing is known of a record afterwards. -/
theorem record (initial : Content) {fields : Fields Slot}
    (hf : ∀ name i t, fields.get? name = some (.member i t) → Indifferent Any (nested t) Any) :
    Indifferent Any (record initial (fun u => Pure.pure (nested u)) (fun u => Pure.pure (nested u)) n
      fields) Any := by
  apply (ask .type).bind
  intro tag
  apply (attempt (walk .map n tag fun i => field hf i)).bind
  intro r
  cases r with
  | error e => exact (set _).bind fun _ => .fail e
  | ok k =>
    simp only
    split
    · exact (setting initial tag).any
    · exact .pure tag

end

end Indifferent

end Decoding

end Decant
