import Decant.Proofs.OneWalk

/-!
# Properties that every decoder has

* `Decoding.Law` — a property of decodings that is kept by every way to put decodings together.
* `Plan.run_holds` — such a property passes from the strategies of other types to that of a plan.
* `Setup.direct_holds` — so the strategy of every type has it, once the routines of types that decode
  by hand, and the routine that takes over map entries, keep it too.

What a decoder does with its destination, and whether it takes one value, is not looked at, so one
pass over the decoders serves for every property of this kind.
-/

namespace Decant

namespace Decoding

/-- A property of decodings that every way to put them together keeps. An error may be caught, as
long as it is passed on once the destination was put right. -/
structure Law where
  Holds : {δ α : Type} → Decoding δ α → Prop
  /-- Decodings that ask nothing. -/
  quiet : ∀ {δ α : Type} {m : Decoding δ α}, (∀ d, ∃ e, m d = .done e) → Holds m
  exhausted : ∀ {δ α : Type}, Holds (exhausted : Decoding δ α)
  ask : ∀ {δ : Type} (c : Call), c.isNext = false → Holds (ask c : Decoding δ c.Reply)
  hasNext : ∀ {δ : Type} (c : Container) (i : Nat), Holds (hasNext c i : Decoding δ Bool)
  discarded : ∀ {δ : Type} (name : String), Holds (note (.discarded name) : Decoding δ Unit)
  bind : ∀ {δ α β : Type} {m : Decoding δ α} {f : α → Decoding δ β}, Holds m →
    (∀ a, Holds (f a)) → Holds (m >>= f)
  recover : ∀ {δ α β : Type} {m : Decoding δ α} {f : Except Error α → Decoding δ β}, Holds m →
    (∀ a, Holds (f (.ok a))) → (∀ e d, ∃ d', f (.error e) d = .done ⟨.error e, d'⟩) →
      Holds (attempt m >>= f)
  fresh : ∀ {δ γ α : Type} (start : γ) {m : Decoding γ α}, Holds m →
    Holds (fresh start m : Decoding δ (α × γ))
  focus : ∀ {δ γ α : Type} (part : δ → γ) (put : γ → δ → δ) {m : Decoding γ α}, Holds m →
    Holds (focus part put m)
  truncated : ∀ {δ α : Type} {m : Decoding δ α}, Holds m → Holds (truncated m)
  takesOne : ∀ {f : Strategy}, f.TakesOne → Holds f

/-- A type that decodes by hand ends as its routine does. -/
theorem custom_apply (call : Ty → Strategy) (rounds : Nat) (routine : Routine Work .decoder)
    (c : Content) : custom call rounds routine c =
      (perform call rounds 0 routine ⟨⟨c, .unit⟩, none⟩).bind fun e =>
        .done ⟨e.result.map fun _ => Tag.bool, e.dest.state.dest⟩ := by
  show (focus _ _ (perform call rounds 0 routine) c).bind _ = _
  rw [focus_apply, Dialogue.bind_bind]
  refine congrArg _ (funext fun ⟨result, y⟩ => ?_)
  cases result <;> rfl

/-- What is decoded in an optional content: what is present, or else the initial content. -/
def optionStart (s : Schema) (inner : Ty) : Content → Content
  | .present c => c
  | _ => s.initial inner

/-- What an optional type leaves of what it found. -/
def optionEnd (found : Content) (e : Ending Content Tag) : Content :=
  match found, e.result with
  | .present _, .ok .nil => .absent
  | .present _, _ => .present e.dest
  | c, .ok .nil => c
  | _, .ok _ => .present e.dest
  | c, .error _ => c

/-- An optional type decodes what it holds, and sets its destination as that ends. -/
theorem option_apply (s : Schema) (nested : Ty → Strategy) (inner : Ty) (c : Content) :
    option s (fun u => Pure.pure (nested u)) inner c =
      (nested inner (optionStart s inner c)).bind fun e => .done ⟨e.result, optionEnd c e⟩ := by
  unfold Decoding.option
  rw [pure_bind]
  cases c with
  | present c =>
    show (focus inside (fun c _ => .present c) (nested inner) >>= _) (Content.present c) = _
    rw [bind_apply, focus_apply, Dialogue.bind_bind]
    refine congrArg _ (funext fun ⟨result, d⟩ => ?_)
    cases result with
    | ok tag => cases tag <;> rfl
    | error e => rfl
  | _ =>
    show optionAfresh s inner (nested inner) _ = _
    unfold optionAfresh
    rw [bind_apply, fresh_apply, Dialogue.bind_bind]
    refine congrArg _ (funext fun ⟨result, d⟩ => ?_)
    cases result with
    | ok tag => cases tag <;> rfl
    | error e => rfl

namespace Law

variable (L : Law) {δ α β : Type} {n : Nat} {nested : Ty → Strategy}

theorem pure (a : α) : L.Holds (pure a : Decoding δ α) := L.quiet fun _ => ⟨_, rfl⟩

theorem fail (e : Error) : L.Holds (fail e : Decoding δ α) := L.quiet fun _ => ⟨_, rfl⟩

theorem modify (f : δ → δ) : L.Holds (modify f : Decoding δ Unit) := L.quiet fun _ => ⟨_, rfl⟩

theorem map {m : Decoding δ α} (f : α → β) (h : L.Holds m) :
    L.Holds (m >>= fun a => Pure.pure (f a)) := L.bind h fun _ => L.pure _

/-! ### Containers -/

theorem walkFrom (c : Container) (length : Option Nat) {body : Nat → Decoding δ Unit}
    (hb : ∀ i, L.Holds (body i)) (n i : Nat) : L.Holds (walkFrom c length body n i) := by
  induction n generalizing i with
  | zero => exact L.exhausted
  | succ n ih =>
    unfold Decoding.walkFrom
    split
    · exact L.pure i
    · have hon : L.Holds (goesOn c length i : Decoding δ Bool) := by
        unfold goesOn
        split
        · exact L.hasNext c i
        · exact L.pure true
      apply L.bind hon
      intro more
      split
      · exact L.bind (hb i) fun _ => ih (i + 1)
      · exact L.pure i

theorem walk (c : Container) (tag : Tag) {body : Nat → Decoding δ Unit}
    (hb : ∀ i, L.Holds (body i)) : L.Holds (walk c n tag body) := by
  unfold Decoding.walk
  split
  · exact L.map _ (L.ask .nil rfl)
  · split
    · apply L.bind (L.ask (.enter c) rfl)
      intro length
      apply L.bind (L.walkFrom c length hb n 0)
      intro k
      exact L.map _ (L.ask (.leave c k) rfl)
    · exact L.fail _

theorem value {f : Strategy} (hf : L.Holds f) : L.Holds (value f : Decoding δ Value) :=
  L.map _ (L.fresh _ hf)

theorem discard {f : Strategy} (hf : L.Holds f) : L.Holds (discard f : Decoding δ Unit) :=
  L.map _ (L.value hf)

theorem list (s : Schema) {t : Ty} (hf : L.Holds (nested t)) :
    L.Holds (list s (fun u => Pure.pure (nested u)) n t) := by
  unfold Decoding.list
  rw [pure_bind]
  apply L.bind (L.ask .type rfl)
  intro tag
  have hitem : L.Holds (item s t (nested t)) := L.bind (L.fresh _ hf) fun _ => L.modify _
  exact L.bind (L.fresh [] (L.walk .array tag fun _ => hitem)) fun _ => L.quiet fun _ => ⟨_, rfl⟩

theorem array (s : Schema) {t : Ty} (length : Nat) (hf : L.Holds (nested t))
    (hd : L.Holds (nested .dynamic)) :
    L.Holds (array s (fun u => Pure.pure (nested u)) (fun u => Pure.pure (nested u)) n t length) := by
  unfold Decoding.array
  simp only [pure_bind, through_pure]
  apply L.bind (L.ask .type rfl)
  intro tag
  apply L.bind (L.quiet fun _ => ⟨_, rfl⟩)
  intro _
  refine L.bind (L.walk .array tag fun i => ?_) fun found => ?_
  · split
    · exact L.bind (L.focus _ _ hf) fun _ => L.pure _
    · exact L.discard hd
  · split
    · exact L.bind (L.fail _) fun _ => L.pure tag
    · exact L.pure tag

theorem entry (s : Schema) {key value : Ty} {kf vf : Strategy} (hk : L.Holds kf) (hv : L.Holds vf)
    (i : Nat) : L.Holds (entry s key value kf vf i : Decoding δ (Content × Content)) := by
  apply L.bind (L.fresh _ hk)
  intro k
  apply L.bind (L.ask (.toValue i) rfl)
  intro _
  exact L.map _ (L.fresh _ hv)

theorem mapOf (s : Schema) {key value : Ty} (hk : L.Holds (nested key))
    (hv : L.Holds (nested value)) :
    L.Holds (Decoding.map s (fun u => Pure.pure (nested u)) n key value) := by
  unfold Decoding.map
  simp only [pure_bind]
  apply L.bind (L.ask .type rfl)
  intro tag
  refine L.bind (L.fresh _ (L.walk .map tag fun i => ?_)) fun _ => L.quiet fun _ => ⟨_, rfl⟩
  exact L.bind (L.entry s hk hv i) fun _ => L.modify _

theorem textMap (s : Schema) {value : Ty} (hk : L.Holds (nested .text))
    (hv : L.Holds (nested value)) :
    L.Holds (textMap s (fun u => Pure.pure (nested u)) n value) := by
  rw [textMap_eq]
  unfold refill
  simp only [pure_bind]
  apply L.bind (L.ask .type rfl)
  intro tag
  apply L.bind (L.quiet fun _ => ⟨_, rfl⟩)
  intro _
  refine L.bind (L.walk .map tag fun i => ?_) fun _ => L.pure tag
  exact L.bind (L.entry s hk hv i) fun _ => L.modify _

theorem option (s : Schema) {inner : Ty} (hf : L.Holds (nested inner)) :
    L.Holds (option s (fun u => Pure.pure (nested u)) inner) := by
  unfold Decoding.option
  rw [pure_bind]
  have hafresh : L.Holds (optionAfresh s inner (nested inner)) := by
    apply L.bind (L.fresh _ hf)
    intro p
    dsimp only
    split <;> exact L.quiet fun _ => ⟨_, rfl⟩
  apply L.bind (L.quiet fun _ => ⟨_, rfl⟩)
  intro c
  cases c with
  | present c =>
    apply L.bind (L.focus _ _ hf)
    intro tag
    split <;> exact L.quiet fun _ => ⟨_, rfl⟩
  | _ => exact hafresh

/-! ### Records -/

/-- Such a property passes to reading a leaf. -/
def leaf (δ : Type) : LeafLaw δ where
  Holds := L.Holds
  pure := L.pure
  fail := L.fail
  ask c hc := L.ask c (by cases c <;> first | rfl | cases hc)
  bind := L.bind

theorem field (hf : ∀ t, L.Holds (nested t)) (fields : Fields Slot) (i : Nat) :
    L.Holds (field (fun u => Pure.pure (nested u)) (fun u => Pure.pure (nested u)) fields i) := by
  apply L.bind (L.ask .type rfl)
  intro tag
  apply L.bind ((L.leaf _).readString tag .string)
  intro name
  have hslot : L.Holds (do
      let _ ← Decoding.ask (.toValue i)
      intoSlot (fun u => Pure.pure (nested u)) (fun u => Pure.pure (nested u))
        (fields.get? name)) := by
    apply L.bind (L.ask (.toValue i) rfl)
    intro _
    unfold intoSlot
    simp only [through_pure]
    split
    · exact L.bind (L.focus _ _ (hf _)) fun _ => L.pure _
    · exact L.fail _
    · exact L.discard (hf .dynamic)
  simp only
  split
  · exact L.bind (L.discarded name) fun _ => hslot
  · exact hslot

theorem record (initial : Content) (hf : ∀ t, L.Holds (nested t)) (fields : Fields Slot) :
    L.Holds (record initial (fun u => Pure.pure (nested u)) (fun u => Pure.pure (nested u)) n
      fields) := by
  apply L.bind (L.ask .type rfl)
  intro tag
  refine L.recover (L.walk .map tag fun i => L.field hf fields i) (fun k => ?_)
    fun e d => ⟨initial, rfl⟩
  simp only
  split <;> exact L.quiet fun _ => ⟨_, rfl⟩

/-! ### Values of no fixed type -/

theorem dynamicItems (hd : L.Holds (nested .dynamic)) :
    L.Holds (dynamicItems (fun u => Pure.pure (nested u)) n) := by
  unfold Decoding.dynamicItems
  rw [pure_bind]
  refine L.map _ (L.fresh _ (L.walk .array .array fun i => ?_))
  exact L.bind (L.value hd) fun _ => L.modify _

theorem dynamicEntry {f : Strategy} (hf : L.Holds f) (i : Nat) :
    L.Holds (dynamicEntry f i : Decoding δ (Value × Value)) := by
  apply L.bind (L.value hf)
  intro k
  apply L.bind (L.ask (.toValue i) rfl)
  intro _
  exact L.map _ (L.value hf)

theorem dynamicEntries {entryRoutine : Option EntryRoutine} (hd : L.Holds (nested .dynamic))
    (he : ∀ routine, entryRoutine = some routine → ∀ i, L.Holds (perform nested n i (routine i))) :
    L.Holds (dynamicEntries entryRoutine (fun u => Pure.pure (nested u)) n) := by
  unfold Decoding.dynamicEntries
  simp only [pure_bind, through_pure]
  cases entryRoutine with
  | some routine => exact L.map _ (L.fresh _ (L.walk .map .map fun i => he routine rfl i))
  | none =>
    refine L.map _ (L.fresh _ (L.walk .map .map fun i => ?_))
    exact L.bind (L.dynamicEntry hd i) fun _ => L.modify _

theorem readDynamic {entryRoutine : Option EntryRoutine} (hd : L.Holds (nested .dynamic))
    (he : ∀ routine, entryRoutine = some routine → ∀ i, L.Holds (perform nested n i (routine i)))
    (tag : Tag) : L.Holds (readDynamic entryRoutine (fun u => Pure.pure (nested u)) n tag) := by
  cases tag with
  | array => exact L.map _ (L.dynamicItems hd)
  | map => exact L.map _ (L.dynamicEntries hd he)
  | string =>
    apply L.bind (L.ask .string rfl)
    intro b
    cases Utf8.read? b with
    | some s => exact L.pure _
    | none => exact L.pure _
  | unknown => exact L.fail _
  | _ => exact L.map _ (L.ask _ rfl)

theorem dynamic {entryRoutine : Option EntryRoutine} (hd : L.Holds (nested .dynamic))
    (he : ∀ routine, entryRoutine = some routine → ∀ i, L.Holds (perform nested n i (routine i))) :
    L.Holds (dynamic entryRoutine (fun u => Pure.pure (nested u)) n) := by
  apply L.bind (L.ask .type rfl)
  intro tag
  exact L.bind (L.readDynamic hd he tag) fun _ => L.quiet fun _ => ⟨_, rfl⟩

end Law

end Decoding

open Decoding (Law)

/-- What the law asks of the routines that a setup carries out. -/
structure Setup.KeptBy (s : Setup) (L : Law) : Prop where
  custom : ∀ {call : Ty → Strategy} {routine : Routine Work .decoder} {t : Ty} (n : Nat),
    (∀ u, L.Holds (call u)) → s.schema.plan t = .custom routine →
      L.Holds (Decoding.custom call n routine)
  entry : ∀ {call : Ty → Strategy} {routine : EntryRoutine} (n i : Nat),
    (∀ u, L.Holds (call u)) → s.entryRoutine = some routine →
      L.Holds (Decoding.perform call n i (routine i))

/-- **A law passes from the strategies of other types to that of a plan.** -/
theorem Plan.run_holds (L : Law) {s : Setup} (hs : s.KeptBy L) {f : Ty → Strategy}
    (hf : ∀ t, L.Holds (f t)) (n : Nat) (t : Ty) :
    L.Holds ((s.schema.plan t).run s (fun u => pure (f u)) (fun u => pure (f u)) n t) := by
  have hcustom : ∀ routine, s.schema.plan t = .custom routine →
      L.Holds (Decoding.custom f n routine) := fun routine h => hs.custom n hf h
  generalize s.schema.plan t = p at hcustom
  cases p with
  | scalar c => exact L.takesOne (Decoding.scalar_takesOne c)
  | byteList => exact L.takesOne Decoding.bytes_takesOne
  | dynamic => exact L.dynamic (hf .dynamic) fun routine h i => hs.entry n i hf h
  | list item => exact L.list s.schema (hf item)
  | array item length => exact L.array s.schema length (hf item) (hf .dynamic)
  | map key value => exact L.mapOf s.schema (hf key) (hf value)
  | textMap value => exact L.textMap s.schema (hf .text) (hf value)
  | option inner => exact L.option s.schema (hf inner)
  | box inner =>
    show L.Holds (Decoding.through (pure (f inner)))
    rw [Decoding.through_pure]
    exact hf inner
  | record fields types => exact L.record _ hf fields
  | custom routine =>
    show L.Holds (Decoding.custom (fun u => Decoding.through (pure (f u))) n routine)
    simp only [Decoding.through_pure]
    exact hcustom routine rfl
  | text accept => exact L.takesOne (Decoding.text_takesOne accept)
  | error build => exact L.takesOne (Decoding.error_takesOne _ build)
  | unsupported path => exact L.fail _

namespace Setup

/-- **The strategy of every type keeps a law** that the routines keep. -/
theorem direct_holds (L : Law) {s : Setup} (hs : s.KeptBy L) (n : Nat) (t : Ty) :
    L.Holds (s.direct n t) := by
  induction n generalizing t with
  | zero => exact L.exhausted
  | succ n ih => exact Plan.run_holds L hs ih n t

theorem decodeDirect_holds (L : Law) {s : Setup} (hs : s.KeptBy L) (n : Nat) (t : Ty) :
    L.Holds (s.decodeDirect n t) :=
  L.truncated (L.map _ (direct_holds L hs n t))

end Setup

end Decant
