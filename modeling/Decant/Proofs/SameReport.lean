import Decant.Proofs.OneWalk

/-!
# Decodings that report the same

* `Decoding.truncated_bind`, `Decoding.truncated_fresh`, `Decoding.truncated_focus` — reporting an end
  signal as a truncated stream at the end is reporting it at each step.
* `Decoding.SameReport` — two decodings that are the same program once end signals are reported so, with
  one lemma for each decoder.
* `Decoding.perform_congr` — a routine that decodes through them is the same program at once, because
  its decoders report to it.
* `Setup.direct_sameReport` — exchanging what takes over the entries of maps for something that reports
  the same changes no report.

Where an end signal turns into a truncated stream is the only difference between decoding through
decoders of one's own and decoding in place, so everything else is left to equations.
-/

namespace Decant

namespace Decoding

variable {δ γ α β : Type}

/-! ## Reporting at each step -/

theorem truncated_truncated (m : Decoding δ α) : truncated (truncated m) = truncated m := by
  funext d
  refine (Dialogue.bind_bind _ _ _).trans (congrArg _ (funext fun ⟨result, x⟩ => ?_))
  cases result with
  | ok a => rfl
  | error e =>
    exact congrArg (fun e => (.done ⟨.error e, x⟩ : Dialogue (Ending δ α))) e.truncate_truncate

theorem truncated_bind (m : Decoding δ α) (f : α → Decoding δ β) :
    truncated (m >>= f) = truncated m >>= fun a => truncated (f a) := by
  funext d
  refine (Dialogue.bind_bind _ _ _).trans (Eq.trans ?_ (Dialogue.bind_bind _ _ _).symm)
  refine congrArg _ (funext fun ⟨result, x⟩ => ?_)
  cases result <;> rfl

theorem truncated_fresh (start : γ) (m : Decoding γ α) :
    truncated (fresh start m : Decoding δ (α × γ)) = fresh start (truncated m) := by
  funext d
  show (fresh start m d).bind _ = _
  rw [fresh_apply, fresh_apply, Dialogue.bind_bind]
  refine Eq.trans (congrArg _ (funext fun ⟨result, x⟩ => ?_)) (Dialogue.bind_bind _ _ _).symm
  cases result <;> rfl

theorem truncated_focus (part : δ → γ) (put : γ → δ → δ) (m : Decoding γ α) :
    truncated (focus part put m) = focus part put (truncated m) := by
  funext d
  show (focus part put m d).bind _ = _
  rw [focus_apply, focus_apply, Dialogue.bind_bind]
  refine Eq.trans (congrArg _ (funext fun ⟨result, x⟩ => ?_)) (Dialogue.bind_bind _ _ _).symm
  cases result <;> rfl

end Decoding

theorem Dialogue.serving_bind_ending {α β : Type} (tag : Tag) (d : Dialogue α) (f : α → β) :
    (d.bind fun a => done (f a)).serving tag = (d.serving tag).bind fun a => done (f a) := by
  induction d with
  | done a => rfl
  | exhausted => rfl
  | ask c next ih =>
    cases c with
    | type => rfl
    | _ => exact congrArg (Dialogue.ask _) (funext ih)
  | resolve t next ih => exact congrArg (Dialogue.resolve t) (funext ih)
  | note n rest ih => exact congrArg (Dialogue.note n) ih

namespace Decoding

variable {δ γ α β : Type}

theorem truncated_serving (tag : Tag) (m : Decoding δ α) :
    truncated (serving tag m) = serving tag (truncated m) :=
  funext fun d => (Dialogue.serving_bind_ending tag (m d) _).symm

/-! ## Decodings that report the same -/

/-- Two decodings are the same, once an end signal that leaves them reads as a truncated stream. -/
def SameReport (m m' : Decoding δ α) : Prop := truncated m = truncated m'

namespace SameReport

variable {m m' : Decoding δ α} {n : Nat}

theorem refl (m : Decoding δ α) : SameReport m m := rfl

/-- A decoding reports the same as what it reports. -/
theorem report (m : Decoding δ α) : SameReport m (truncated m) := (truncated_truncated m).symm

/-- What goes on alike with an end signal and with a truncated stream goes on alike with both. -/
theorem bind_eq (h : SameReport m m') {k : Ending δ α → Dialogue β}
    (hk : ∀ e d, k ⟨.error e, d⟩ = k ⟨.error e.truncate, d⟩) (d : δ) : (m d).bind k = (m' d).bind k := by
  have hreport : ∀ m : Decoding δ α, (m d).bind k = (truncated m d).bind k := by
    intro m
    refine Eq.trans (congrArg _ (funext fun ⟨result, x⟩ => ?_)) (Dialogue.bind_bind _ _ _).symm
    cases result with
    | ok a => rfl
    | error e => exact hk e x
  rw [hreport m, hreport m', h]

theorem bind {f f' : α → Decoding δ β} (h : SameReport m m') (hf : ∀ a, SameReport (f a) (f' a)) :
    SameReport (m >>= f) (m' >>= f') := by
  unfold SameReport at *
  rw [truncated_bind, truncated_bind, h]
  exact congrArg _ (funext hf)

/-- What comes after two decodings that report the same. -/
theorem before (h : SameReport m m') (f : α → Decoding δ β) : SameReport (m >>= f) (m' >>= f) :=
  h.bind fun a => refl (f a)

theorem fresh (start : γ) {m m' : Decoding γ α} (h : SameReport m m') :
    SameReport (fresh start m : Decoding δ (α × γ)) (fresh start m') := by
  unfold SameReport at *
  rw [truncated_fresh, truncated_fresh, h]

theorem focus (part : δ → γ) (put : γ → δ → δ) {m m' : Decoding γ α} (h : SameReport m m') :
    SameReport (focus part put m) (focus part put m') := by
  unfold SameReport at *
  rw [truncated_focus, truncated_focus, h]

theorem serving (tag : Tag) (h : SameReport m m') :
    SameReport (m.serving tag) (m'.serving tag) := by
  unfold SameReport at *
  rw [truncated_serving, truncated_serving, h]

/-- An error that was caught is passed on once the destination was put right. -/
theorem recover {f f' : Except Error α → Decoding δ β} (h : SameReport m m')
    (hok : ∀ a, SameReport (f (.ok a)) (f' (.ok a)))
    (herror : ∀ d, ∃ d', ∀ e,
      f (.error e) d = .done ⟨.error e, d'⟩ ∧ f' (.error e) d = .done ⟨.error e, d'⟩) :
    SameReport (attempt m >>= f) (attempt m' >>= f') := by
  have hcaught : ∀ (m : Decoding δ α) (f : Except Error α → Decoding δ β) (d : δ),
      truncated (attempt m >>= f) d = (m d).bind fun e => truncated (f e.result) e.dest := by
    intro m f d
    refine (Dialogue.bind_bind _ _ _).trans ((Dialogue.bind_bind _ _ _).trans ?_)
    rfl
  funext d
  rw [hcaught, hcaught]
  have hsame : (fun e : Ending δ α => truncated (f e.result) e.dest) =
      fun e => truncated (f' e.result) e.dest := by
    funext ⟨result, x⟩
    cases result with
    | ok a => exact congrFun (hok a) x
    | error e =>
      obtain ⟨x', hx⟩ := herror x
      show (f (.error e) x).bind _ = (f' (.error e) x).bind _
      rw [(hx e).1, (hx e).2]
  rw [hsame]
  refine h.bind_eq (fun e x => ?_) d
  obtain ⟨x', hx⟩ := herror x
  show (f' (.error e) x).bind _ = (f' (.error e.truncate) x).bind _
  rw [(hx e).2, (hx e.truncate).2]
  exact congrArg (fun e => (.done ⟨.error e, x'⟩ : Dialogue (Ending δ β))) e.truncate_truncate.symm

/-! ### Containers -/

theorem walkFrom (c : Container) (length : Option Nat) {body body' : Nat → Decoding δ Unit}
    (hb : ∀ i, SameReport (body i) (body' i)) (n i : Nat) :
    SameReport (walkFrom c length body n i) (walkFrom c length body' n i) := by
  induction n generalizing i with
  | zero => exact refl _
  | succ n ih =>
    unfold Decoding.walkFrom
    split
    · exact refl _
    · apply (refl _).bind
      intro more
      split
      · exact (hb i).bind fun _ => ih (i + 1)
      · exact refl _

theorem walk (c : Container) (tag : Tag) {body body' : Nat → Decoding δ Unit}
    (hb : ∀ i, SameReport (body i) (body' i)) :
    SameReport (walk c n tag body) (walk c n tag body') := by
  unfold Decoding.walk
  split
  · exact refl _
  · split
    · exact (refl _).bind fun length => (walkFrom c length hb n 0).before _
    · exact refl _

variable {f f' : Strategy} {g g' : Ty → Strategy}

theorem value (h : SameReport f f') : SameReport (value f : Decoding δ Value) (value f') :=
  (h.fresh _).before _

theorem discard (h : SameReport f f') : SameReport (discard f : Decoding δ Unit) (discard f') :=
  h.value.before _

theorem item (s : Schema) (t : Ty) (h : SameReport f f') : SameReport (item s t f) (item s t f') :=
  (h.fresh _).before _

theorem list (s : Schema) {t : Ty} (h : SameReport (g t) (g' t)) :
    SameReport (list s (fun u => pure (g u)) n t) (list s (fun u => pure (g' u)) n t) := by
  unfold Decoding.list
  rw [pure_bind, pure_bind]
  exact (refl _).bind fun tag => ((walk .array tag fun _ => h.item s t).fresh []).before _

theorem array (s : Schema) {t : Ty} (length : Nat) (h : SameReport (g t) (g' t))
    (hd : SameReport (g .dynamic) (g' .dynamic)) :
    SameReport (array s (fun u => pure (g u)) (fun u => pure (g u)) n t length)
      (array s (fun u => pure (g' u)) (fun u => pure (g' u)) n t length) := by
  unfold Decoding.array
  simp only [pure_bind, through_pure]
  refine (refl _).bind fun tag => (refl _).bind fun _ => (walk .array tag fun i => ?_).before _
  split
  · exact (h.focus _ _).before _
  · exact hd.discard

theorem entry (s : Schema) (key value : Ty) {kf kf' vf vf' : Strategy} (hk : SameReport kf kf')
    (hv : SameReport vf vf') (i : Nat) : SameReport
      (entry s key value kf vf i : Decoding δ (Content × Content)) (entry s key value kf' vf' i) :=
  (hk.fresh _).bind fun _ => (refl _).bind fun _ => (hv.fresh _).before _

theorem mapOf (s : Schema) {key value : Ty} (hk : SameReport (g key) (g' key))
    (hv : SameReport (g value) (g' value)) :
    SameReport (Decoding.map s (fun u => pure (g u)) n key value)
      (Decoding.map s (fun u => pure (g' u)) n key value) := by
  unfold Decoding.map
  simp only [pure_bind]
  refine (refl _).bind fun tag => ((walk .map tag fun i => ?_).fresh _).before _
  exact (hk.entry s key value hv i).before _

theorem textMap (s : Schema) {value : Ty} (hk : SameReport (g .text) (g' .text))
    (hv : SameReport (g value) (g' value)) :
    SameReport (textMap s (fun u => pure (g u)) n value) (textMap s (fun u => pure (g' u)) n value) := by
  unfold Decoding.textMap
  simp only [pure_bind]
  refine (refl _).bind fun tag => (refl _).bind fun _ => ((walk .map tag fun i => ?_).focus _ _).before _
  exact (hk.focus _ _).bind fun _ => (refl _).bind fun _ => (hv.focus _ _).before _

theorem option (s : Schema) {inner : Ty} (h : SameReport (g inner) (g' inner)) :
    SameReport (option s (fun u => pure (g u)) inner) (option s (fun u => pure (g' u)) inner) := by
  unfold Decoding.option
  rw [pure_bind, pure_bind]
  apply (refl _).bind
  intro c
  cases c with
  | present c => exact (h.focus _ _).before _
  | _ => exact (h.fresh _).before _

/-! ### Records -/

theorem intoSlot (h : ∀ t, SameReport (g t) (g' t)) (slot : Option Slot) :
    SameReport (intoSlot (fun u => pure (g u)) (fun u => pure (g u)) slot)
      (intoSlot (fun u => pure (g' u)) (fun u => pure (g' u)) slot) := by
  unfold Decoding.intoSlot
  simp only [through_pure]
  split
  · exact ((h _).focus _ _).before _
  · exact refl _
  · exact (h .dynamic).discard

theorem record (initial : Content) (h : ∀ t, SameReport (g t) (g' t)) (fields : Fields Slot) :
    SameReport (record initial (fun u => pure (g u)) (fun u => pure (g u)) n fields)
      (record initial (fun u => pure (g' u)) (fun u => pure (g' u)) n fields) := by
  apply (refl _).bind
  intro tag
  refine recover (walk .map tag fun i => ?_) (fun _ => refl _) fun d => ⟨initial, fun e => ⟨rfl, rfl⟩⟩
  refine (refl _).bind fun tag => (refl _).bind fun name => ?_
  have hslot : SameReport
      (ask (.toValue i) >>= fun _ =>
        Decoding.intoSlot (fun u => pure (g u)) (fun u => pure (g u)) (fields.get? name))
      (ask (.toValue i) >>= fun _ =>
        Decoding.intoSlot (fun u => pure (g' u)) (fun u => pure (g' u)) (fields.get? name)) :=
    (refl _).bind fun _ => intoSlot h _
  simp only
  split
  · exact (refl _).bind fun _ => hslot
  · exact hslot

end SameReport

/-! ### Routines -/

section routines

variable {call call' : Ty → Strategy} {rounds : Nat}

theorem decodeInto_congr (hc : ∀ t, SameReport (call t) (call' t)) (t : Ty) (start : δ → Content)
    (finish : Content → Option Error → δ → δ) :
    decodeInto call t start finish = decodeInto call' t start finish := by
  unfold decodeInto
  rw [show truncated (call t) = truncated (call' t) from hc t]

/-- **What a routine is told does not depend on where end signals are reported**: each of its decoders
reports for itself. -/
theorem perform_congr (hc : ∀ t, SameReport (call t) (call' t)) :
    ∀ {h : Handle} (i : Nat) (r : Routine δ h), perform call rounds i r = perform call' rounds i r
  | _, _, .skip | _, _, .fail _ | _, _, .update _ => by rw [perform, perform]
  | _, i, .choose f => by
    rw [perform, perform]
    exact congrArg _ (funext fun h => perform_congr hc i (f h.state))
  | _, i, .seq a b => by rw [perform, perform, perform_congr hc i a, perform_congr hc i b]
  | _, i, .attempt body finish => by rw [perform, perform, perform_congr hc i body]
  | _, _, .decode t start finish => by rw [perform, perform, decodeInto_congr hc]
  | _, _, .array body finish => by
    rw [perform, perform]
    exact congrArg (goThrough .array rounds · finish) (funext fun n => perform_congr hc n (body n))
  | _, _, .map body finish => by
    rw [perform, perform]
    exact congrArg (goThrough .map rounds · finish) (funext fun n => perform_congr hc n (body n))
  | _, i, .key body => by rw [perform, perform, perform_congr hc i body]
  | _, i, .value body => by rw [perform, perform, perform_congr hc i body]

end routines

/-! ### Values of no fixed type -/

namespace SameReport

variable {n : Nat} {f f' : Strategy} {g g' : Ty → Strategy}

theorem dynamicItems (h : SameReport (g .dynamic) (g' .dynamic)) :
    SameReport (dynamicItems (fun u => pure (g u)) n) (dynamicItems (fun u => pure (g' u)) n) := by
  unfold Decoding.dynamicItems
  rw [pure_bind, pure_bind]
  exact ((walk .array .array fun _ => h.value.before _).fresh _).before _

theorem dynamicEntry (h : SameReport f f') (i : Nat) :
    SameReport (dynamicEntry f i : Decoding δ (Value × Value)) (dynamicEntry f' i) :=
  h.value.bind fun _ => (refl _).bind fun _ => h.value.before _

theorem dynamicEntries (h : SameReport (g .dynamic) (g' .dynamic)) :
    SameReport (dynamicEntries none (fun u => pure (g u)) n)
      (dynamicEntries none (fun u => pure (g' u)) n) := by
  unfold Decoding.dynamicEntries
  simp only [pure_bind]
  exact ((walk .map .map fun i => (h.dynamicEntry i).before _).fresh _).before _

theorem readDynamic {r r' : Option EntryRoutine} (h : SameReport (g .dynamic) (g' .dynamic))
    (he : SameReport (Decoding.dynamicEntries r (fun u => pure (g u)) n)
      (Decoding.dynamicEntries r' (fun u => pure (g' u)) n)) (tag : Tag) :
    SameReport (readDynamic r (fun u => pure (g u)) n tag)
      (readDynamic r' (fun u => pure (g' u)) n tag) := by
  cases tag with
  | array => exact (dynamicItems h).before _
  | map => exact he.before _
  | _ => exact refl _

end SameReport

end Decoding

/-! ## Strategies -/

open Decoding

/-- What takes over the entries of maps, or leaves them as they are, may be exchanged for something else:
it makes entries out of maps in a way that reports the same. -/
def EntryRoutine.Interchangeable (r r' : Option EntryRoutine) : Prop :=
  ∀ (n : Nat) (g g' : Ty → Strategy), (∀ t, SameReport (g t) (g' t)) →
    SameReport (dynamicEntries r (fun u => pure (g u)) n) (dynamicEntries r' (fun u => pure (g' u)) n)

section

variable {schema : Schema} {r r' : Option EntryRoutine}

/-- A plan reports the same once the strategies of other types do. -/
theorem Plan.run_sameReport (hr : EntryRoutine.Interchangeable r r') {g g' : Ty → Strategy}
    (h : ∀ t, SameReport (g t) (g' t)) (n : Nat) (t : Ty) (p : Plan) :
    SameReport (p.run ⟨schema, r⟩ (fun u => pure (g u)) (fun u => pure (g u)) n t)
      (p.run ⟨schema, r'⟩ (fun u => pure (g' u)) (fun u => pure (g' u)) n t) := by
  cases p with
  | scalar k | byteList | text accept | error build | unsupported path => exact .refl _
  | dynamic =>
    exact (SameReport.refl _).bind fun tag =>
      ((h .dynamic).readDynamic (hr n g g' h) tag).before _
  | list item => exact (h item).list schema
  | array item length => exact (h item).array schema length (h .dynamic)
  | map key value => exact (h key).mapOf schema (h value)
  | textMap value => exact (h .text).textMap schema (h value)
  | option inner => exact (h inner).option schema
  | box inner =>
    show SameReport (through (pure (g inner))) (through (pure (g' inner)))
    rw [through_pure, through_pure]
    exact h inner
  | record fields types => exact .record _ h fields
  | custom routine =>
    show SameReport (Decoding.custom (fun u => through (pure (g u))) n routine)
      (Decoding.custom (fun u => through (pure (g' u))) n routine)
    simp only [through_pure]
    unfold Decoding.custom
    rw [perform_congr h]
    exact .refl _

/-- **The strategy of every type reports the same**, whichever of the two takes over the entries of
maps. -/
theorem Setup.direct_sameReport (hr : EntryRoutine.Interchangeable r r') (n : Nat) (t : Ty) :
    SameReport ((⟨schema, r⟩ : Setup).direct n t) ((⟨schema, r'⟩ : Setup).direct n t) := by
  induction n generalizing t with
  | zero => exact .refl _
  | succ n ih => exact Plan.run_sameReport hr ih n t _

end

end Decant
