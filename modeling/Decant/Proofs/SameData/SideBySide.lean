import Decant.Proofs.Composition
import Decant.Proofs.SameData.Values

/-!
# Decoding values with the same data side by side

* `Dialogue.Tandem` — two dialogues, each led with a cursor of its own, leave the same notes and come to
  related ends. They need not make the same calls.
* `Bond` — what holds between the destinations of two decodings as long as nothing fails, and after a
  failure.
* `Decoding.InStep`, `Decoding.OnValue` — two decodings led with cursors on the same data, which stand
  anywhere, or hold a value whose tag was announced. There is one lemma for each way to put decodings
  together.
* `OnValue.walk` — the rule for going through a container.
-/

namespace Decant

/-! ## Dialogues -/

/-- Led with two cursors, two dialogues leave the same notes and come to related ends, or both run out of
steps. -/
inductive Dialogue.Tandem {α : Type} (R : α → Cursor → α → Cursor → Prop) :
    Dialogue α → Cursor → Dialogue α → Cursor → Prop
  | done {a b : α} {c d : Cursor} (h : R a c b d) : Tandem R (.done a) c (.done b) d
  | exhausted {c d : Cursor} : Tandem R .exhausted c .exhausted d
  | ask {k k' : Call} {next : Answer k → Dialogue α} {next' : Answer k' → Dialogue α} {c d : Cursor}
      (h : Tandem R (next (TokenSource.answer k c).1) (TokenSource.answer k c).2
        (next' (TokenSource.answer k' d).1) (TokenSource.answer k' d).2) :
      Tandem R (.ask k next) c (.ask k' next') d
  | note (n : Note) {x y : Dialogue α} {c d : Cursor} (h : Tandem R x c y d) :
      Tandem R (.note n x) c (.note n y) d

namespace Dialogue.Tandem

variable {α β : Type} {R : α → Cursor → α → Cursor → Prop} {S : β → Cursor → β → Cursor → Prop}
  {x y : Dialogue α} {c d : Cursor}

theorem bind {f g : α → Dialogue β} (h : Tandem R x c y d)
    (hf : ∀ a c b d, R a c b d → Tandem S (f a) c (g b) d) : Tandem S (x.bind f) c (y.bind g) d := by
  induction h with
  | done h => exact hf _ _ _ _ h
  | exhausted => exact .exhausted
  | ask _ ih => exact .ask ih
  | note n _ ih => exact .note n ih

theorem mono {R' : α → Cursor → α → Cursor → Prop} (h : Tandem R x c y d)
    (hr : ∀ a c b d, R a c b d → R' a c b d) : Tandem R' x c y d := by
  have hd := h.bind fun a c b d hab => done (hr a c b d hab)
  rwa [bind_done, bind_done] at hd

theorem run (h : Tandem R x c y d) (s : Schema) (reg reg' : Registry) :
    let r := x.run s c reg
    let q := y.run s d reg'
    r.notes = q.notes ∧ (r.answer = none ∧ q.answer = none ∨
      ∃ a b, r.answer = some a ∧ q.answer = some b ∧ R a r.source b q.source) := by
  induction h with
  | @done a b c d h => exact ⟨rfl, .inr ⟨a, b, rfl, rfl, h⟩⟩
  | exhausted => exact ⟨rfl, .inl ⟨rfl, rfl⟩⟩
  | ask _ ih => exact ih
  | note n _ ih => exact ⟨congrArg (n :: ·) ih.1, ih.2⟩

end Dialogue.Tandem

/-! ## Destinations -/

/-- What holds between the destinations of two decodings as long as nothing fails, and what holds between them
and the errors after a failure. -/
structure Bond (δ : Type) where
  Holds : δ → δ → Prop
  Fails : Error → Error → δ → δ → Prop
  fails : ∀ {e e' x y}, e.Akin e' → Holds x y → Fails e e' x y

namespace Bond

variable {δ : Type}

/-- The destinations are the same. Of a failure nothing is known, unless failures count: then the errors are
akin, and the destinations are the same after it too. -/
def same (counts : Prop) : Bond δ := ⟨Eq, fun e e' x y => counts → e.Akin e' ∧ x = y, fun he hx _ => ⟨he, hx⟩⟩

/-- Nothing is known of the destinations. -/
def any : Bond δ := ⟨fun _ _ => True, fun e e' _ _ => e.Akin e', fun he _ => he⟩

/-- Whether a failure of what is worked on apart counts as one of the whole. -/
def Within {γ : Type} (K : Bond γ) (L : Bond δ) : Prop :=
  ∀ {e e' a b x y}, K.Fails e e' a b → L.Holds x y → L.Fails e e' x y

theorem same_within {γ : Type} {counts counts' : Prop} (h : counts' → counts) :
    (same counts : Bond γ).Within (same counts' : Bond δ) := fun hf hx ht => ⟨(hf (h ht)).1, hx⟩

theorem any_within {γ : Type} (L : Bond δ) : (any : Bond γ).Within L := fun he hx => L.fails he hx

end Bond

/-! ## Decodings -/

namespace Decoding

open Dialogue (Tandem)

variable {δ γ α β : Type} {L : Bond δ} {K : Bond γ} {A : α → α → Prop} {B : β → β → Prop}
  {m m' : Decoding δ α} {f f' : α → Decoding δ β} {v w : Value}

/-- Two ends at the same position, both with a result and a condition on results and destinations, or both
with an error and a condition on errors and destinations. -/
inductive Joint (G : α → α → δ → δ → Prop) (F : Error → Error → δ → δ → Prop) :
    Ending δ α → Cursor → Ending δ α → Cursor → Prop
  | ok {a b : α} {x y : δ} {c d : Cursor} (h : G a b x y) (hc : c.Akin d) : Joint G F ⟨.ok a, x⟩ c ⟨.ok b, y⟩ d
  | error {e e' : Error} {x y : δ} {c d : Cursor} (h : F e e' x y) (hc : c.Akin d) :
      Joint G F ⟨.error e, x⟩ c ⟨.error e', y⟩ d

/-- Ends with related results, at which the bond between the destinations still holds. -/
abbrev Linked (L : Bond δ) (A : α → α → Prop) : Ending δ α → Cursor → Ending δ α → Cursor → Prop :=
  Joint (fun a b x y => A a b ∧ L.Holds x y) L.Fails

/-- Wherever two cursors stand in the same data, two decodings keep a bond between their destinations and
come to related results. -/
def InStep (L : Bond δ) (A : α → α → Prop) (m m' : Decoding δ α) : Prop :=
  ∀ x y c d, L.Holds x y → c.Akin d → Tandem (Linked L A) (m x) c (m' y) d

/-- The same where the cursors hold values that were announced. -/
def OnValue (L : Bond δ) (v w : Value) (A : α → α → Prop) (m m' : Decoding δ α) : Prop :=
  ∀ x y c d, L.Holds x y → c.Akin d → c.current = some v → d.current = some w →
    Tandem (Linked L A) (m x) c (m' y) d

theorem tandem_bind {G : α → α → δ → δ → Prop} {H : β → β → δ → δ → Prop} {F : Error → Error → δ → δ → Prop}
    {x y : δ} {c d : Cursor} (h : Tandem (Joint G F) (m x) c (m' y) d)
    (hf : ∀ a b x y c d, G a b x y → c.Akin d → Tandem (Joint H F) (f a x) c (f' b y) d) :
    Tandem (Joint H F) ((m >>= f) x) c ((m' >>= f') y) d := by
  apply h.bind
  intro e c e' d he
  cases he with
  | ok h hc => exact hf _ _ _ _ _ _ h hc
  | error h hc => exact .done (.error h hc)

namespace InStep

theorem onValue (h : InStep L A m m') : OnValue L v w A m m' := fun x y c d hx hc _ _ => h x y c d hx hc

theorem pure {a b : α} (h : A a b) : InStep L A (pure a : Decoding δ α) (pure b) :=
  fun _ _ _ _ hx hc => .done (.ok ⟨h, hx⟩ hc)

theorem fail {e e' : Error} (h : e.Akin e') : InStep L A (fail e : Decoding δ α) (fail e') :=
  fun _ _ _ _ hx hc => .done (.error (L.fails h hx) hc)

theorem bind (h : InStep L A m m') (hf : ∀ a b, A a b → InStep L B (f a) (f' b)) :
    InStep L B (m >>= f) (m' >>= f') :=
  fun x y c d hx hc => tandem_bind (h x y c d hx hc) fun a b _ _ _ _ hab hc => hf a b hab.1 _ _ _ _ hab.2 hc

theorem map {g g' : α → β} (h : InStep L A m m') (hg : ∀ a b, A a b → B (g a) (g' b)) :
    InStep L B (m >>= fun a => Pure.pure (g a)) (m' >>= fun a => Pure.pure (g' a)) :=
  h.bind fun a b hab => .pure (hg a b hab)

/-- A failure may be caught, as long as what is made of it comes to related ends. -/
theorem recover {g g' : Except Error α → Decoding δ β} (h : InStep L A m m')
    (hok : ∀ a b, A a b → InStep L B (g (.ok a)) (g' (.ok b)))
    (herror : ∀ e e' x y c d, L.Fails e e' x y → c.Akin d →
      Tandem (Linked L B) (g (.error e) x) c (g' (.error e') y) d) :
    InStep L B (attempt m >>= g) (attempt m' >>= g') := by
  intro x y c d hx hc
  show Tandem _ (((m x).bind _).bind _) c (((m' y).bind _).bind _) d
  rw [Dialogue.bind_bind, Dialogue.bind_bind]
  apply (h x y c d hx hc).bind
  intro e c e' d he
  cases he with
  | ok h hc => exact hok _ _ h.1 _ _ _ _ h.2 hc
  | error hx hc => exact herror _ _ _ _ _ _ hx hc

/-- A call whose answer does not depend on the tokens. -/
theorem ask {k : Call} (hk : k.isSteady = true) :
    InStep L Eq (ask k : Decoding δ k.Reply) (ask k) := by
  intro x y c d hx hc
  refine .ask ?_
  obtain ⟨ha, hd⟩ := Cursor.answer_akin hk hc
  generalize (TokenSource.answer k c).1 = a, (TokenSource.answer k d).1 = b at ha
  cases ha with
  | ok a => exact .done (.ok ⟨rfl, hx⟩ hd)
  | error he => exact .done (.error (L.fails he hx) hd)

theorem note (n : Note) : InStep L Eq (note n : Decoding δ Unit) (note n) :=
  fun _ _ _ _ hx hc => .note n (.done (.ok ⟨rfl, hx⟩ hc))

/-- Once a tag was announced, the cursors hold its value. -/
theorem type {f f' : Tag → Decoding δ β}
    (hf : ∀ v w : Value, v.Akin w → OnValue L v w B (f v.tag) (f' w.tag)) :
    InStep L B (Decoding.ask .type >>= f) (Decoding.ask .type >>= f') := by
  intro x y c d hx hc
  refine .ask ?_
  rcases Cursor.announce_akin hc with ⟨ha, hb⟩ | ⟨v, w, hvw, ha, hb⟩
  · rw [ha, hb]
    exact .done (.error (L.fails (.refl _) hx) hc)
  · rw [ha, hb]
    exact hf v w hvw x y _ _ hx ⟨.none, .some hvw, hc.stack⟩ rfl rfl

/-- What is worked on apart leaves the destinations alone. -/
theorem fresh {m m' : Decoding γ α} {start start' : γ} (h : InStep K A m m')
    (hs : K.Holds start start') (hf : K.Within L) : InStep L (fun p q => A p.1 q.1 ∧ K.Holds p.2 q.2)
      (fresh start m : Decoding δ (α × γ)) (fresh start' m') := by
  intro x y c d hx hc
  rw [fresh_apply, fresh_apply]
  apply (h start start' c d hs hc).bind
  intro e c e' d he
  cases he with
  | ok h hc => exact .done (.ok ⟨h, hx⟩ hc)
  | error hk hc => exact .done (.error (hf hk hx) hc)

/-- Working on a part of the same destination. -/
theorem focus {counts : Prop} {part : δ → γ} {put : γ → δ → δ} {m m' : Decoding γ α}
    (h : InStep (.same counts) A m m') : InStep (.same counts) A (focus part put m) (focus part put m') := by
  rintro x _ c d rfl hc
  rw [focus_apply, focus_apply]
  apply (h (part x) (part x) c d rfl hc).bind
  intro e c e' d he
  cases he with
  | ok h hc => exact .done (.ok ⟨h.1, congrArg (put · x) h.2⟩ hc)
  | error hk hc =>
    exact .done (.error (fun ht => ⟨(hk ht).1, congrArg (put · x) (hk ht).2⟩) hc)

theorem truncated {counts : Prop} (h : InStep (.same counts) A m m') :
    InStep (.same counts) A (truncated m) (truncated m') := by
  intro x y c d hx hc
  apply (h x y c d hx hc).bind
  intro e c e' d he
  cases he with
  | ok h hc => exact .done (.ok h hc)
  | error hx hc => exact .done (.error (fun ht => ⟨(hx ht).1.truncate, (hx ht).2⟩) hc)

/-- Less may be asked of failures. -/
theorem uncounted {counts counts' : Prop} (h : InStep (.same counts) A m m') (ht : counts' → counts) :
    InStep (.same counts') A m m' := by
  intro x y c d hx hc
  apply (h x y c d hx hc).mono
  intro e c e' d he
  cases he with
  | ok h hc => exact .ok h hc
  | error hx hc => exact .error (fun h => hx (ht h)) hc

end InStep

namespace OnValue

theorem bind (h : OnValue L v w A m m') (hf : ∀ a b, A a b → InStep L B (f a) (f' b)) :
    OnValue L v w B (m >>= f) (m' >>= f') :=
  fun x y c d hx hc hv hw =>
    tandem_bind (h x y c d hx hc hv hw) fun a b _ _ _ _ hab hc => hf a b hab.1 _ _ _ _ hab.2 hc

theorem map {g g' : α → β} (h : OnValue L v w A m m') (hg : ∀ a b, A a b → B (g a) (g' b)) :
    OnValue L v w B (m >>= fun a => Pure.pure (g a)) (m' >>= fun a => Pure.pure (g' a)) :=
  h.bind fun a b hab => .pure (hg a b hab)

/-- The calls that belong to the values at hand take them. -/
theorem take (k k' : Call) {a : k.Reply} {b : k'.Reply} {f : k.Reply → Decoding δ β}
    {f' : k'.Reply → Decoding δ β} (ha : Cursor.give? k v = some a) (hb : Cursor.give? k' w = some b)
    (hf : InStep L B (f a) (f' b)) : OnValue L v w B (ask k >>= f) (ask k' >>= f') := by
  intro x y c d hx hc hv hw
  refine .ask ?_
  rw [Cursor.answer_of_give hv ha, Cursor.answer_of_give hw hb]
  exact hf x y _ _ hx ⟨hc.next, .none, hc.stack⟩

end OnValue

/-! ### Walking through containers -/

namespace InStep

theorem hasNext (k : Container) (i : Nat) : InStep L Eq (hasNext k i : Decoding δ Bool) (hasNext k i) := by
  intro x y c d hx hc
  refine .ask ?_
  obtain ⟨ha, hd⟩ := Cursor.answer_akin (k := .next k i) rfl hc
  generalize (TokenSource.answer (.next k i) c).1 = a, (TokenSource.answer (.next k i) d).1 = b at ha
  cases ha with
  | ok a => exact .done (.ok ⟨rfl, hx⟩ hd)
  | @error e e' he =>
    cases he with
    | typeConversion ht expected => exact .done (.error (L.fails (.typeConversion ht expected) hx) hd)
    | refl =>
      cases e with
      | ended => exact .done (.ok ⟨rfl, hx⟩ hd)
      | _ => exact .done (.error (L.fails (.refl _) hx) hd)

end InStep

section

variable {J : Nat → δ → δ → Prop} {F : Error → Error → δ → δ → Prop} {body body' : Nat → Decoding δ Unit}

theorem walkFrom_tandem (k : Container) (length : Option Nat)
    (hF : ∀ i x y e e', J i x y → e.Akin e' → F e e' x y)
    (hb : ∀ i x y c d, J i x y → c.Akin d →
      Tandem (Joint (fun _ _ => J (i + 1)) F) (body i x) c (body' i y) d) :
    ∀ (n i : Nat) {x y : δ} {c d : Cursor}, J i x y → c.Akin d →
      Tandem (Joint (fun i j x y => i = j ∧ J i x y) F) (walkFrom k length body n i x) c
        (walkFrom k length body' n i y) d
  | 0, _, _, _, _, _, _, _ => .exhausted
  | n + 1, i, x, y, c, d, hj, hc => by
    have hon : InStep ⟨J i, F, fun he hx => hF i _ _ _ _ hx he⟩ Eq (goesOn k length i : Decoding δ Bool)
        (goesOn k length i) := by
      unfold goesOn
      split
      · exact .hasNext k i
      · exact .pure rfl
    unfold walkFrom
    split
    · exact .done (.ok ⟨rfl, hj⟩ hc)
    · apply tandem_bind (hon x y c d hj hc)
      rintro more _ x y c d ⟨rfl, hj⟩ hc
      split
      · apply tandem_bind (hb i x y c d hj hc)
        intro _ _ x y c d hj hc
        exact walkFrom_tandem k length hF hb n (i + 1) hj hc
      · exact .done (.ok ⟨rfl, hj⟩ hc)

/-- **Going through a container side by side**, with an invariant that every element carries on. Neither the
kind of the container nor its length tells how the data was carried, so the tags are the same if it was gone
through. -/
theorem walk_tandem (k : Container) (n : Nat) {tag tag' : Tag} (ht : tag.Akin tag')
    (hF : ∀ i x y e e', J i x y → e.Akin e' → F e e' x y)
    (hb : ∀ i x y c d, J i x y → c.Akin d →
      Tandem (Joint (fun _ _ => J (i + 1)) F) (body i x) c (body' i y) d)
    {x y : δ} {c d : Cursor} (hj : J 0 x y) (hc : c.Akin d) :
    Tandem (Joint (fun i j x y => (i = j ∧ tag = tag') ∧ J i x y) F) (walk k n tag body x) c
      (walk k n tag' body' y) d := by
  have hask : ∀ (c : Call) (i : Nat), c.isSteady = true →
      InStep ⟨J i, F, fun he hx => hF i _ _ _ _ hx he⟩ Eq (ask c : Decoding δ c.Reply) (ask c) :=
    fun _ _ => InStep.ask
  have hnil : tag = .nil ↔ tag' = .nil := ht.eq_iff (by decide)
  have hkind : tag = k.tag ↔ tag' = k.tag := ht.eq_iff (by cases k <;> decide)
  unfold walk
  by_cases h : tag = .nil
  · rw [if_pos h, if_pos (hnil.1 h)]
    apply tandem_bind (hask .nil 0 rfl x y c d hj hc)
    intro _ _ x y c d hj hc
    exact .done (.ok ⟨⟨rfl, h.trans (hnil.1 h).symm⟩, hj.2⟩ hc)
  · rw [if_neg h, if_neg fun h' => h (hnil.2 h')]
    by_cases h : tag = k.tag
    · rw [if_pos h, if_pos (hkind.1 h)]
      apply tandem_bind (hask (.enter k) 0 rfl x y c d hj hc)
      rintro length _ x y c d ⟨rfl, hj⟩ hc
      apply tandem_bind (walkFrom_tandem k length hF hb n 0 hj hc)
      rintro count _ x y c d ⟨rfl, hj⟩ hc
      apply tandem_bind (hask (.leave k count) count rfl x y c d hj hc)
      intro _ _ x y c d hj hc
      exact .done (.ok ⟨⟨rfl, h.trans (hkind.1 h).symm⟩, hj.2⟩ hc)
    · rw [if_neg h, if_neg fun h' => h (hkind.2 h')]
      exact .done (.error (hF 0 x y _ _ hj (.typeConversion ht k.tag)) hc)

/-- The same with a bond that every element keeps. -/
theorem InStep.walk (k : Container) (n : Nat) {tag tag' : Tag} (ht : tag.Akin tag')
    (hb : ∀ i, InStep L Eq (body i) (body' i)) :
    InStep L (fun i j => i = j ∧ tag = tag') (walk k n tag body) (walk k n tag' body') := by
  intro x y c d hx hc
  refine walk_tandem (J := fun _ => L.Holds) k n ht (fun _ _ _ _ _ hx he => L.fails he hx) ?_ hx hc
  intro i x y c d hx hc
  apply (hb i x y c d hx hc).mono
  intro e c e' d he
  cases he with
  | ok h hc => exact .ok h.2 hc
  | error h hc => exact .error h hc

end

/-! ### Texts -/

namespace OnValue

/-- The text of a string and the same bytes are read alike. -/
theorem readText (h : v.Akin w) (expected : Tag) :
    OnValue L v w Eq (readText v.tag expected : Decoding δ ByteArray) (readText w.tag expected) := by
  have hbind : ∀ tag, (Decoding.readText tag expected : Decoding δ ByteArray) =
      Decoding.readText tag expected >>= pure := fun _ => (bind_pure _).symm
  cases h with
  | refl v =>
    cases v with
    | nil => exact ((InStep.ask rfl).map fun _ _ _ => rfl).onValue
    | string s =>
      rw [hbind]
      exact take .string .string rfl rfl (.pure rfl)
    | bytes b =>
      rw [hbind]
      exact take .bytes .bytes rfl rfl (.pure rfl)
    | _ => exact (InStep.fail (.refl _)).onValue
  | stringBytes s =>
    rw [hbind (Value.string s).tag, hbind (Value.bytes s.toUTF8).tag]
    exact take (v := .string s) (w := .bytes s.toUTF8) .string .bytes rfl rfl (.pure rfl)
  | bytesString s =>
    rw [hbind (Value.string s).tag, hbind (Value.bytes s.toUTF8).tag]
    exact take (v := .bytes s.toUTF8) (w := .string s) .bytes .string rfl rfl (.pure rfl)
  | intUint h => exact (InStep.fail (.typeConversion .intUint expected)).onValue
  | uintInt h => exact (InStep.fail (.typeConversion .uintInt expected)).onValue
  | array => exact (InStep.fail (.refl _)).onValue
  | map => exact (InStep.fail (.refl _)).onValue

theorem readString (h : v.Akin w) (expected : Tag) :
    OnValue L v w Eq (readString v.tag expected : Decoding δ String) (readString w.tag expected) := by
  apply (readText h expected).bind
  rintro b _ rfl
  cases Utf8.read b with
  | ok s => exact .pure rfl
  | error fault => exact .fail (.refl _)

end OnValue

end Decoding

end Decant
