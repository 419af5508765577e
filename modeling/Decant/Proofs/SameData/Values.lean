import Decant.Source.Cursor
import Mathlib.Data.List.Forall2

/-!
# Values with the same data

* `Value.Akin` — values that carry the same data, where a string may stand for the bytes of its text, and a
  signed integer for the unsigned one of the same number, anywhere in them.
* `Tag.Akin`, `Error.Akin` — what may differ between the tags that such values announce, and between the
  failures that they lead to.
* `Cursor.Akin` — cursors at the same position of such values.
* `Cursor.answer_akin` — they answer alike, apart from the calls for tags, integers and texts.
-/

namespace Decant

/-! ## Values -/

/-- Tags of values that may carry the same data. -/
inductive Tag.Akin : Tag → Tag → Prop
  | refl (t : Tag) : Akin t t
  | stringBytes : Akin .string .bytes
  | bytesString : Akin .bytes .string
  | intUint : Akin .int .uint
  | uintInt : Akin .uint .int

theorem Tag.Akin.eq_iff {t u v : Tag} (h : t.Akin u)
    (hv : v ≠ .string ∧ v ≠ .bytes ∧ v ≠ .int ∧ v ≠ .uint) : t = v ↔ u = v := by
  obtain ⟨hs, hb, hi, hu⟩ := hv
  cases h with
  | refl t => exact Iff.rfl
  | stringBytes => exact ⟨fun h => absurd h.symm hs, fun h => absurd h.symm hb⟩
  | bytesString => exact ⟨fun h => absurd h.symm hb, fun h => absurd h.symm hs⟩
  | intUint => exact ⟨fun h => absurd h.symm hi, fun h => absurd h.symm hu⟩
  | uintInt => exact ⟨fun h => absurd h.symm hu, fun h => absurd h.symm hi⟩

/-- Two errors are the same but for the tag that was found. -/
inductive Error.Akin : Error → Error → Prop
  | refl (e : Error) : Akin e e
  | typeConversion {found found' : Tag} (h : found.Akin found') (expected : Tag) :
      Akin (.typeConversion found expected) (.typeConversion found' expected)

theorem Error.Akin.truncate {e e' : Error} (h : e.Akin e') : e.truncate.Akin e'.truncate := by
  cases h with
  | refl e => exact .refl _
  | typeConversion h expected => exact .typeConversion h expected

/-- Values that carry the same data. -/
inductive Value.Akin : Value → Value → Prop
  | refl (v : Value) : Akin v v
  | stringBytes (s : String) : Akin (.string s) (.bytes s.toUTF8)
  | bytesString (s : String) : Akin (.bytes s.toUTF8) (.string s)
  | intUint {n : Int64} {m : UInt64} (h : n.toInt = m.toNat) : Akin (.int n) (.uint m)
  | uintInt {n : Int64} {m : UInt64} (h : n.toInt = m.toNat) : Akin (.uint m) (.int n)
  | array {items items' : List Value} (hl : items.length = items'.length)
      (h : ∀ (i : Nat) v w, items[i]? = some v → items'[i]? = some w → Akin v w) :
      Akin (.array items) (.array items')
  | map {entries entries' : List (Value × Value)} (hl : entries.length = entries'.length)
      (hk : ∀ (i : Nat) e f, entries[i]? = some e → entries'[i]? = some f → Akin e.1 f.1)
      (hv : ∀ (i : Nat) e f, entries[i]? = some e → entries'[i]? = some f → Akin e.2 f.2) :
      Akin (.map entries) (.map entries')

namespace Value.Akin

variable {v w : Value}

theorem tag (h : v.Akin w) : v.tag.Akin w.tag := by
  cases h with
  | refl v => exact .refl _
  | stringBytes s => exact .stringBytes
  | bytesString s => exact .bytesString
  | intUint h => exact .intUint
  | uintInt h => exact .uintInt
  | array hl h => exact .refl _
  | map hl hk hv => exact .refl _

theorem arrayOf {items items' : List Value} (h : List.Forall₂ Akin items items') :
    (Value.array items).Akin (.array items') := by
  obtain ⟨hl, hget⟩ := List.forall₂_iff_get.1 h
  refine .array hl fun i v w hv hw => ?_
  obtain ⟨hi, rfl⟩ := List.getElem?_eq_some_iff.1 hv
  obtain ⟨hi', rfl⟩ := List.getElem?_eq_some_iff.1 hw
  exact hget i hi hi'

theorem mapOf {entries entries' : List (Value × Value)}
    (h : List.Forall₂ (fun e f => e.1.Akin f.1 ∧ e.2.Akin f.2) entries entries') :
    (Value.map entries).Akin (.map entries') := by
  obtain ⟨hl, hget⟩ := List.forall₂_iff_get.1 h
  have hboth : ∀ (i : Nat) e f, entries[i]? = some e → entries'[i]? = some f →
      e.1.Akin f.1 ∧ e.2.Akin f.2 := by
    intro i e f he hf
    obtain ⟨hi, rfl⟩ := List.getElem?_eq_some_iff.1 he
    obtain ⟨hi', rfl⟩ := List.getElem?_eq_some_iff.1 hf
    exact hget i hi hi'
  exact .map hl (fun i e f he hf => (hboth i e f he hf).1) fun i e f he hf => (hboth i e f he hf).2

end Value.Akin

/-! ## Positions -/

/-- Two values that may be there, and carry the same data if they are. -/
abbrev Value.MaybeAkin : Option Value → Option Value → Prop := Option.Rel Value.Akin

theorem Value.MaybeAkin.refl (v : Option Value) : Value.MaybeAkin v v := by
  cases v with
  | none => exact .none
  | some v => exact .some (.refl v)

/-- Containers of the same kind and length, with the same data at each position. -/
structure Frame.Akin (f g : Frame) : Prop where
  kind : f.kind = g.kind
  length : f.length = g.length
  head : ∀ i, Value.MaybeAkin (f.head? i) (g.head? i)
  value : ∀ i, Value.MaybeAkin (f.value? i) (g.value? i)

namespace Frame.Akin

theorem refl (f : Frame) : f.Akin f := ⟨rfl, rfl, fun _ => .refl _, fun _ => .refl _⟩

/-- Lists of the same length have related things at each position, if at any. -/
theorem rel_getElem? {α : Type} {xs ys : List α} {R : Value → Value → Prop} {p : α → Value}
    (hl : xs.length = ys.length) (i : Nat)
    (h : ∀ x y, xs[i]? = some x → ys[i]? = some y → R (p x) (p y)) :
    Option.Rel R (xs[i]?.map p) (ys[i]?.map p) := by
  by_cases hi : i < xs.length
  · have hi' : i < ys.length := hl ▸ hi
    rw [List.getElem?_eq_getElem hi, List.getElem?_eq_getElem hi']
    exact .some (h _ _ (List.getElem?_eq_getElem hi) (List.getElem?_eq_getElem hi'))
  · rw [List.getElem?_eq_none (Nat.le_of_not_lt hi), List.getElem?_eq_none (by omega)]
    exact .none

theorem of_value {v w : Value} (h : v.Akin w) :
    Option.Rel Frame.Akin (Frame.ofValue? v) (Frame.ofValue? w) := by
  cases h with
  | refl v =>
    cases hv : Frame.ofValue? v with
    | none => exact .none
    | some f => exact .some (.refl f)
  | stringBytes s => exact .none
  | bytesString s => exact .none
  | intUint h => exact .none
  | uintInt h => exact .none
  | @array items items' hl h =>
    refine .some ⟨rfl, hl, fun i => ?_, fun i => .none⟩
    have hi := rel_getElem? (p := id) hl i (h i)
    rwa [Option.map_id] at hi
  | map hl hk hv =>
    exact .some ⟨rfl, hl, fun i => rel_getElem? hl i (hk i), fun i => rel_getElem? hl i (hv i)⟩

end Frame.Akin

/-- Cursors at the same position of values with the same data. -/
structure Cursor.Akin (c d : Cursor) : Prop where
  next : Value.MaybeAkin c.next d.next
  current : Value.MaybeAkin c.current d.current
  stack : List.Forall₂ Frame.Akin c.stack d.stack

/-- Two answers bring the same, or fail alike. -/
inductive Answer.Akin {c : Call} : Answer c → Answer c → Prop
  | ok (a : c.Reply) : Akin (.ok a) (.ok a)
  | error {e e' : Error} (h : e.Akin e') : Akin (.error e) (.error e')

/-- Whether what a call brings does not depend on which of several tokens carried the data. -/
def Call.isSteady : Call → Bool
  | type | int | uint | string | bytes => false
  | _ => true

namespace Cursor

theorem akin_ofValue {v w : Value} (h : v.Akin w) : (ofValue v).Akin (ofValue w) := ⟨.some h, .none, .nil⟩

variable {c d : Cursor}

theorem mismatch_akin {v w : Option Value} (h : Value.MaybeAkin v w) (expected : Tag) :
    (mismatch v expected).Akin (mismatch w expected) := by
  cases h with
  | none => exact .refl _
  | some h => exact .typeConversion h.tag expected

theorem give?_akin {k : Call} (hk : k.isSteady = true) {v w : Value} (h : v.Akin w) :
    give? k v = give? k w := by
  cases h with
  | refl v => rfl
  | _ => cases k <;> first | rfl | cases hk

theorem take_akin {k : Call} (hk : k.isSteady = true) (expected : Tag) (h : c.Akin d) :
    (take k expected c).1.Akin (take k expected d).1 ∧ (take k expected c).2.Akin (take k expected d).2 := by
  refine ⟨?_, h.next, .none, h.stack⟩
  have hcur := h.current
  unfold take
  generalize c.current = v, d.current = w at hcur
  have hmis := mismatch_akin hcur expected
  cases hcur with
  | none => exact .error hmis
  | @some v w hvw =>
    rw [Option.bind_some, Option.bind_some, give?_akin hk hvw]
    cases give? k w with
    | none => exact .error hmis
    | some a => exact .ok a

theorem enter_akin (k : Container) (h : c.Akin d) :
    (enter k c).1.Akin (enter k d).1 ∧ (enter k c).2.Akin (enter k d).2 := by
  have hcur := h.current
  have hmis := mismatch_akin hcur k.tag
  have hframe : Option.Rel Frame.Akin (c.current.bind Frame.ofValue?) (d.current.bind Frame.ofValue?) := by
    generalize c.current = v, d.current = w at hcur
    cases hcur with
    | none => exact .none
    | some hvw => exact Frame.Akin.of_value hvw
  unfold enter
  generalize c.current.bind Frame.ofValue? = f, d.current.bind Frame.ofValue? = g at hframe
  cases hframe with
  | none => exact ⟨.error hmis, h.next, .none, h.stack⟩
  | @some f g hfg =>
    simp only [hfg.kind, hfg.length]
    split
    · exact ⟨.ok _, hfg.head 0, .none, .cons hfg h.stack⟩
    · exact ⟨.error hmis, h.next, .none, h.stack⟩

/-- What is asked of the innermost container. -/
theorem innermost_akin (k : Container) (h : c.Akin d) :
    (∃ f g, c.innermost k = .ok f ∧ d.innermost k = .ok g ∧ f.Akin g) ∨
      ∃ e, c.innermost k = .error e ∧ d.innermost k = .error e := by
  have hstack := h.stack
  unfold innermost
  generalize c.stack = fs, d.stack = gs at hstack
  cases hstack with
  | nil => exact .inr ⟨_, rfl, rfl⟩
  | @cons f g fs gs hfg _ =>
    simp only [hfg.kind]
    split
    · exact .inl ⟨f, g, rfl, rfl, hfg⟩
    · exact .inr ⟨_, rfl, rfl⟩

theorem go_akin (k : Container) {pick : Frame → Option Value}
    (hp : ∀ f g : Frame, f.Akin g → Value.MaybeAkin (pick f) (pick g)) (h : c.Akin d) :
    (go k pick c).1 = (go k pick d).1 ∧ (go k pick c).2.Akin (go k pick d).2 := by
  unfold go
  rcases innermost_akin k h with ⟨f, g, hf, hg, hfg⟩ | ⟨e, hf, hg⟩
  · rw [hf, hg]
    have hpick := hp f g hfg
    dsimp only
    generalize pick f = v, pick g = w at hpick
    cases hpick with
    | none => exact ⟨rfl, h⟩
    | some hvw => exact ⟨rfl, .some hvw, h.current, h.stack⟩
  · rw [hf, hg]
    exact ⟨rfl, h⟩

theorem leave_akin (k : Container) (h : c.Akin d) :
    (leave k c).1 = (leave k d).1 ∧ (leave k c).2.Akin (leave k d).2 := by
  unfold leave
  rcases innermost_akin k h with ⟨f, g, hf, hg, -⟩ | ⟨e, hf, hg⟩
  · rw [hf, hg]
    refine ⟨rfl, h.next, h.current, ?_⟩
    have hstack := h.stack
    generalize c.stack = fs, d.stack = gs at hstack
    cases hstack with
    | nil => exact .nil
    | cons _ hstack => exact hstack
  · rw [hf, hg]
    exact ⟨rfl, h⟩

end Cursor

/-- Asked for a tag, cursors announce akin tags of values that they hold from then on, or neither has a
value to announce. -/
theorem Cursor.announce_akin {c d : Cursor} (h : c.Akin d) :
    (TokenSource.answer .type c = (.error .ended, c) ∧ TokenSource.answer .type d = (.error .ended, d)) ∨
      ∃ v w : Value, v.Akin w ∧ TokenSource.answer .type c = (.ok v.tag, ⟨none, some v, c.stack⟩) ∧
        TokenSource.answer .type d = (.ok w.tag, ⟨none, some w, d.stack⟩) := by
  have hnext := h.next
  show (announce c = _ ∧ announce d = _) ∨ ∃ v w : Value, v.Akin w ∧ announce c = _ ∧ announce d = _
  unfold announce
  generalize c.next = v, d.next = w at hnext
  cases hnext with
  | none => exact .inl ⟨rfl, rfl⟩
  | some hvw => exact .inr ⟨_, _, hvw, rfl, rfl⟩

/-- A call that belongs to the value at hand takes it. -/
theorem Cursor.answer_of_give {c : Cursor} {k : Call} {v : Value} {a : k.Reply} (hc : c.current = some v)
    (ha : give? k v = some a) : TokenSource.answer k c = (.ok a, { c with current := none }) := by
  have htake : ∀ expected, take k expected c = (.ok a, { c with current := none }) := by
    intro expected
    unfold take
    rw [hc, Option.bind_some, ha]
  cases k with
  | type | enter | next | leave | toValue => cases v <;> cases ha
  | _ => exact htake _

theorem Answer.Akin.of_eq {k : Call} {a b : Answer k} (h : a = b) : a.Akin b := by
  subst h
  cases a with
  | ok a => exact .ok a
  | error e => exact .error (.refl e)

/-- **Cursors on the same data answer alike**, and stay at the same position. -/
theorem Cursor.answer_akin {c d : Cursor} {k : Call} (hk : k.isSteady = true) (h : c.Akin d) :
    (TokenSource.answer k c).1.Akin (TokenSource.answer k d).1 ∧
      (TokenSource.answer k c).2.Akin (TokenSource.answer k d).2 := by
  have of_eq : ∀ {a b : Answer k} {x y : Cursor}, a = b ∧ x.Akin y → a.Akin b ∧ x.Akin y :=
    fun h => ⟨.of_eq h.1, h.2⟩
  cases k with
  | type | int | uint | string | bytes => cases hk
  | enter k => exact enter_akin k h
  | next k n => exact of_eq (go_akin k (fun f g hfg => hfg.head n) h)
  | leave k n => exact of_eq (leave_akin k h)
  | toValue n => exact of_eq (go_akin .map (fun f g hfg => hfg.value n) h)
  | _ => exact take_akin rfl _ h

end Decant
