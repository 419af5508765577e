import Decant.Proofs.OneToken
import Decant.Proofs.SameData.SideBySide

/-!
# Strategies that do not tell tokens with the same data apart

* `Strategy.Steady` — a strategy that makes the same of values with the same data, wherever they stand.
* `Strategy.Loose` — one of which only that is kept that both succeed or both fail, and that both cursors
  stand at the same position after it.
* One lemma for each decoder of a leaf, a container or a record: it is steady if the strategies of the types
  in it are, and what is dropped has a loose one.

Two decoders are not steady. Values of no fixed type keep the tag, and floats are rounded from integers.
-/

namespace Decant

namespace Strategy

/-- Values with the same data are made the same of, and taken off alike. If failures count, they are akin and
leave the same. -/
def Steady (counts : Prop) (f : Strategy) : Prop := Decoding.InStep (.same counts) Tag.Akin f f

/-- Values with the same data are taken off alike, and failures are akin. -/
def Loose (f : Strategy) : Prop := Decoding.InStep .any (fun _ _ => True) f f

end Strategy

namespace Decoding

open Dialogue (Tandem)
open Strategy (Steady Loose)

variable {counts : Prop} {δ α β : Type} {L : Bond δ} {v w : Value}
  {times : TimeFormat}

/-! ## Leaves -/

theorem narrow_inStep (k : IntKind) (n : Int) :
    InStep L Eq (narrow k n : Decoding δ Content) (narrow k n) := by
  unfold narrow
  split
  · exact .pure rfl
  · exact .fail (.refl _)

theorem readScalar_bool {tag tag' : Tag} (h : tag.Akin tag') :
    InStep L Eq (readScalar times .bool tag : Decoding δ Content) (readScalar times .bool tag') := by
  cases h with
  | refl =>
    cases tag with
    | bool => exact (InStep.ask rfl).map fun _ _ h => congrArg Content.bool h
    | _ => exact .fail (.refl _)
  | stringBytes => exact .fail (.typeConversion .stringBytes _)
  | bytesString => exact .fail (.typeConversion .bytesString _)
  | intUint => exact .fail (.typeConversion .intUint _)
  | uintInt => exact .fail (.typeConversion .uintInt _)

/-- Of an integer only its number counts. -/
theorem readScalar_int (k : IntKind) (h : v.Akin w) :
    OnValue L v w Eq (readScalar times (.int k) v.tag : Decoding δ Content)
      (readScalar times (.int k) w.tag) := by
  cases h with
  | refl =>
    cases v with
    | int n => exact .take .int .int rfl rfl (narrow_inStep k _)
    | uint n => exact .take .uint .uint rfl rfl (narrow_inStep k _)
    | _ => exact (InStep.fail (.refl _)).onValue
  | @intUint n m h =>
    refine .take (v := .int n) (w := .uint m) .int .uint rfl rfl ?_
    rw [h]
    exact narrow_inStep k _
  | @uintInt n m h =>
    refine .take (v := .uint m) (w := .int n) .uint .int rfl rfl ?_
    rw [h]
    exact narrow_inStep k _
  | stringBytes => exact (InStep.fail (.typeConversion .stringBytes _)).onValue
  | bytesString => exact (InStep.fail (.typeConversion .bytesString _)).onValue
  | array => exact (InStep.fail (.refl _)).onValue
  | map => exact (InStep.fail (.refl _)).onValue

/-- Scalars that are no floats are read alike. Points in time and spans of time have tags of their own, or
are written as text. -/
theorem readScalar_onValue {L : Bond Content} {k : Scalar} (hk : k ≠ .single ∧ k ≠ .double)
    (h : v.Akin w) : OnValue L v w Eq (readScalar times k v.tag) (readScalar times k w.tag) := by
  cases k with
  | single => exact absurd rfl hk.1
  | double => exact absurd rfl hk.2
  | bool => exact (readScalar_bool h.tag).onValue
  | int k => exact readScalar_int k h
  | text => exact (OnValue.readString h .string).map fun _ _ h => congrArg Content.text h
  | blob => exact (OnValue.readText h .bytes).map fun _ _ h => congrArg Content.blob h
  | time =>
    have htag : v.tag = .time ↔ w.tag = .time := h.tag.eq_iff (by decide)
    by_cases hv : v.tag = .time
    · rw [hv, htag.1 hv]
      exact ((InStep.ask rfl).map fun _ _ h => congrArg Content.time h).onValue
    · rw [readScalar_time hv, readScalar_time (mt htag.2 hv)]
      apply (OnValue.readString h .time).bind
      rintro s _ rfl
      cases times.parse s with
      | ok t => exact .pure rfl
      | error fault => exact .fail (.refl _)
  | duration =>
    have htag : v.tag = .duration ↔ w.tag = .duration := h.tag.eq_iff (by decide)
    by_cases hv : v.tag = .duration
    · rw [hv, htag.1 hv]
      exact ((InStep.ask rfl).map fun _ _ h => congrArg Content.duration h).onValue
    · rw [readScalar_duration hv, readScalar_duration (mt htag.2 hv)]
      apply (OnValue.readString h .duration).bind
      rintro s _ rfl
      cases Duration.ofText? s with
      | some t => exact .pure rfl
      | none => exact .fail (.refl _)

/-- Both end by setting their destinations to the same. -/
theorem setting_inStep {tag tag' : Tag} (c : Content) (h : tag.Akin tag') :
    InStep (.same counts) Tag.Akin (MonadStateOf.set c >>= fun _ => pure tag : Strategy)
      (MonadStateOf.set c >>= fun _ => pure tag') :=
  fun _ _ _ _ _ hc => .done (.ok ⟨h, rfl⟩ hc)

theorem scalar_steady {k : Scalar} (hk : k ≠ .single ∧ k ≠ .double) : Steady counts (scalar times k) := by
  apply InStep.type
  intro v w h
  have hnil : v.tag = .nil ↔ w.tag = .nil := h.tag.eq_iff (by decide)
  dsimp only
  by_cases hv : v.tag = .nil
  · rw [if_pos hv, if_pos (hnil.1 hv)]
    exact ((InStep.ask rfl).bind fun _ _ _ => setting_inStep _ h.tag).onValue
  · rw [if_neg hv, if_neg (mt hnil.2 hv)]
    apply (readScalar_onValue hk h).bind
    rintro c _ rfl
    exact setting_inStep c h.tag

theorem bytes_steady : Steady counts bytes := by
  apply InStep.type
  intro v w h
  apply (OnValue.readText h .bytes).bind
  rintro b _ rfl
  exact setting_inStep _ h.tag

theorem text_steady (accept : Content → ByteArray → Content × Option Error) :
    Steady counts (text accept) := by
  apply InStep.type
  intro v w h
  apply (OnValue.readText h .string).bind
  rintro b _ rfl x _ c d rfl hc
  show Tandem _ (taken v.tag (accept x b) x) c (taken w.tag (accept x b) x) d
  generalize accept x b = outcome
  obtain ⟨y, _ | e⟩ := outcome
  · exact .done (.ok ⟨h.tag, rfl⟩ hc)
  · exact .done (.error (fun _ => ⟨.refl e, rfl⟩) hc)

theorem error_steady (initial : Content) (build : ErrorValue → Content) :
    Steady counts (error initial build) := by
  apply InStep.type
  intro v w h
  have htext : OnValue (.same counts) v w Tag.Akin
      (do
        set (build ⟨Utf8.lossy (← readText v.tag .error)⟩)
        return v.tag : Strategy)
      (do
        set (build ⟨Utf8.lossy (← readText w.tag .error)⟩)
        return w.tag : Strategy) := by
    apply (OnValue.readText h .error).bind
    rintro b _ rfl
    exact setting_inStep _ h.tag
  cases h with
  | refl =>
    cases v with
    | nil => exact ((InStep.ask rfl).bind fun _ _ _ => setting_inStep _ (.refl _)).onValue
    | error e =>
      refine ((InStep.ask rfl).bind ?_).onValue
      rintro e _ rfl
      exact setting_inStep _ (.refl _)
    | string s => exact htext
    | bytes b => exact htext
    | _ => exact (InStep.fail (.refl _)).onValue
  | stringBytes => exact htext
  | bytesString => exact htext
  | intUint => exact (InStep.fail (.typeConversion .intUint _)).onValue
  | uintInt => exact (InStep.fail (.typeConversion .uintInt _)).onValue
  | array => exact (InStep.fail (.refl _)).onValue
  | map => exact (InStep.fail (.refl _)).onValue

/-! ## Values of no fixed type -/

variable {nested : Ty → Strategy} {n : Nat}

theorem value_inStep {f : Strategy} (hf : Loose f) :
    InStep L (fun _ _ => True) (value f : Decoding δ Value) (value f) :=
  (InStep.fresh hf trivial L.any_within).map fun _ _ _ => trivial

theorem discard_inStep {f : Strategy} (hf : Loose f) :
    InStep L Eq (discard f : Decoding δ Unit) (discard f) :=
  (value_inStep hf).map fun _ _ _ => rfl

/-- What is collected while nothing is known of it. -/
theorem collecting_inStep {ε : Type} (x y : ε) :
    InStep (.any : Bond (List ε)) Eq (modify (· ++ [x])) (modify (· ++ [y])) :=
  fun _ _ _ _ _ hc => .done (.ok ⟨rfl, trivial⟩ hc)

theorem dynamicItems_inStep (hd : Loose (nested .dynamic)) :
    InStep .any (fun _ _ => True) (dynamicItems (fun u => pure (nested u)) n)
      (dynamicItems (fun u => pure (nested u)) n) := by
  unfold dynamicItems
  rw [pure_bind]
  refine (InStep.fresh (K := .any) (.walk .array n (.refl _) fun i => ?_) trivial
    (Bond.any_within _)).map fun _ _ _ => trivial
  exact (value_inStep hd).bind fun v w _ => collecting_inStep v w

theorem dynamicEntries_inStep (hd : Loose (nested .dynamic)) :
    InStep .any (fun _ _ => True) (dynamicEntries none (fun u => pure (nested u)) n)
      (dynamicEntries none (fun u => pure (nested u)) n) := by
  unfold dynamicEntries
  simp only [pure_bind]
  refine (InStep.fresh (K := .any) (.walk .map n (.refl _) fun i => ?_) trivial
    (Bond.any_within _)).map fun _ _ _ => trivial
  have hentry : InStep .any (fun _ _ => True) (dynamicEntry (nested .dynamic) i :
      Decoding (List (Value × Value)) (Value × Value)) (dynamicEntry (nested .dynamic) i) := by
    apply (value_inStep hd).bind
    intro k k' _
    apply (InStep.ask rfl).bind
    intro _ _ _
    exact (value_inStep hd).map fun _ _ _ => trivial
  exact hentry.bind fun e e' _ => collecting_inStep e e'

theorem readDynamic_onValue (hd : Loose (nested .dynamic)) (h : v.Akin w) :
    OnValue .any v w (fun _ _ => True) (readDynamic none (fun u => pure (nested u)) n v.tag)
      (readDynamic none (fun u => pure (nested u)) n w.tag) := by
  have hitems : InStep .any (fun _ _ => True) (readDynamic none (fun u => pure (nested u)) n .array)
      (readDynamic none (fun u => pure (nested u)) n .array) :=
    (dynamicItems_inStep hd).map fun _ _ _ => trivial
  have hentries : InStep .any (fun _ _ => True) (readDynamic none (fun u => pure (nested u)) n .map)
      (readDynamic none (fun u => pure (nested u)) n .map) :=
    (dynamicEntries_inStep hd).map fun _ _ _ => trivial
  cases h with
  | refl =>
    cases v with
    | int i => exact .take .int .int rfl rfl (.pure trivial)
    | uint i => exact .take .uint .uint rfl rfl (.pure trivial)
    | bytes b => exact .take .bytes .bytes rfl rfl (.pure trivial)
    | string s =>
      refine .take .string .string rfl rfl ?_
      split <;> exact .pure trivial
    | array items => exact hitems.onValue
    | map entries => exact hentries.onValue
    | _ => exact ((InStep.ask rfl).map fun _ _ _ => trivial).onValue
  | stringBytes s =>
    refine .take (v := .string s) (w := .bytes s.toUTF8) .string .bytes rfl rfl ?_
    split <;> exact .pure trivial
  | bytesString s =>
    refine .take (v := .bytes s.toUTF8) (w := .string s) .bytes .string rfl rfl ?_
    split <;> exact .pure trivial
  | @intUint i j => exact .take (v := .int i) (w := .uint j) .int .uint rfl rfl (.pure trivial)
  | @uintInt i j => exact .take (v := .uint j) (w := .int i) .uint .int rfl rfl (.pure trivial)
  | array => exact hitems.onValue
  | map => exact hentries.onValue

theorem dynamic_loose (hd : Loose (nested .dynamic)) :
    Loose (dynamic none (fun u => pure (nested u)) n) := by
  apply InStep.type
  intro v w h
  apply (readDynamic_onValue hd h).bind
  intro _ _ _ _ _ _ _ _ hc
  exact .done (.ok ⟨trivial, trivial⟩ hc)

/-! ## Containers -/

section Containers

variable (s : Schema)

/-- Both destinations are changed in the same way. -/
theorem modify_inStep (f : δ → δ) : InStep (.same counts) Eq (modify f) (modify f) :=
  fun _ _ _ _ hx hc => .done (.ok ⟨rfl, congrArg f hx⟩ hc)

theorem list_steady {t : Ty} (hf : Steady counts (nested t)) :
    Steady counts (list s (fun u => pure (nested u)) n t) := by
  unfold list
  rw [pure_bind]
  apply InStep.type
  intro v w h
  have hitem : InStep (.same counts) Eq (item s t (nested t)) (item s t (nested t)) := by
    apply (InStep.fresh hf rfl (Bond.same_within id)).bind
    rintro ⟨_, x⟩ ⟨_, _⟩ ⟨-, rfl⟩
    exact modify_inStep _
  apply InStep.onValue
  apply (InStep.fresh (K := .same counts) (.walk .array n h.tag fun _ => hitem) rfl
    (Bond.same_within id)).bind
  rintro ⟨_, items⟩ ⟨_, _⟩ ⟨-, rfl⟩
  exact setting_inStep _ h.tag

theorem array_steady {t : Ty} (length : Nat) (hf : Steady counts (nested t))
    (hd : Loose (nested .dynamic)) :
    Steady counts (array s (fun u => pure (nested u)) (fun u => pure (nested u)) n t length) := by
  unfold array
  simp only [pure_bind, through_pure]
  apply InStep.type
  intro v w h
  apply InStep.onValue
  refine (modify_inStep fun _ => Content.list (List.replicate length (s.initial t))).bind fun _ _ _ => ?_
  refine InStep.bind (.walk .array n h.tag fun i => ?_) ?_
  · split
    · exact (InStep.focus hf).map fun _ _ _ => rfl
    · exact discard_inStep hd
  · rintro found _ ⟨rfl, htag⟩
    rw [htag]
    split
    · exact .fail (.refl _)
    · exact .pure (.refl _)

theorem entry_inStep {key value : Ty} {kf vf : Strategy} (hk : Steady counts kf) (hv : Steady counts vf)
    (i : Nat) : InStep (.same counts) Eq (entry s key value kf vf i : Decoding δ (Content × Content))
      (entry s key value kf vf i) := by
  apply (InStep.fresh hk rfl (Bond.same_within id)).bind
  rintro ⟨_, k⟩ ⟨_, _⟩ ⟨-, rfl⟩
  apply (InStep.ask rfl).bind
  rintro _ _ -
  apply (InStep.fresh hv rfl (Bond.same_within id)).map
  rintro ⟨_, v⟩ ⟨_, _⟩ ⟨-, rfl⟩
  rfl

/-- One entry of a map, put into the destination. -/
theorem putting_inStep {key value : Ty} {kf vf : Strategy} (hk : Steady counts kf)
    (hv : Steady counts vf) (i : Nat) : InStep (.same counts) Eq
      (entry s key value kf vf i >>= fun p => (modify (Content.putEntry p.1 p.2) : Decoding Content Unit))
      (entry s key value kf vf i >>= fun p => modify (Content.putEntry p.1 p.2)) := by
  apply (entry_inStep s hk hv i).bind
  rintro p _ rfl
  exact modify_inStep _

theorem map_steady {key value : Ty} (hk : Steady counts (nested key)) (hv : Steady counts (nested value)) :
    Steady counts (map s (fun u => pure (nested u)) n key value) := by
  unfold map
  simp only [pure_bind]
  apply InStep.type
  intro v w h
  apply InStep.onValue
  apply (InStep.fresh (K := .same counts) (.walk .map n h.tag fun i => putting_inStep s hk hv i) rfl
    (Bond.same_within id)).bind
  rintro ⟨_, c⟩ ⟨_, _⟩ ⟨-, rfl⟩
  exact setting_inStep c h.tag

theorem textMap_steady {value : Ty} (hk : Steady counts (nested .text))
    (hv : Steady counts (nested value)) :
    Steady counts (textMap s (fun u => pure (nested u)) n value) := by
  rw [textMap_eq]
  unfold refill
  simp only [pure_bind]
  apply InStep.type
  intro v w h
  apply InStep.onValue
  refine (modify_inStep fun _ => Content.map []).bind fun _ _ _ => ?_
  exact (InStep.walk .map n h.tag fun i => putting_inStep s hk hv i).map fun _ _ _ => h.tag

theorem optionEnd_eq_of_akin {tag tag' : Tag} (h : tag.Akin tag') (found c : Content) :
    optionEnd found ⟨.ok tag, c⟩ = optionEnd found ⟨.ok tag', c⟩ := by
  cases h with
  | refl => rfl
  | _ => cases found <;> rfl

/-- After a failure an optional content that was there holds what is left of it. -/
theorem optionEnd_error (found c : Content) (e e' : Error) :
    optionEnd found ⟨.error e, c⟩ = optionEnd found ⟨.error e', c⟩ := by
  cases found <;> rfl

theorem option_steady {inner : Ty} (hf : Steady counts (nested inner)) :
    Steady counts (option s (fun u => pure (nested u)) inner) := by
  rintro x _ c d rfl hc
  rw [option_apply]
  apply (hf _ _ c d rfl hc).bind
  intro e c e' d he
  cases he with
  | ok h hc =>
    obtain ⟨htag, rfl⟩ := h
    exact .done (.ok ⟨htag, optionEnd_eq_of_akin htag _ _⟩ hc)
  | error hy hc =>
    refine .done (.error (fun h => ?_) hc)
    obtain ⟨he, rfl⟩ := hy h
    exact ⟨he, optionEnd_error _ _ _ _⟩

end Containers

/-! ## Records -/

theorem intoSlot_inStep {slot : Option Slot}
    (hf : ∀ i t, slot = some (.member i t) → Steady counts (nested t)) (hd : Loose (nested .dynamic)) :
    InStep (.same counts) Eq (intoSlot (fun u => pure (nested u)) (fun u => pure (nested u)) slot)
      (intoSlot (fun u => pure (nested u)) (fun u => pure (nested u)) slot) := by
  unfold intoSlot
  simp only [through_pure]
  split
  · rename_i i t
    exact (InStep.focus (hf i t rfl)).map fun _ _ _ => rfl
  · exact .fail (.refl _)
  · exact discard_inStep hd

theorem field_inStep {fields : Fields Slot}
    (hf : ∀ name i t, fields.get? name = some (.member i t) → Steady counts (nested t))
    (hd : Loose (nested .dynamic)) (i : Nat) :
    InStep (.same counts) Eq (field (fun u => pure (nested u)) (fun u => pure (nested u)) fields i)
      (field (fun u => pure (nested u)) (fun u => pure (nested u)) fields i) := by
  apply InStep.type
  intro v w h
  apply (OnValue.readString h .string).bind
  rintro name _ rfl
  have hslot := (InStep.ask (L := .same counts (δ := Content)) (k := .toValue i) rfl).bind
    fun _ _ _ => intoSlot_inStep (hf name) hd
  dsimp only
  split
  · exact (InStep.note _).bind fun _ _ _ => hslot
  · exact hslot

theorem record_steady {fields : Fields Slot} (initial : Content)
    (hf : ∀ name i t, fields.get? name = some (.member i t) → Steady counts (nested t))
    (hd : Loose (nested .dynamic)) :
    Steady counts (record initial (fun u => pure (nested u)) (fun u => pure (nested u)) n fields) := by
  apply InStep.type
  intro v w h
  apply InStep.onValue
  refine InStep.recover (.walk .map n h.tag fun i => field_inStep hf hd i) ?_ ?_
  · rintro count _ ⟨-, htag⟩
    rw [htag]
    dsimp only
    split
    · exact setting_inStep _ (.refl _)
    · exact .pure (.refl _)
  · intro e e' x y c d hx hc
    exact .done (.error (fun h => ⟨(hx h).1, rfl⟩) hc)

end Decoding

end Decant
