import Decant.Proofs.Agreement
import Decant.Proofs.OneToken

/-!
# Strategies that go either way

One lemma for each strategy: it makes the same of a walk and of its retelling, once the strategies of
nested types do.

* `Decoding.retells_takesOne` — for strategies that take one token only a string that is no text has
  to be looked at, since everything else is retold as it is.
-/

namespace Decant

theorem Leaf.exists_taken {l : Leaf} {c : Call} (hc : l.tag.token? = some c) :
    ∃ a, l.taken = ⟨c, .ok a⟩ := by
  cases l <;> cases hc <;> exact ⟨_, rfl⟩

namespace Decoding

open Dialogue (Agree)
open Error (Near)
open Strategy (Retells)
open Tag (SameNil)

variable {raw fair : Prop} {δ : Type} {f : Strategy} {n : Nat} {nested : Ty → Strategy}
  {times : TimeFormat}

/-! ### Strings -/

/-- What is left of a string that is no text, and of its retelling. -/
theorem tallies_readText (b : ByteArray) (expected : Tag) :
    Tallies raw fair Eq [⟨.string, .ok b⟩] [⟨.bytes, .ok b⟩]
      (readText .string expected : Decoding δ ByteArray) (readText .bytes expected) :=
  fun _ _ _ => .left (c := .string) (.ok b) (.right (c := .bytes) (.ok b) (.done (.ok rfl)))

theorem tallies_read (b : ByteArray) :
    Tallies raw fair Eq [] [] (match Utf8.read b with
      | .ok s => pure s
      | .error fault => fail (.utf8 fault) : Decoding δ String) (match Utf8.read b with
      | .ok s => pure s
      | .error fault => fail (.utf8 fault)) := by
  cases Utf8.read b with
  | ok s => exact .pure rfl
  | error fault => exact .fail (.refl _)

theorem tallies_readString (b : ByteArray) (expected : Tag) :
    Tallies raw fair Eq [⟨.string, .ok b⟩] [⟨.bytes, .ok b⟩]
      (readString .string expected : Decoding δ String) (readString .bytes expected) := by
  apply (tallies_readText b expected).andThen
  intro a a' ha
  subst ha
  exact tallies_read a

theorem tallies_set {x : δ} :
    Tallies raw fair (fun _ _ => True) [] [] (set x : Decoding δ Unit) (set x) :=
  .done fun _ => ⟨_, _, _, rfl, rfl, trivial⟩

theorem tallies_modify {g : δ → δ} :
    Tallies raw fair (fun _ _ => True) [] [] (modify g : Decoding δ Unit) (modify g) :=
  .done fun _ => ⟨_, _, _, rfl, rfl, trivial⟩

/-! ### One token -/

/-- The exchanges of a string that is no text, and of the bytes that it is retold as. -/
def RetellsStrings (raw fair : Prop) (f : Strategy) : Prop :=
  raw → ∀ b, Tallies raw fair SameNil [⟨.type, .ok .string⟩, ⟨.string, .ok b⟩]
    [⟨.type, .ok .bytes⟩, ⟨.bytes, .ok b⟩] f f

theorem retells_takesOne (h : f.TakesOne) (hs : RetellsStrings raw fair f) : f.Retells raw fair := by
  intro w hw
  -- A container is refused.
  have hcont : ∀ (c : Container) (us vs : List Exchange),
      Tallies raw fair SameNil (⟨.type, .ok c.tag⟩ :: us) (⟨.type, .ok c.tag⟩ :: vs) f f := by
    intro c us vs d xs ys
    obtain ⟨next, hd, -, ht⟩ := h d
    rw [hd]
    refine .ask _ _ ?_
    have htag := ht c.tag
    generalize next (.ok c.tag) = x at htag
    cases htag with
    | refuse e => exact .done (.error (.of_near (.refl e)))
    | take hc _ _ => cases c <;> cases hc
  cases w with
  | array => exact hcont .array _ _
  | map => exact hcont .map _ _
  | leaf l =>
    rcases leaf_retold hw with hl | ⟨b, hr, rfl, hl⟩
    · rw [Walk.retold, hl]
      intro d xs ys
      obtain ⟨next, hd, -, ht⟩ := h d
      rw [hd]
      refine .ask (c := .type) (.ok l.tag) (.ok l.tag) ?_
      have htag := ht l.tag
      generalize next (.ok l.tag) = x at htag
      cases htag with
      | refuse e => exact .done (.error (.of_near (.refl e)))
      | take hc _ hn =>
        obtain ⟨a, ha⟩ := Leaf.exists_taken hc
        obtain ⟨⟨result, dest⟩, he, ht⟩ := hn a
        rw [ha]
        refine .ask (.ok a) (.ok a) ?_
        rw [he]
        cases result with
        | ok t => exact .done (.ok .rfl)
        | error e => exact .done (.error (.of_near (.refl e)))
    · rw [Walk.retold, hl]
      exact hs hr b

theorem readScalar_strings (hr : raw) (s : Scalar) (b : ByteArray) :
    Tallies raw fair Eq [⟨.string, .ok b⟩] [⟨.bytes, .ok b⟩]
      (readScalar times s .string : Decoding Content Content) (readScalar times s .bytes) := by
  cases s with
  | bool => exact .fail (.kind hr _)
  | int k => exact .fail (.kind hr _)
  | single => exact .fail (.kind hr _)
  | double => exact .fail (.kind hr _)
  | text =>
    apply (tallies_readString b .string).andThen
    intro a a' ha
    exact .pure (congrArg _ ha)
  | blob =>
    apply (tallies_readText b .bytes).andThen
    intro a a' ha
    exact .pure (congrArg _ ha)
  | time =>
    apply (tallies_readString b .time).andThen
    intro a a' ha
    subst ha
    cases times.parse a with
    | ok t => exact .pure rfl
    | error fault => exact .fail (.refl _)
  | duration =>
    apply (tallies_readString b .duration).andThen
    intro a a' ha
    subst ha
    cases Duration.ofText? a with
    | some d => exact .pure rfl
    | none => exact .fail (.refl _)

theorem sameNil_strings : SameNil .string .bytes := by simp [SameNil]

theorem scalar_retells (s : Scalar) : Retells raw fair (scalar times s) := by
  apply retells_takesOne (scalar_takesOne s)
  intro hr b
  refine Tallies.ask (c := .type) .string .bytes ?_
  have hset : ∀ x : Content, Tallies raw fair SameNil [] [] (do
      set x
      return .string : Strategy) (do
      set x
      return .bytes) := fun x => .done fun _ => ⟨_, _, _, rfl, rfl, sameNil_strings⟩
  exact (readScalar_strings hr s b).andThen fun x x' hx => hx ▸ hset x

theorem bytes_retells : Retells raw fair bytes := by
  apply retells_takesOne bytes_takesOne
  intro hr b
  refine Tallies.ask (c := .type) .string .bytes ?_
  apply (tallies_readText b .bytes).andThen
  intro a a' ha
  subst ha
  exact .done fun _ => ⟨_, _, _, rfl, rfl, sameNil_strings⟩

theorem text_retells (accept : Content → ByteArray → Content × Option Error) :
    Retells raw fair (text accept) := by
  apply retells_takesOne (text_takesOne accept)
  intro hr b
  refine Tallies.ask (c := .type) .string .bytes ?_
  apply (tallies_readText b .string).andThen
  intro a a' ha
  subst ha
  intro d xs ys
  show Agree _ _ (taken .string (accept d a) d) _ (taken .bytes (accept d a) d)
  obtain ⟨c, refusal⟩ := accept d a
  cases refusal with
  | none => exact .done (.ok sameNil_strings)
  | some e => exact .done (.error (.of_near (.refl e)))

theorem error_retells (initial : Content) (build : ErrorValue → Content) :
    Retells raw fair (error initial build) := by
  apply retells_takesOne (error_takesOne initial build)
  intro hr b
  refine Tallies.ask (c := .type) .string .bytes ?_
  apply (tallies_readText b .error).andThen
  intro a a' ha
  subst ha
  exact .done fun _ => ⟨_, _, _, rfl, rfl, sameNil_strings⟩

/-! ### Containers -/

theorem tallies_value {us vs : List Exchange} (h : Tallies raw fair SameNil us vs f f) :
    Tallies raw fair Eq us vs (value f : Decoding δ Value) (value f) :=
  (h.fresh _).andThen fun _ _ hab => .pure (congrArg Content.toDynamic hab.2)

theorem tallies_discard {us vs : List Exchange} (h : Tallies raw fair SameNil us vs f f) :
    Tallies raw fair (fun _ _ => True) us vs (discard f : Decoding δ Unit) (discard f) :=
  (tallies_value h).andThen fun _ _ _ => .pure trivial

theorem tallies_item (s : Schema) (t : Ty) {us vs : List Exchange}
    (h : Tallies raw fair SameNil us vs f f) :
    Tallies raw fair (fun _ _ => True) us vs (item s t f) (item s t f) := by
  refine (h.fresh _).andThen ?_
  rintro ⟨_, x⟩ ⟨_, y⟩ hxy
  obtain rfl : x = y := hxy.2
  exact tallies_modify

theorem list_retells (s : Schema) {t : Ty} (hf : (nested t).Retells raw fair) :
    Retells raw fair (list s (fun u => pure (nested u)) n t) := by
  unfold list
  rw [pure_bind]
  apply retells_of_tag
  intro w hw
  refine ((Tallies.walk (fun i e e' he => ?_) hw).fresh []).andThen ?_
  · obtain ⟨v, hv, rfl, rfl⟩ := he
    exact tallies_item s t (hf v hv)
  · rintro ⟨_, x⟩ ⟨_, y⟩ hxy
    obtain rfl : x = y := hxy.2
    exact tallies_set.andThen fun _ _ _ => .pure w.sameNil_retold

theorem array_retells (s : Schema) {item : Ty} (length : Nat) (hf : (nested item).Retells raw fair)
    (hd : (nested .dynamic).Retells raw fair) :
    Retells raw fair
      (array s (fun u => pure (nested u)) (fun u => pure (nested u)) n item length) := by
  unfold array
  rw [pure_bind]
  apply retells_of_tag
  intro w hw
  apply tallies_set.first
  intro _ _ _
  refine (Tallies.walk (fun i e e' he => ?_) hw).andThen fun found found' hfound => ?_
  · obtain ⟨v, hv, rfl, rfl⟩ := he
    split
    · exact ((hf v hv).focus _ _).andThen fun _ _ _ => .pure trivial
    · exact tallies_discard (hd v hv)
  · subst hfound
    have hnil : (w.tag ≠ .nil ∧ found ≠ length) = (w.retold.tag ≠ .nil ∧ found ≠ length) := by
      have hs : w.tag = .nil ↔ w.retold.tag = .nil := w.sameNil_retold
      rw [ne_eq, ne_eq, hs]
    simp only [hnil]
    split
    · exact (Tallies.fail (A := fun _ _ => True) (.refl _)).andThen fun _ _ _ =>
        .pure w.sameNil_retold
    · exact .pure w.sameNil_retold

theorem tallies_entry (s : Schema) (key value : Ty) {kf vf : Strategy} (hk : kf.Retells raw fair)
    (hv : vf.Retells raw fair) {i : Nat} {e e' : List Exchange} (he : Container.map.Twin raw i e e') :
    Tallies raw fair Eq e e' (entry s key value kf vf i : Decoding δ (Content × Content))
      (entry s key value kf vf i) := by
  obtain ⟨k, v, hkw, hvw, rfl, rfl⟩ := he
  apply ((hk k hkw).fresh _).bind
  intro a b hab
  refine Tallies.ask (c := .toValue i) () () ?_
  apply ((hv v hvw).fresh _).andThen
  intro x y hxy
  exact .pure (Prod.ext hab.2 hxy.2)

theorem map_retells (s : Schema) {key value : Ty} (hk : (nested key).Retells raw fair)
    (hv : (nested value).Retells raw fair) :
    Retells raw fair (map s (fun u => pure (nested u)) n key value) := by
  unfold map
  rw [pure_bind, pure_bind]
  apply retells_of_tag
  intro w hw
  refine ((Tallies.walk (fun i e e' he => ?_) hw).fresh _).andThen ?_
  · apply (tallies_entry s key value hk hv he).andThen
    intro x y hxy
    subst hxy
    exact tallies_modify
  · rintro ⟨_, x⟩ ⟨_, y⟩ hxy
    obtain rfl : x = y := hxy.2
    exact tallies_set.andThen fun _ _ _ => .pure w.sameNil_retold

theorem textMap_retells (s : Schema) {value : Ty} (hk : (nested .text).Retells raw fair)
    (hv : (nested value).Retells raw fair) :
    Retells raw fair (textMap s (fun u => pure (nested u)) n value) := by
  rw [textMap_eq]
  unfold refill
  rw [pure_bind, pure_bind]
  apply retells_of_tag
  intro w hw
  apply tallies_set.first
  intro _ _ _
  refine (Tallies.walk (fun i e e' he => ?_) hw).andThen fun _ _ _ => .pure w.sameNil_retold
  apply (tallies_entry s .text value hk hv he).andThen
  intro x y hxy
  subst hxy
  exact tallies_modify

theorem tallies_optionAfresh (s : Schema) (inner : Ty) {us vs : List Exchange}
    (h : Tallies raw fair SameNil us vs f f) :
    Tallies raw fair SameNil us vs (optionAfresh s inner f) (optionAfresh s inner f) := by
  refine (h.fresh _).andThen ?_
  rintro ⟨t, x⟩ ⟨t', y⟩ hab
  have ht : t = .nil ↔ t' = .nil := hab.1
  obtain rfl : x = y := hab.2
  by_cases hn : t = .nil
  · have hn' := ht.1 hn
    subst hn hn'
    exact .pure .rfl
  · have hn' := mt ht.2 hn
    simp only [ne_eq, hn, hn', not_false_eq_true, if_true]
    exact tallies_set.andThen fun _ _ _ => .pure ht

theorem option_retells (s : Schema) {inner : Ty} (hf : (nested inner).Retells raw fair) :
    Retells raw fair (option s (fun u => pure (nested u)) inner) := by
  unfold option
  rw [pure_bind]
  intro w hw
  have hget : Tallies raw fair Eq [] [] (get : Decoding Content Content) get :=
    .done fun d => ⟨d, d, d, rfl, rfl, rfl⟩
  apply hget.bind
  intro c c' hc
  subst hc
  cases c with
  | present c =>
    apply ((hf w hw).focus _ _).andThen
    intro t t' ht
    have ht : t = .nil ↔ t' = .nil := ht
    by_cases hn : t = .nil
    · have hn' := ht.1 hn
      subst hn hn'
      exact tallies_set.andThen fun _ _ _ => .pure .rfl
    · have hn' := mt ht.2 hn
      simp only [hn, hn', if_false]
      exact .pure ht
  | _ => exact tallies_optionAfresh s inner (hf w hw)

/-! ### Records -/

/-- The text of a walk whose tag was observed. -/
theorem tallies_readText_walk (expected : Tag) {w : Walk} (hw : w.Clear ∨ raw) :
    Tallies raw fair Eq w.exchanges.tail w.retold.exchanges.tail
      (readText w.tag expected : Decoding δ ByteArray) (readText w.retold.tag expected) := by
  cases w with
  | array => exact .fail (.refl _)
  | map => exact .fail (.refl _)
  | leaf l =>
    rcases leaf_retold hw with hl | ⟨b, hr, rfl, hl⟩
    · rw [Walk.retold, hl]
      intro d xs ys
      cases l with
      | nil => exact .ask (c := .nil) _ _ (.done (.ok rfl))
      | string b => exact .ask (c := .string) (.ok b) (.ok b) (.done (.ok rfl))
      | bytes b => exact .ask (c := .bytes) (.ok b) (.ok b) (.done (.ok rfl))
      | _ => exact .done (.error (.of_near (.refl _)))
    · rw [Walk.retold, hl]
      exact tallies_readText b expected

theorem tallies_intoSlot {us vs : List Exchange} {slot : Option Slot}
    (hd : Tallies raw fair SameNil us vs (nested .dynamic) (nested .dynamic))
    (hm : ∀ n t, slot = some (.member n t) → Tallies raw fair SameNil us vs (nested t) (nested t)) :
    Tallies raw fair (fun _ _ => True) us vs
      (intoSlot (fun u => pure (nested u)) (fun u => pure (nested u)) slot)
      (intoSlot (fun u => pure (nested u)) (fun u => pure (nested u)) slot) := by
  match slot with
  | some (.member n t) =>
    exact ((hm n t rfl).focus _ _).andThen fun _ _ _ => .pure trivial
  | some (.unsupported path) => exact .fail (.refl _)
  | none => exact tallies_discard hd

theorem tallies_field {fields : Fields Slot} (hd : (nested .dynamic).Retells raw fair)
    (hm : ∀ name n t, fields.get? name = some (.member n t) → (nested t).Retells raw fair) {i : Nat}
    {e e' : List Exchange} (he : Container.map.Twin raw i e e') :
    Tallies raw fair (fun _ _ => True) e e'
      (field (fun u => pure (nested u)) (fun u => pure (nested u)) fields i)
      (field (fun u => pure (nested u)) (fun u => pure (nested u)) fields i) := by
  obtain ⟨k, v, hk, hv, rfl, rfl⟩ := he
  unfold joined
  rw [k.exchanges_eq, k.retold.exchanges_eq]
  refine Tallies.ask (c := .type) k.tag k.retold.tag ?_
  have hname : Tallies raw fair Eq k.exchanges.tail k.retold.exchanges.tail
      (readString k.tag .string : Decoding Content String) (readString k.retold.tag .string) := by
    apply (tallies_readText_walk .string hk).andThen
    intro a b hab
    subst hab
    exact tallies_read a
  apply hname.bind
  intro name name' h
  subst h
  have hslot : Tallies raw fair (fun _ _ => True) (⟨.toValue i, .ok ()⟩ :: v.exchanges)
      (⟨.toValue i, .ok ()⟩ :: v.retold.exchanges) (do
        let _ ← ask (.toValue i)
        intoSlot (fun u => pure (nested u)) (fun u => pure (nested u)) (fields.get? name)) (do
        let _ ← ask (.toValue i)
        intoSlot (fun u => pure (nested u)) (fun u => pure (nested u)) (fields.get? name)) :=
    Tallies.ask (c := .toValue i) () () <|
      tallies_intoSlot (hd v hv) fun n t h => hm name n t h v hv
  simp only
  split
  · exact Tallies.note hslot
  · exact hslot

theorem record_retells (initial : Content) {fields : Fields Slot}
    (hd : (nested .dynamic).Retells raw fair)
    (hm : ∀ name n t, fields.get? name = some (.member n t) → (nested t).Retells raw fair) :
    Retells raw fair
      (record initial (fun u => pure (nested u)) (fun u => pure (nested u)) n fields) := by
  unfold record
  apply retells_of_tag
  intro w hw
  have hwalk : Tallies raw fair Eq w.exchanges.tail w.retold.exchanges.tail
      (walk .map n w.tag (field (fun u => pure (nested u)) (fun u => pure (nested u)) fields))
      (walk .map n w.retold.tag
        (field (fun u => pure (nested u)) (fun u => pure (nested u)) fields)) :=
    Tallies.walk (fun i e e' he => tallies_field hd hm he) hw
  refine hwalk.recover (fun _ => initial) (fun a b _ => ?_) fun e d => ⟨rfl, rfl⟩
  have hs : w.tag = .nil ↔ w.retold.tag = .nil := w.sameNil_retold
  by_cases hn : w.tag = .nil
  · have hn' := hs.1 hn
    simp only [hn, hn', if_true]
    exact tallies_set.andThen fun _ _ _ => .pure .rfl
  · have hn' := mt hs.2 hn
    simp only [hn, hn', if_false]
    exact .pure hs

/-! ### Values of no fixed type -/

theorem tallies_dynamicItems (hd : (nested .dynamic).Retells raw fair) {w : Walk} (hw : w.Clear ∨ raw)
    (ht : w.tag = .array) :
    Tallies raw fair Eq w.exchanges.tail w.retold.exchanges.tail
      (dynamicItems (fun u => pure (nested u)) n) (dynamicItems (fun u => pure (nested u)) n) := by
  have ht' : w.retold.tag = .array := tag_retold (c := .array) ht
  have hwalk : Tallies raw fair Eq w.exchanges.tail w.retold.exchanges.tail
      (walk .array n w.tag fun _ => do
        let v ← value (nested .dynamic)
        modify (· ++ [v]) : Decoding (List Value) Nat)
      (walk .array n w.retold.tag fun _ => do
        let v ← value (nested .dynamic)
        modify (· ++ [v])) := by
    refine Tallies.walk ?_ hw
    rintro i _ _ ⟨v, hv, rfl, rfl⟩
    apply (tallies_value (hd v hv)).andThen
    intro x y hxy
    subst hxy
    exact tallies_modify
  rw [ht, ht'] at hwalk
  unfold dynamicItems
  rw [pure_bind]
  exact (hwalk.fresh []).andThen fun a b hab => .pure hab.2

theorem tallies_dynamicEntry (hf : f.Retells raw fair) {i : Nat} {e e' : List Exchange}
    (he : Container.map.Twin raw i e e') :
    Tallies raw fair Eq e e' (dynamicEntry f i : Decoding δ (Value × Value)) (dynamicEntry f i) := by
  obtain ⟨k, v, hk, hv, rfl, rfl⟩ := he
  apply (tallies_value (hf k hk)).bind
  intro x y hxy
  refine Tallies.ask (c := .toValue i) () () ?_
  apply (tallies_value (hf v hv)).andThen
  intro x' y' hxy'
  exact .pure (Prod.ext hxy hxy')

theorem tallies_dynamicEntries (hd : (nested .dynamic).Retells raw fair) {w : Walk}
    (hw : w.Clear ∨ raw) (ht : w.tag = .map) :
    Tallies raw fair Eq w.exchanges.tail w.retold.exchanges.tail
      (dynamicEntries none (fun u => pure (nested u)) n)
      (dynamicEntries none (fun u => pure (nested u)) n) := by
  have ht' : w.retold.tag = .map := tag_retold (c := .map) ht
  have hwalk : Tallies raw fair Eq w.exchanges.tail w.retold.exchanges.tail
      (walk .map n w.tag fun i => do
        let entry ← dynamicEntry (nested .dynamic) i
        modify (· ++ [entry]) : Decoding (List (Value × Value)) Nat)
      (walk .map n w.retold.tag fun i => do
        let entry ← dynamicEntry (nested .dynamic) i
        modify (· ++ [entry])) := by
    refine Tallies.walk (fun i e e' he => ?_) hw
    apply (tallies_dynamicEntry hd he).andThen
    intro x y hxy
    subst hxy
    exact tallies_modify
  rw [ht, ht'] at hwalk
  unfold dynamicEntries
  simp only [pure_bind]
  exact (hwalk.fresh []).andThen fun a b hab => .pure hab.2

/-- A string that is no text is already kept as bytes. -/
theorem tallies_readDynamic (hd : (nested .dynamic).Retells raw fair) {w : Walk} (hw : w.Clear ∨ raw) :
    Tallies raw fair Eq w.exchanges.tail w.retold.exchanges.tail
      (readDynamic none (fun u => pure (nested u)) n w.tag)
      (readDynamic none (fun u => pure (nested u)) n w.retold.tag) := by
  cases w with
  | array length count h item =>
    exact (tallies_dynamicItems hd hw rfl).andThen fun a b hab => .pure (congrArg Value.array hab)
  | map length count h key value =>
    exact (tallies_dynamicEntries hd hw rfl).andThen fun a b hab => .pure (congrArg Value.map hab)
  | leaf l =>
    intro d xs ys
    cases l with
    | string b =>
      rw [Walk.retold, Leaf.retold]
      cases hb : Utf8.read? b with
      | some s =>
        rw [Option.isSome_some, if_pos rfl]
        refine .ask (c := .string) (.ok b) (.ok b) ?_
        show Agree _ _ (keepText b d) _ (keepText b d)
        rw [keepText_apply]
        exact .done (.ok rfl)
      | none =>
        rw [Option.isSome_none, if_neg Bool.false_ne_true]
        refine .left (c := .string) (.ok b) (.right (c := .bytes) (.ok b) ?_)
        show Agree _ _ (keepText b d) _ ((pure (.bytes b) : Decoding Content Value) d)
        rw [keepText_apply, Leaf.value, hb]
        exact .done (.ok rfl)
    | nil => exact .ask (c := .nil) _ _ (.done (.ok rfl))
    | bool b => exact .ask (c := .bool) (.ok b) (.ok b) (.done (.ok rfl))
    | int n => exact .ask (c := .int) (.ok n) (.ok n) (.done (.ok rfl))
    | uint n => exact .ask (c := .uint) (.ok n) (.ok n) (.done (.ok rfl))
    | float x => exact .ask (c := .float) (.ok x) (.ok x) (.done (.ok rfl))
    | bytes b => exact .ask (c := .bytes) (.ok b) (.ok b) (.done (.ok rfl))
    | time t => exact .ask (c := .time) (.ok t) (.ok t) (.done (.ok rfl))
    | duration t => exact .ask (c := .duration) (.ok t) (.ok t) (.done (.ok rfl))
    | error e => exact .ask (c := .error) (.ok e) (.ok e) (.done (.ok rfl))

theorem dynamic_retells (hd : (nested .dynamic).Retells raw fair) :
    Retells raw fair (dynamic none (fun u => pure (nested u)) n) := by
  apply retells_of_tag
  intro w hw
  apply (tallies_readDynamic hd hw).andThen
  intro x y hxy
  subst hxy
  exact tallies_set.andThen fun _ _ _ => .pure w.sameNil_retold

end Decoding

end Decant
