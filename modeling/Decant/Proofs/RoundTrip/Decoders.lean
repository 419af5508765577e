import Decant.Proofs.Composition
import Decant.Proofs.KeyOrder
import Decant.Proofs.SuccessfulRuns

/-!
# What decoders take off a value

* `Strategy.Takes` — a strategy that takes a value off a cursor, whatever surrounds the value, and makes
  a content of it.
* `Scalar.Encodes` — the value of a scalar content, and `Decoding.scalar_takes`.
* `Decoding.list_takes`, `Decoding.array_takes`, `Decoding.map_takes`, `Decoding.textMap_takes` — a
  container decoder takes a container if the nested strategies take what is in it.
-/

namespace Decant

/-- From a content, a strategy makes another one out of a value, and takes nothing but that off a
cursor. -/
def Strategy.Takes (f : Strategy) (prior content : Content) (v : Value) : Prop :=
  ∀ cur stack, Decoding.Gives f (⟨some v, cur, stack⟩ : Cursor) prior v.tag content ⟨none, none, stack⟩

theorem Utf8.read?_toUTF8 (s : String) : Utf8.read? s.toUTF8 = some s := by
  simp only [Utf8.read?, String.fromUTF8?, String.toUTF8_eq_toByteArray, dif_pos s.isValidUTF8]
  rfl

theorem Utf8.read_toUTF8 (s : String) : Utf8.read s.toUTF8 = .ok s := by
  rw [Utf8.read, Utf8.read?_toUTF8]

/-! ## Leaves -/

/-- The value of a scalar content. -/
inductive Scalar.Encodes : Scalar → Content → Value → Prop
  | bool (b : Bool) : Encodes .bool (.bool b) (.bool b)
  | signed {k : IntKind} {i : Int} (hk : k.isSigned = true) (hi : k.holds i = true) :
      Encodes (.int k) (.int i) (.int (Int64.ofInt i))
  | unsigned {k : IntKind} {i : Int} (hk : k.isSigned = false) (hi : k.holds i = true) :
      Encodes (.int k) (.int i) (.uint (UInt64.ofNat i.toNat))
  | double (a : Float) : Encodes .double (.double a) (.float a)
  | text (s : String) : Encodes .text (.text s) (.string s)
  | blob (b : ByteArray) : Encodes .blob (.blob b) (.bytes b)
  | time (t : Timestamp) : Encodes .time (.time t) (.time t)
  | duration (d : Duration) : Encodes .duration (.duration d) (.duration d)

namespace IntKind

theorem bounds_signed {k : IntKind} (h : k.isSigned = true) :
    -9223372036854775808 ≤ k.low ∧ k.high < 9223372036854775808 := by
  revert h
  cases k <;> decide

theorem bounds_unsigned {k : IntKind} (h : k.isSigned = false) :
    0 ≤ k.low ∧ k.high < 18446744073709551616 := by
  revert h
  cases k <;> decide

theorem toInt_ofInt {k : IntKind} {i : Int} (hk : k.isSigned = true) (hi : k.holds i = true) :
    (Int64.ofInt i).toInt = i := by
  obtain ⟨hlow, hhigh⟩ := bounds_signed hk
  obtain ⟨hl, hh⟩ := holds_iff.1 hi
  exact Int64.toInt_ofInt_of_le (by omega) (by omega)

theorem toNat_ofNat {k : IntKind} {i : Int} (hk : k.isSigned = false) (hi : k.holds i = true) :
    ((UInt64.ofNat i.toNat).toNat : Int) = i := by
  obtain ⟨hlow, hhigh⟩ := bounds_unsigned hk
  obtain ⟨hl, hh⟩ := holds_iff.1 hi
  have hlt : i.toNat < 2 ^ 64 := by omega
  rw [UInt64.toNat_ofNat', Nat.mod_eq_of_lt hlt]
  omega

end IntKind

namespace Decoding

variable {nested : Ty → Strategy} {f : Strategy} {prior x : Content} {n : Nat}
  {times : TimeFormat}

theorem narrow_gives {σ δ : Type} [TokenSource σ] {k : IntKind} {i j : Int} (hj : j = i)
    (hi : k.holds i = true) (src : σ) (d : δ) :
    Gives (narrow k j : Decoding δ Content) src d (.int i) d src := by
  subst hj
  rw [narrow, if_pos hi]
  exact .pure _ _ _

/-- Text of a string is the string. -/
theorem readString_gives {δ : Type} (s : String) (expected : Tag) (stack : List Frame) (d : δ) :
    Gives (readString .string expected : Decoding δ String) (⟨none, some (.string s), stack⟩ : Cursor) d
      s d ⟨none, none, stack⟩ := by
  refine Gives.ask (c := .string) (a := s.toUTF8) rfl ?_
  rw [Utf8.read_toUTF8]
  exact .pure _ _ _

theorem scalar_gives {k : Scalar} {v : Value} {cur : Option Value} {stack : List Frame}
    (hv : v.tag ≠ .nil) (h : Gives (readScalar times k v.tag) (⟨none, some v, stack⟩ : Cursor) prior x prior
      ⟨none, none, stack⟩) :
    Gives (scalar times k) (⟨some v, cur, stack⟩ : Cursor) prior v.tag x ⟨none, none, stack⟩ := by
  refine Gives.ask (c := .type) (a := v.tag) rfl ?_
  rw [if_neg hv]
  exact h.bind (.bind (.set _ _ _) (.pure _ _ _))

theorem scalar_takes {k : Scalar} {v : Value} (h : k.Encodes x v) : (scalar times k).Takes prior x v := by
  intro cur stack
  cases h with
  | @signed k i hk hi =>
    refine scalar_gives (by simp [Value.tag]) ?_
    exact Gives.ask (c := .int) (a := Int64.ofInt i) rfl (narrow_gives (IntKind.toInt_ofInt hk hi) hi _ _)
  | @unsigned k i hk hi =>
    refine scalar_gives (by simp [Value.tag]) ?_
    exact Gives.ask (c := .uint) (a := UInt64.ofNat i.toNat) rfl
      (narrow_gives (IntKind.toNat_ofNat hk hi) hi _ _)
  | text s =>
    refine scalar_gives (by simp [Value.tag]) ?_
    exact (readString_gives s .string stack prior).bind (.pure _ _ _)
  | _ => exact Dialogue.Gives.ask rfl (Dialogue.Gives.ask rfl (.done _ _))

theorem scalar_takes_nil (k : Scalar) : (scalar times k).Takes prior k.initial .nil := fun _ _ =>
  Dialogue.Gives.ask rfl (Dialogue.Gives.ask rfl (.done _ _))

theorem bytes_takes (b : ByteArray) : bytes.Takes prior (.blob b) (.bytes b) := fun _ _ =>
  Dialogue.Gives.ask rfl (Dialogue.Gives.ask rfl (.done _ _))

theorem bytes_takes_nil : bytes.Takes prior (.blob ByteArray.empty) .nil := fun _ _ =>
  Dialogue.Gives.ask rfl (Dialogue.Gives.ask rfl (.done _ _))

theorem error_takes (initial : Content) (e : ErrorValue) :
    (error initial Content.error).Takes prior (.error e) (.error e) := fun _ _ =>
  Dialogue.Gives.ask rfl (Dialogue.Gives.ask rfl (.done _ _))

theorem error_takes_nil (initial : Content) :
    (error initial Content.error).Takes prior initial .nil := fun _ _ =>
  Dialogue.Gives.ask rfl (Dialogue.Gives.ask rfl (.done _ _))

/-! ## Sequences -/

/-- Nil is an empty container. -/
theorem walk_gives_nil {δ : Type} (c : Container) (body : Nat → Decoding δ Unit) (stack : List Frame)
    (d : δ) : Gives (walk c n .nil body) (⟨none, some .nil, stack⟩ : Cursor) d 0 d
      ⟨none, none, stack⟩ :=
  Dialogue.Gives.ask rfl (.done _ _)

theorem head?_array {α : Type} {es : List α} (g : α → Value) {i : Nat} (hi : i < es.length) :
    (Frame.array (es.map g)).head? i = some (g es[i]) := by
  rw [Frame.head?, List.getElem?_map, List.getElem?_eq_getElem hi]
  rfl

theorem map_take_succ {α β : Type} {es : List α} (g : α → β) {i : Nat} (hi : i < es.length) :
    (es.take (i + 1)).map g = (es.take i).map g ++ [g es[i]] := by
  rw [List.take_add_one, List.getElem?_eq_getElem hi, List.map_append]
  rfl

theorem list_takes (s : Schema) {t : Ty} {es : List (Content × Value)}
    (h : ∀ e ∈ es, (nested t).Takes (s.initial t) e.1 e.2) (hn : es.length < n) :
    (list s (fun u => pure (nested u)) n t).Takes prior (.list (es.map (·.1)))
      (.array (es.map (·.2))) := by
  intro cur stack
  let f := Frame.array (es.map (·.2))
  have hlen : f.length = es.length := List.length_map _
  have hb : ∀ i < f.length, Gives (item s t (nested t)) (⟨f.head? i, none, f :: stack⟩ : Cursor)
      ((es.take i).map (·.1)) () ((es.take (i + 1)).map (·.1)) ⟨none, none, f :: stack⟩ := by
    intro i hi
    rw [hlen] at hi
    rw [head?_array _ hi, map_take_succ _ hi]
    exact ((h es[i] (List.getElem_mem hi) none _).fresh _).bind (.modify _ _ _)
  have hw := walk_gives stack (c := .array) (v := .array (es.map (·.2))) rfl rfl
    (hlen.symm ▸ hn) hb
  rw [hlen, List.take_length] at hw
  refine Gives.ask (c := .type) (a := .array) rfl ?_
  exact (hw.fresh prior).bind (.bind (.set _ _ _) (.pure _ _ _))

/-- The slots of an array of which some items were decoded. -/
def slots (initial : Content) (es : List (Content × Value)) (i : Nat) : Content :=
  .list ((es.take i).map (·.1) ++ List.replicate (es.length - i) initial)

theorem slots_step (initial : Content) {es : List (Content × Value)} {i : Nat} (hi : i < es.length) :
    Content.item i (slots initial es i) = initial ∧
      Content.setItem i es[i].1 (slots initial es i) = slots initial es (i + 1) := by
  have hrest : es.length - i = (es.length - (i + 1)) + 1 := by omega
  have hfront : ((es.take i).map (·.1)).length = i := by
    rw [List.length_map, List.length_take_of_le (Nat.le_of_lt hi)]
  unfold slots
  rw [map_take_succ _ hi, hrest, List.replicate_succ]
  generalize (es.take i).map (·.1) = front at hfront
  subst hfront
  constructor
  · simp [Content.item, Content.items]
  · simp [Content.setItem]

theorem array_takes (s : Schema) {t : Ty} {es : List (Content × Value)}
    (h : ∀ e ∈ es, (nested t).Takes (s.initial t) e.1 e.2) (hn : es.length < n) :
    (array s (fun u => pure (nested u)) (fun u => pure (nested u)) n t es.length).Takes prior
      (.list (es.map (·.1))) (.array (es.map (·.2))) := by
  intro cur stack
  let f := Frame.array (es.map (·.2))
  let S := slots (s.initial t) es
  have hlen : f.length = es.length := List.length_map _
  have hb : ∀ i < f.length, Gives (if i < es.length then do
        let _ ← focus (Content.item i) (Content.setItem i) (nested t)
      else discard (through (pure (nested .dynamic))) : Decoding Content Unit)
      (⟨f.head? i, none, f :: stack⟩ : Cursor) (S i) () (S (i + 1)) ⟨none, none, f :: stack⟩ := by
    intro i hi
    rw [hlen] at hi
    obtain ⟨hitem, hset⟩ := slots_step (s.initial t) hi
    have he := h es[i] (List.getElem_mem hi) none (f :: stack)
    rw [← hitem] at he
    rw [head?_array _ hi, if_pos hi]
    show Gives _ _ _ _ (slots _ _ _) _
    rw [← hset]
    exact he.focus.bind (.pure _ _ _)
  have hw := walk_gives stack (c := .array) (v := .array (es.map (·.2))) rfl rfl
    (hlen.symm ▸ hn) hb
  have hstart : S 0 = .list (List.replicate es.length (s.initial t)) := rfl
  have hend : S es.length = .list (es.map (·.1)) := by simp [S, slots]
  rw [hlen, hstart, hend] at hw
  refine Gives.ask (c := .type) (a := .array) rfl ?_
  refine Gives.bind (.set _ _ _) (hw.bind ?_)
  rw [if_neg (by simp)]
  exact .pure _ _ _

/-! ## Maps -/

/-- An entry of a map, with the values of its key and of what the key stands for. -/
structure Mapping where
  key : Content
  keyValue : Value
  content : Content
  value : Value

namespace Mapping

/-- The entry as a destination holds it. -/
def made (e : Mapping) : Content × Content := (e.key, e.content)

/-- The entry as a value holds it. -/
def encoded (e : Mapping) : Value × Value := (e.keyValue, e.value)

end Mapping

section entries

variable {α : Type} {es : List α} (g : α → Value × Value) {i : Nat}

theorem head?_map (hi : i < es.length) : (Frame.map (es.map g)).head? i = some (g es[i]).1 := by
  rw [Frame.head?, List.getElem?_map, List.getElem?_eq_getElem hi]
  rfl

theorem value?_map (hi : i < es.length) : (Frame.map (es.map g)).value? i = some (g es[i]).2 := by
  rw [Frame.value?, List.getElem?_map, List.getElem?_eq_getElem hi]
  rfl

end entries

theorem entry_gives {δ : Type} (s : Schema) {key value : Ty} {kf vf : Strategy} {e : Mapping}
    (hk : kf.Takes (s.initial key) e.key e.keyValue) (hv : vf.Takes (s.initial value) e.content e.value)
    {f : Frame} {i : Nat} (hf : f.kind = .map) (hi : f.value? i = some e.value) (stack : List Frame)
    (d : δ) :
    Gives (entry s key value kf vf i : Decoding δ (Content × Content))
      (⟨some e.keyValue, none, f :: stack⟩ : Cursor) d e.made d ⟨none, none, f :: stack⟩ := by
  refine ((hk none _).fresh d).bind ?_
  refine Gives.ask (c := .toValue i) (Cursor.answer_toValue none hf hi) ?_
  exact ((hv none _).fresh d).bind (.pure _ _ _)

/-- Going through the entries of a map and putting them, in any order. -/
theorem walk_entries (s : Schema) {key value : Ty} {kf vf : Strategy} {es : List Mapping}
    {entries : List (Content × Content)} (hk : ∀ e ∈ es, kf.Takes (s.initial key) e.key e.keyValue)
    (hv : ∀ e ∈ es, vf.Takes (s.initial value) e.content e.value) (ha : Content.Ascending entries)
    (hp : (es.map Mapping.made).Perm entries) (hn : es.length < n) (stack : List Frame) :
    Gives (walk .map n .map fun i => do
        let (k, v) ← entry s key value kf vf i
        modify (Content.putEntry k v))
      (⟨none, some (.map (es.map Mapping.encoded)), stack⟩ : Cursor) (.map []) es.length (.map entries)
      ⟨none, none, stack⟩ := by
  let f := Frame.map (es.map Mapping.encoded)
  let S := fun i => Content.map (Content.putAll ((es.take i).map Mapping.made))
  have hlen : f.length = es.length := List.length_map _
  have hb : ∀ i < f.length, Gives (do
        let (k, v) ← entry s key value kf vf i
        modify (Content.putEntry k v))
      (⟨f.head? i, none, f :: stack⟩ : Cursor) (S i) () (S (i + 1)) ⟨none, none, f :: stack⟩ := by
    intro i hi
    rw [hlen] at hi
    have hmem := List.getElem_mem hi
    have hstep : S (i + 1) = Content.putEntry es[i].key es[i].content (S i) := by
      show Content.map (Content.putAll ((es.take (i + 1)).map Mapping.made)) = _
      rw [map_take_succ _ hi, Content.putAll_append]
      rfl
    rw [head?_map _ hi, hstep]
    exact (entry_gives s (hk _ hmem) (hv _ hmem) rfl (value?_map _ hi) stack _).bind (.modify _ _ _)
  have hw := walk_gives stack (c := .map) (v := .map (es.map Mapping.encoded)) rfl rfl
    (hlen.symm ▸ hn) hb
  have hend : S es.length = .map entries := by
    show Content.map (Content.putAll ((es.take es.length).map Mapping.made)) = _
    rw [List.take_length, Content.putAll_perm ha hp]
  rwa [hlen, hend] at hw

section maps

variable (s : Schema) {key value : Ty} {es : List Mapping} {entries : List (Content × Content)}

theorem map_takes (hk : ∀ e ∈ es, (nested key).Takes (s.initial key) e.key e.keyValue)
    (hv : ∀ e ∈ es, (nested value).Takes (s.initial value) e.content e.value)
    (ha : Content.Ascending entries) (hp : (es.map Mapping.made).Perm entries) (hn : es.length < n) :
    (map s (fun u => pure (nested u)) n key value).Takes prior (.map entries)
      (.map (es.map Mapping.encoded)) := by
  intro cur stack
  have hw := walk_entries s hk hv ha hp hn stack
  refine Gives.ask (c := .type) (a := .map) rfl ?_
  exact (hw.fresh prior).bind (.bind (.set _ _ _) (.pure _ _ _))

theorem textMap_takes (hk : ∀ e ∈ es, (nested .text).Takes (s.initial .text) e.key e.keyValue)
    (hv : ∀ e ∈ es, (nested value).Takes (s.initial value) e.content e.value)
    (ha : Content.Ascending entries) (hp : (es.map Mapping.made).Perm entries) (hn : es.length < n) :
    (textMap s (fun u => pure (nested u)) n value).Takes prior (.map entries)
      (.map (es.map Mapping.encoded)) := by
  rw [textMap_eq]
  intro cur stack
  have hw := walk_entries s hk hv ha hp hn stack
  refine Gives.ask (c := .type) (a := .map) rfl ?_
  exact Gives.bind (.set _ _ _) (hw.bind (.pure _ _ _))

end maps

/-! ## Optional contents -/

section option

variable (s : Schema) {inner : Ty}

theorem absent_ne_present (c : Content) : Content.absent ≠ .present c := by
  simp

/-- A content that is not present is decoded afresh. -/
theorem option_afresh (hp : ∀ c, prior ≠ .present c) :
    option s (fun u => pure (nested u)) inner prior = optionAfresh s inner (nested inner) prior := by
  cases prior with
  | present c => exact absurd rfl (hp c)
  | _ => rfl

theorem option_takes_present {v : Value} (hp : ∀ c, prior ≠ .present c) (hv : v ≠ .nil)
    (h : (nested inner).Takes (s.initial inner) x v) :
    (option s (fun u => pure (nested u)) inner).Takes prior (.present x) v := by
  intro cur stack
  have htag : v.tag ≠ .nil := by
    cases v with
    | nil => exact absurd rfl hv
    | _ => simp [Value.tag]
  unfold Gives
  rw [option_afresh s hp]
  refine ((h cur stack).fresh _).bind ?_
  show Gives (if v.tag ≠ .nil then _ else _ : Strategy) _ _ _ _ _
  rw [if_pos htag]
  exact .bind (.set _ _ _) (.pure _ _ _)

theorem option_takes_nil {c : Content} (hp : ∀ c, prior ≠ .present c)
    (h : (nested inner).Takes (s.initial inner) c .nil) :
    (option s (fun u => pure (nested u)) inner).Takes prior prior .nil := by
  intro cur stack
  unfold Gives
  rw [option_afresh s hp]
  exact ((h cur stack).fresh prior).bind (.pure _ _ _)

/-- A content that is present is emptied by nil. -/
theorem option_takes_nil_present {c d : Content} (h : (nested inner).Takes c d .nil) :
    (option s (fun u => pure (nested u)) inner).Takes (.present c) .absent .nil := by
  intro cur stack
  have ha : Gives (do
      let tag ← focus inside (fun c _ => .present c) (nested inner)
      if tag = .nil then set Content.absent
      return tag) (⟨some .nil, cur, stack⟩ : Cursor) (.present c) .nil .absent
      ⟨none, none, stack⟩ := by
    refine (h cur stack).focus.bind ?_
    show Gives (if Tag.nil = Tag.nil then _ else _ : Strategy) _ _ _ _ _
    rw [if_pos rfl]
    exact .bind (.set _ _ _) (.pure _ _ _)
  exact ha

end option

end Decoding

end Decant
