import Decant.Proofs.Alignment
import Decant.Source.Cursor

/-!
# A walk told again by its value

* `Walk.retold` — the walk that the value of a walk offers: lengths are declared and right, and
  strings that are not well-formed text are bytes.
* `Walk.Clear` — a walk on which every string is well-formed text.
* `Cursor.tells_retold` — a cursor on the value of a walk offers it retold.
-/

namespace Decant

/-! ## Retold walks -/

/-- A leaf, as its value hands it out. -/
def Leaf.retold : Leaf → Leaf
  | string b => if (Utf8.read? b).isSome then string b else bytes b
  | l => l

theorem fits_self (n : Nat) : Fits (some n) n := by
  intro m hm
  cases hm
  exact ⟨Nat.le_refl n, id⟩

/-- A walk, as its value offers it. -/
def Walk.retold : Walk → Walk
  | leaf l => leaf l.retold
  | array _ count _ item => array (some count) count (fits_self count) fun i => (item i).retold
  | map _ count _ key value =>
    map (some count) count (fits_self count) (fun i => (key i).retold) fun i => (value i).retold

/-- Every string that was taken is well-formed text. -/
def WellFormed (xs : List Exchange) : Prop :=
  ∀ b : ByteArray, (⟨.string, .ok b⟩ : Exchange) ∈ xs → (Utf8.read? b).isSome

/-- Every string on the walk is well-formed text. -/
def Walk.Clear : Walk → Prop
  | leaf l => ∀ b, l = .string b → (Utf8.read? b).isSome
  | array _ _ _ item => ∀ i, (item i).Clear
  | map _ _ _ key value => ∀ i, (key i).Clear ∧ (value i).Clear

theorem mem_rounds {c : Container} {length : Option Nat} {x : Exchange} {e : List Exchange}
    (hx : x ∈ e) {es : List (List Exchange)} (he : e ∈ es) (i : Nat) :
    x ∈ rounds c length i es := by
  induction es generalizing i with
  | nil => cases he
  | cons e' es ih =>
    unfold rounds
    rcases List.mem_cons.1 he with rfl | he
    · exact List.mem_append_left _ (List.mem_append_right _ hx)
    · exact List.mem_append_right _ (ih he (i + 1))

theorem Walk.clear_of_wellFormed {w : Walk} (h : WellFormed w.exchanges) : w.Clear := by
  induction w with
  | leaf l =>
    rintro b rfl
    exact h b (by simp [exchanges, Leaf.taken])
  | array length count hf item ih =>
    intro i
    refine ih i fun b hb => h b ?_
    have he : (item i).exchanges ∈ List.ofFn fun i => (item i).exchanges :=
      List.mem_ofFn.2 ⟨i, rfl⟩
    exact List.mem_cons_of_mem _ (List.mem_cons_of_mem _ (mem_rounds hb he 0))
  | map length count hf key value ihk ihv =>
    intro i
    have he : joined i (key i).exchanges (value i).exchanges ∈
        List.ofFn fun i : Fin count => joined i (key i).exchanges (value i).exchanges :=
      List.mem_ofFn.2 ⟨i, rfl⟩
    have hmem : ∀ x ∈ joined i (key i).exchanges (value i).exchanges,
        x ∈ (Walk.map length count hf key value).exchanges := fun x hx =>
      List.mem_cons_of_mem _ (List.mem_cons_of_mem _ (mem_rounds hx he 0))
    constructor
    · refine ihk i fun b hb => h b (hmem _ ?_)
      exact List.mem_append_left _ hb
    · refine ihv i fun b hb => h b (hmem _ ?_)
      exact List.mem_append_right _ (List.mem_cons_of_mem _ hb)

/-! ## Cursors -/

theorem Utf8.toUTF8_of_read? {b : ByteArray} {s : String} (h : Utf8.read? b = some s) :
    s.toUTF8 = b := by
  unfold Utf8.read? String.fromUTF8? at h
  split at h
  · cases h
    rfl
  · cases h

namespace Frame

theorem exists_head? {f : Frame} {n : Nat} (h : n < f.length) : ∃ v, f.head? n = some v := by
  cases f with
  | array items => exact ⟨_, List.getElem?_eq_getElem h⟩
  | map entries =>
    have h : n < entries.length := h
    exact ⟨entries[n].1, by rw [head?, List.getElem?_eq_getElem h]; rfl⟩

theorem head?_eq_none {f : Frame} {n : Nat} (h : f.length ≤ n) : f.head? n = none := by
  cases f with
  | array items => exact List.getElem?_eq_none h
  | map entries =>
    have h : entries.length ≤ n := h
    rw [head?, List.getElem?_eq_none h]
    rfl

end Frame

namespace Cursor

variable {f : Frame} {stack : List Frame} {cur : Option Value}

theorem innermost_cons (next : Option Value) :
    (⟨next, cur, f :: stack⟩ : Cursor).innermost f.kind = .ok f := if_pos rfl

theorem answer_next {next v : Option Value} {n : Nat} (h : f.head? n = v) (hv : v ≠ none) :
    TokenSource.answer (.next f.kind n) (⟨next, cur, f :: stack⟩ : Cursor) =
      (.ok (), ⟨v, cur, f :: stack⟩) := by
  subst h
  obtain ⟨v, hv⟩ := Option.ne_none_iff_exists'.1 hv
  show go f.kind (·.head? n) _ = _
  rw [go, innermost_cons]
  simp only [hv]
  rfl

theorem answer_toValue {v : Value} {n : Nat} (next : Option Value) (hf : f.kind = .map)
    (hv : f.value? n = some v) :
    TokenSource.answer (.toValue n) (⟨next, cur, f :: stack⟩ : Cursor) =
      (.ok (), ⟨some v, cur, f :: stack⟩) := by
  show go .map (·.value? n) _ = _
  rw [← hf, go, innermost_cons]
  simp only [hv]
  rfl

theorem answer_enter {c : Container} {v : Value} (next : Option Value) (hf : f.kind = c)
    (hv : Frame.ofValue? v = some f) :
    TokenSource.answer (.enter c) (⟨next, some v, stack⟩ : Cursor) =
      (.ok (some f.length), ⟨f.head? 0, none, f :: stack⟩) := by
  subst hf
  show enter f.kind _ = _
  simp only [enter, Option.bind_some, hv, if_true]

theorem answer_leave (next : Option Value) (n : Nat) :
    TokenSource.answer (.leave f.kind n) (⟨next, cur, f :: stack⟩ : Cursor) =
      (.ok (), ⟨next, cur, stack⟩) := by
  show leave f.kind _ = _
  rw [leave, innermost_cons]
  rfl

/-- Inside a container the first element is in front, and the others are gone on to. -/
theorem tells_rounds :
    ∀ (i : Nat) (es : List (List Exchange)), i + es.length = f.length →
      (∀ j e, es[j]? = some e → Tells (⟨f.head? (i + j), none, f :: stack⟩ : Cursor) e
        ⟨none, none, f :: stack⟩) →
      Tells (⟨if i = 0 then f.head? 0 else none, none, f :: stack⟩ : Cursor)
        (rounds f.kind (some f.length) i es) ⟨none, none, stack⟩
  | i, [], hl, _ => by
    have hi : f.length ≤ i := by
      rw [List.length_nil] at hl
      omega
    have hnext : (if i = 0 then f.head? 0 else none) = none := by
      split
      · exact Frame.head?_eq_none (by omega)
      · rfl
    rw [hnext, rounds, if_pos (by simpa using hi)]
    exact .cons (answer_leave none i) (.nil _)
  | i, e :: es, hl, he => by
    rw [List.length_cons] at hl
    have hrest : Tells (⟨none, none, f :: stack⟩ : Cursor)
        (rounds f.kind (some f.length) (i + 1) es) ⟨none, none, stack⟩ := by
      apply tells_rounds (i + 1) es (by omega)
      intro j e' hj
      have := he (j + 1) e' hj
      rwa [← Nat.add_assoc, Nat.add_right_comm i j 1] at this
    have helem : Tells (⟨f.head? i, none, f :: stack⟩ : Cursor)
        (e ++ rounds f.kind (some f.length) (i + 1) es) ⟨none, none, stack⟩ :=
      (he 0 e rfl).append hrest
    unfold rounds
    by_cases hi : i = 0
    · subst hi
      exact helem
    · rw [if_neg hi, if_pos (by simpa using hi)]
      obtain ⟨v, hv⟩ := Frame.exists_head? (f := f) (n := i) (by omega)
      rw [hv] at helem
      exact .cons (answer_next hv nofun) helem

/-- **A cursor on the value of a walk offers the walk retold.** -/
theorem tells_retold (w : Walk) (cur : Option Value) (stack : List Frame) :
    Tells (⟨some w.value, cur, stack⟩ : Cursor) w.retold.exchanges ⟨none, none, stack⟩ := by
  induction w generalizing cur stack with
  | leaf l =>
    cases l with
    | string b =>
      simp only [Walk.retold, Walk.value, Leaf.retold, Leaf.value]
      cases hb : Utf8.read? b with
      | none => exact .cons rfl (.cons rfl (.nil _))
      | some s =>
        have htaken : TokenSource.answer .string (⟨none, some (.string s), stack⟩ : Cursor) =
            (.ok b, ⟨none, none, stack⟩) := by
          rw [← Utf8.toUTF8_of_read? hb]
          rfl
        exact .cons rfl (.cons htaken (.nil _))
    | _ => exact .cons rfl (.cons rfl (.nil _))
  | array length count h item ih =>
    let f := Frame.array (List.ofFn fun i => (item i).value)
    have hlen : f.length = count := List.length_ofFn
    have hrounds : Tells (⟨f.head? 0, none, f :: stack⟩ : Cursor)
        (rounds .array (some f.length) 0 (List.ofFn fun i => (item i).retold.exchanges))
        ⟨none, none, stack⟩ := by
      apply tells_rounds (f := .array _) 0 _ (by rw [hlen]; simp)
      intro j e he
      obtain ⟨hj, rfl⟩ := List.getElem?_eq_some_iff.1 he
      rw [List.length_ofFn] at hj
      rw [List.getElem_ofFn, Frame.head?, Nat.zero_add, List.getElem?_eq_getElem (by simpa using hj),
        List.getElem_ofFn]
      exact ih _ _ _
    rw [hlen] at hrounds
    have henter : TokenSource.answer (.enter .array) (⟨none, some (.array _), stack⟩ : Cursor) =
        (.ok (some f.length), ⟨f.head? 0, none, f :: stack⟩) :=
      answer_enter (f := f) none rfl rfl
    rw [hlen] at henter
    exact .cons rfl (.cons henter hrounds)
  | map length count h key value ihk ihv =>
    let f := Frame.map (List.ofFn fun i => ((key i).value, (value i).value))
    have hlen : f.length = count := List.length_ofFn
    have hrounds : Tells (⟨f.head? 0, none, f :: stack⟩ : Cursor)
        (rounds .map (some f.length) 0 (List.ofFn fun i =>
          joined i (key i).retold.exchanges (value i).retold.exchanges)) ⟨none, none, stack⟩ := by
      apply tells_rounds (f := .map _) 0 _ (by rw [hlen]; simp)
      intro j e he
      obtain ⟨hj, rfl⟩ := List.getElem?_eq_some_iff.1 he
      rw [List.length_ofFn] at hj
      have hentry : (List.ofFn fun i => ((key i).value, (value i).value))[j]? =
          some ((key ⟨j, hj⟩).value, (value ⟨j, hj⟩).value) := by
        rw [List.getElem?_eq_getElem (by simpa using hj), List.getElem_ofFn]
      rw [List.getElem_ofFn, Frame.head?, Nat.zero_add, hentry]
      have hvalue : f.value? j = some (value ⟨j, hj⟩).value := by
        show ((List.ofFn fun i => ((key i).value, (value i).value))[j]?).map (·.2) = _
        rw [hentry]
        rfl
      exact (ihk ⟨j, hj⟩ none _).append (.cons (answer_toValue none rfl hvalue)
        (ihv ⟨j, hj⟩ none _))
    rw [hlen] at hrounds
    have henter : TokenSource.answer (.enter .map) (⟨none, some (.map _), stack⟩ : Cursor) =
        (.ok (some f.length), ⟨f.head? 0, none, f :: stack⟩) :=
      answer_enter (f := f) none rfl rfl
    rw [hlen] at henter
    exact .cons rfl (.cons henter hrounds)

end Cursor

end Decant
