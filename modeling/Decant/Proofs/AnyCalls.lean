import Decant.Source.Cursor
import Mathlib.Logic.Relation

/-!
# Cursors under any calls

A cursor may be asked anything in any order: to go on within a container that holds no such element, to
leave a container while a slot still points into it, or to enter one while another value waits.

* `Value.Part`, `Value.Inside`, `Value.Within` — a value directly in another one, anywhere in it, and
  anywhere in it or the whole of it; `Value.depth` — how deep containers nest.
* `Cursor.On` — a position on a value: each container that was entered lies inside the one entered before
  it, and what the slots hold lies inside the innermost one.
* `Cursor.On.answer` — no call leads off the value.
* `Cursor.answer_error` — a call that fails changes nothing, or only empties the current slot.
* `Cursor.asked_orderly` — so it is after any calls.
-/

namespace Decant

/-! ## Values in values -/

namespace Value

/-- A value that is an item of an array, or a key or a value in an entry of a map. -/
inductive Part : Value → Value → Prop
  | item {w : Value} {items : List Value} (h : w ∈ items) : Part w (.array items)
  | key {entry : Value × Value} {entries : List (Value × Value)} (h : entry ∈ entries) :
      Part entry.1 (.map entries)
  | value {entry : Value × Value} {entries : List (Value × Value)} (h : entry ∈ entries) :
      Part entry.2 (.map entries)

/-- A value somewhere in another one, and not the whole of it. -/
abbrev Inside : Value → Value → Prop := Relation.TransGen Part

/-- A value somewhere in another one, or the whole of it. -/
abbrev Within : Value → Value → Prop := Relation.ReflTransGen Part

mutual
/-- How deep containers nest in a value. -/
def depth : Value → Nat
  | array items => depthItems items + 1
  | map entries => depthEntries entries + 1
  | _ => 0

/-- How deep containers nest in the items of an array. -/
def depthItems : List Value → Nat
  | [] => 0
  | v :: vs => max v.depth (depthItems vs)

/-- How deep containers nest in the entries of a map. -/
def depthEntries : List (Value × Value) → Nat
  | [] => 0
  | (k, v) :: es => max (max k.depth v.depth) (depthEntries es)
end

theorem depth_le_items {w : Value} {items : List Value} (h : w ∈ items) :
    w.depth ≤ depthItems items := by
  induction items with
  | nil => cases h
  | cons v vs ih =>
    rw [depthItems]
    rcases List.mem_cons.1 h with rfl | h
    · exact Nat.le_max_left _ _
    · exact Nat.le_trans (ih h) (Nat.le_max_right _ _)

theorem depth_le_entries {entry : Value × Value} {entries : List (Value × Value)}
    (h : entry ∈ entries) : max entry.1.depth entry.2.depth ≤ depthEntries entries := by
  induction entries with
  | nil => cases h
  | cons e es ih =>
    obtain ⟨k, v⟩ := e
    rw [depthEntries]
    rcases List.mem_cons.1 h with rfl | h
    · exact Nat.le_max_left _ _
    · exact Nat.le_trans (ih h) (Nat.le_max_right _ _)

variable {v w : Value}

theorem Part.depth_lt (h : Part w v) : w.depth < v.depth := by
  cases h with
  | item h =>
    rw [depth]
    exact Nat.lt_succ_of_le (depth_le_items h)
  | key h =>
    rw [depth]
    have := depth_le_entries h
    omega
  | value h =>
    rw [depth]
    have := depth_le_entries h
    omega

theorem Inside.depth_lt (h : Inside w v) : w.depth < v.depth := by
  induction h with
  | single h => exact h.depth_lt
  | tail _ h ih => exact Nat.lt_trans ih h.depth_lt

theorem Within.depth_le (h : Within w v) : w.depth ≤ v.depth := by
  induction h with
  | refl => exact Nat.le_refl _
  | tail _ h ih => exact Nat.le_trans ih (Nat.le_of_lt h.depth_lt)

end Value

open Value (Part Inside Within)

namespace Frame

variable {f : Frame} {w : Value} {n : Nat}

/-- The value that was entered. -/
def whole : Frame → Value
  | array items => .array items
  | map entries => .map entries

theorem whole_of_ofValue? (h : ofValue? w = some f) : w = f.whole := by
  cases w <;> cases h <;> rfl

theorem one_le_depth (f : Frame) : 1 ≤ f.whole.depth := by
  cases f <;> exact Nat.le_add_left 1 _

theorem head?_part (h : f.head? n = some w) : Part w f.whole := by
  cases f with
  | array items => exact .item (List.mem_of_getElem? h)
  | map entries =>
    obtain ⟨entry, he, rfl⟩ := Option.map_eq_some_iff.1 h
    exact .key (List.mem_of_getElem? he)

theorem value?_part (h : f.value? n = some w) : Part w f.whole := by
  cases f with
  | array items => cases h
  | map entries =>
    obtain ⟨entry, he, rfl⟩ := Option.map_eq_some_iff.1 h
    exact .value (List.mem_of_getElem? he)

end Frame

/-! ## Positions on a value -/

namespace Cursor

variable {s : Cursor} {v w : Value} {f : Frame} {stack : List Frame} {c : Container}

/-- What can be reached from the containers that were entered without leaving any of them. -/
def Reaches (v w : Value) : List Frame → Prop
  | [] => Within w v
  | f :: _ => Inside w f.whole

/-- A position on a value. -/
structure On (v : Value) (s : Cursor) : Prop where
  /-- Each container lies inside all that were entered before it. -/
  nested : s.stack.Pairwise fun f g => Inside f.whole g.whole
  /-- The containers lie within the value. -/
  within : ∀ f ∈ s.stack, Within f.whole v
  /-- What the slots hold can be reached. -/
  next : ∀ w, s.next = some w → Reaches v w s.stack
  current : ∀ w, s.current = some w → Reaches v w s.stack

theorem on_ofValue (v : Value) : (ofValue v).On v where
  nested := .nil
  within := nofun
  next := by
    rintro w ⟨⟩
    exact .refl
  current := nofun

namespace On

theorem reaches_within (h : s.On v) (hw : Reaches v w s.stack) : Within w v := by
  obtain ⟨next, current, stack⟩ := s
  cases stack with
  | nil => exact hw
  | cons f rest => exact (Relation.TransGen.to_reflTransGen hw).trans (h.within f List.mem_cons_self)

/-- What is reached lies inside every container that was entered. -/
theorem reaches_inside (h : s.On v) (hw : Reaches v w s.stack) (hf : f ∈ s.stack) :
    Inside w f.whole := by
  obtain ⟨next, current, stack⟩ := s
  cases stack with
  | nil => cases hf
  | cons g rest =>
    rcases List.mem_cons.1 hf with rfl | hf
    · exact hw
    · exact Relation.TransGen.trans hw ((List.pairwise_cons.1 h.nested).1 f hf)

/-- What was reached can still be reached when the innermost container is left. -/
theorem reaches_tail (h : s.On v) (hw : Reaches v w s.stack) : Reaches v w s.stack.tail := by
  obtain ⟨next, current, stack⟩ := s
  match stack with
  | [] => exact hw
  | [f] => exact h.reaches_within hw
  | f :: g :: rest => exact h.reaches_inside hw (.tail _ List.mem_cons_self)

end On

/-- A container that lies inside others leaves room for as many as there are. -/
theorem length_add_depth_le (hn : (f :: stack).Pairwise fun f g => Inside f.whole g.whole)
    (hw : ∀ g ∈ f :: stack, Within g.whole v) : stack.length + f.whole.depth ≤ v.depth := by
  induction stack generalizing f with
  | nil =>
    rw [List.length_nil, Nat.zero_add]
    exact (hw f List.mem_cons_self).depth_le
  | cons g rest ih =>
    obtain ⟨hf, hrest⟩ := List.pairwise_cons.1 hn
    have hg : rest.length + g.whole.depth ≤ v.depth := ih hrest fun h hh => hw h (.tail _ hh)
    have hlt : f.whole.depth < g.whole.depth := (hf g List.mem_cons_self).depth_lt
    rw [List.length_cons]
    omega

/-- No more containers are entered than nest in the value. -/
theorem On.length_le (h : s.On v) : s.stack.length ≤ v.depth := by
  obtain ⟨next, current, stack⟩ := s
  cases stack with
  | nil => exact Nat.zero_le _
  | cons f rest =>
    have hdepth := length_add_depth_le h.nested h.within
    have hone := f.one_le_depth
    show rest.length + 1 ≤ v.depth
    omega

/-! ### One call -/

theorem announce_on (h : s.On v) : (announce s).2.On v := by
  obtain ⟨next, current, stack⟩ := s
  cases next with
  | none => exact h
  | some w => exact ⟨h.nested, h.within, nofun, h.next⟩

theorem take_on (h : s.On v) (c : Call) (expected : Tag) : (take c expected s).2.On v :=
  ⟨h.nested, h.within, h.next, nofun⟩

theorem enter_on (h : s.On v) (c : Container) : (enter c s).2.On v := by
  have hemptied : On v { s with current := none } := ⟨h.nested, h.within, h.next, nofun⟩
  unfold enter
  split
  · rename_i f hf
    split
    · obtain ⟨w, hw, hwf⟩ := Option.bind_eq_some_iff.1 hf
      obtain rfl := Frame.whole_of_ofValue? hwf
      have hreached := h.current _ hw
      refine ⟨?_, ?_, fun w hw => .single (Frame.head?_part hw), nofun⟩
      · exact List.pairwise_cons.2 ⟨fun g hg => h.reaches_inside hreached hg, h.nested⟩
      · intro g hg
        rcases List.mem_cons.1 hg with rfl | hg
        · exact h.reaches_within hreached
        · exact h.within g hg
    · exact hemptied
  · exact hemptied

theorem innermost_eq_ok (h : s.innermost c = .ok f) : ∃ rest, s.stack = f :: rest := by
  unfold innermost at h
  split at h
  · rename_i g rest hs
    split at h
    · cases h
      exact ⟨rest, hs⟩
    · cases h
  · cases h

theorem go_on (h : s.On v) (c : Container) {pick : Frame → Option Value}
    (hpick : ∀ f w, pick f = some w → Part w f.whole) : (go c pick s).2.On v := by
  unfold go
  split
  · exact h
  · rename_i f hf
    split
    · rename_i w hw
      obtain ⟨rest, hs⟩ := innermost_eq_ok hf
      refine ⟨h.nested, h.within, ?_, h.current⟩
      rintro _ ⟨⟩
      rw [hs]
      exact .single (hpick f w hw)
    · exact h

theorem leave_on (h : s.On v) (c : Container) : (leave c s).2.On v := by
  unfold leave
  split
  · exact h
  · refine ⟨h.nested.tail, fun f hf => h.within f (List.mem_of_mem_tail hf), ?_, ?_⟩
    · exact fun w hw => h.reaches_tail (h.next w hw)
    · exact fun w hw => h.reaches_tail (h.current w hw)

/-- **No call leads off the value.** -/
theorem On.answer (h : s.On v) (c : Call) : (TokenSource.answer c s).2.On v := by
  cases c with
  | type => exact announce_on h
  | enter c => exact enter_on h c
  | next c n => exact go_on h c fun _ _ => Frame.head?_part
  | leave c n => exact leave_on h c
  | toValue n => exact go_on h .map fun _ _ => Frame.value?_part
  | _ => exact take_on h _ _

end Cursor

/-- Whether a call takes the value whose tag was announced, or enters it. -/
def Call.takes : Call → Bool
  | .type | .next _ _ | .leave _ _ | .toValue _ => false
  | _ => true

namespace Cursor

variable {s : Cursor} {v : Value}

theorem go_error {c : Container} {pick : Frame → Option Value} {e : Error}
    (h : (go c pick s).1 = .error e) : (go c pick s).2 = s := by
  unfold go at h ⊢
  split
  · rfl
  · rename_i f hf
    rw [hf] at h
    dsimp only at h
    split
    · rename_i w hw
      rw [hw] at h
      cases h
    · rfl

theorem leave_error {c : Container} {e : Error} (h : (leave c s).1 = .error e) :
    (leave c s).2 = s := by
  unfold leave at h ⊢
  split
  · rfl
  · rename_i f hf
    rw [hf] at h
    cases h

theorem announce_error {e : Error} (h : (announce s).1 = .error e) : (announce s).2 = s := by
  obtain ⟨next, current, stack⟩ := s
  cases next with
  | none => rfl
  | some w => cases h

theorem enter_error {c : Container} {e : Error} (h : (enter c s).1 = .error e) :
    (enter c s).2 = { s with current := none } := by
  unfold enter at h ⊢
  split
  · rename_i f hf
    rw [hf] at h
    dsimp only at h
    split
    · rename_i hc
      rw [if_pos hc] at h
      cases h
    · rfl
  · rfl

/-- A call that fails changes nothing, or if it is one that takes a value, it only empties the current
slot. -/
theorem answer_error {c : Call} {e : Error} (h : (TokenSource.answer c s).1 = .error e) :
    (TokenSource.answer c s).2 = if c.takes then { s with current := none } else s := by
  cases c with
  | type => exact announce_error h
  | enter c => exact enter_error h
  | next c n => exact go_error h
  | leave c n => exact leave_error h
  | toValue n => exact go_error h
  | _ => rfl

/-! ### Any calls -/

/-- Where a cursor is after some calls. -/
def asked (s : Cursor) (calls : List Call) : Cursor :=
  calls.foldl (fun s c => (TokenSource.answer c s).2) s

theorem On.asked (h : s.On v) (calls : List Call) : (s.asked calls).On v := by
  induction calls generalizing s with
  | nil => exact h
  | cons c calls ih => exact ih (h.answer c)

/-- **A cursor keeps to its value, whatever it is asked.** After any calls the containers that were entered
lie within the value, each inside those entered before it, so there are no more of them than nest in the
value; and the slots hold what lies inside the innermost one, or within the value if none is entered. A
call that fails then changes nothing, except that it empties the current slot if it is one that takes or
enters a value. -/
theorem asked_orderly (v : Value) (calls : List Call) :
    let s := (ofValue v).asked calls
    s.On v ∧ s.stack.length ≤ v.depth ∧ ∀ c e, (TokenSource.answer c s).1 = .error e →
      (TokenSource.answer c s).2 = if c.takes then { s with current := none } else s := by
  intro s
  have h : s.On v := (on_ofValue v).asked calls
  exact ⟨h, h.length_le, fun c e => answer_error⟩

/-- An array is left while its second item, a map, is next. The map was announced, but not entered, so it
cannot be gone through; and it is no boolean. -/
theorem asked_orderly_left :
    let v : Value := .array [.array [.int 1, .map [(.string "k", .nil)]], .bool true]
    let calls : List Call := [.type, .enter .array, .type, .enter .array, .next .array 1,
      .leave .array 0, .type, .next .array 1]
    let s := (ofValue v).asked calls
    s.stack.length = 1 ∧ s.On v ∧ s.stack.length ≤ v.depth ∧
      (TokenSource.answer (.next .map 0) s).1 = .error (.unsupportedTag .map) ∧
      (TokenSource.answer (.next .map 0) s).2 = s ∧
      (TokenSource.answer .bool s).1 = .error (.typeConversion .map .bool) ∧
      (TokenSource.answer .bool s).2 = { s with current := none } := by
  intro v calls s
  obtain ⟨hon, hlength, herror⟩ := asked_orderly v calls
  exact ⟨rfl, hon, hlength, rfl, herror _ _ rfl, rfl, herror _ _ rfl⟩

end Cursor

end Decant
