import Decant.Catalog.Unruly
import Decant.Proofs.OnItsOwn
import Decant.Proofs.Sameness
import Decant.Proofs.TwoStages

/-!
# Merging a map into a record

* `Value.asName` — the field name that a key stands for.
* `Definition.registered` — what is registered under a name: the last registration counts.
* `Merge` — what an entry of a map does to a record: a registered name has the value decoded into its
  member, from what the member holds; any other name is noted and changes nothing.
* `Decoding.field_outcome` — decoding one field is merging one entry.
* `Setup.comes_record` — decoding a record is merging the entries in turn.
* `Setup.decode_record_merges` — the same for the decoder, with the first failure and what is left alone, if
  types that decode by hand decode one value. One that gives up inside of a map keeps the record from the
  entries that follow (`Setup.swallowing_hides_entry`).
-/

namespace Decant

/-- The field name that a key stands for; nil stands for the empty name. -/
def Value.asName : Value → Except Error String
  | .nil => .ok ""
  | .string s => .ok s
  | .bytes b => (Utf8.read b).mapError Error.utf8
  | v => .error (.typeConversion v.tag .string)

/-- An error that a key is refused with is not an end signal. -/
theorem Value.asName_truncate {v : Value} {err : Error} (h : v.asName = .error err) :
    err.truncate = err := by
  cases v with
  | nil | string => cases h
  | bytes b =>
    cases hr : Utf8.read b with
    | ok s =>
      rw [asName, hr] at h
      cases h
    | error fault =>
      rw [asName, hr] at h
      cases h
      rfl
  | _ =>
    cases h
    rfl

/-! ## Registered names -/

/-- Of several registrations of a name the last one counts. -/
theorem Fields.get?_ofList_eq {α : Type} (entries : List (String × α)) (name : String) :
    (Fields.ofList entries).get? name = (entries.reverse.find? (·.1 == name)).map (·.2) := by
  induction entries using List.reverseRecOn with
  | nil => rfl
  | append_singleton entries e ih =>
    have hinsert : Fields.ofList (entries ++ [e]) = (Fields.ofList entries).insert e.1 e.2 := by
      rw [Fields.ofList, List.foldl_append]
      rfl
    rw [hinsert, Fields.get?_insert, List.reverse_append, List.reverse_singleton, List.singleton_append]
    by_cases h : e.1 = name
    · rw [if_pos h, List.find?_cons_of_pos (by simpa using h)]
      rfl
    · rw [if_neg h, List.find?_cons_of_neg (by simpa using h), ih]

/-- What a record does with a name: what was registered under it last. -/
def Definition.registered (members : List Member) (registrations : List (String × Target))
    (name : String) : Option Slot :=
  (registrations.reverse.find? (·.1 == name)).map fun r => slot members r.2

theorem Definition.get?_slots (members : List Member) (registrations : List (String × Target)) :
    (Fields.ofList (registrations.map fun r => (r.1, slot members r.2))).get? =
      registered members registrations := by
  funext name
  rw [Fields.get?_ofList_eq, ← List.map_reverse, List.find?_map, Option.map_map]
  rfl

/-- A registered member is decoded as its type. -/
theorem Definition.registered_member {members : List Member} {registrations : List (String × Target)}
    {name : String} {i : Nat} {t : Ty} (h : registered members registrations name = some (.member i t)) :
    members[i]?.map (·.ty) = some t := by
  obtain ⟨r, -, hslot⟩ := Option.map_eq_some_iff.1 h
  exact (slot_eq_member hslot).2

/-! ## Merging -/

/-- What an entry of a map does to a record, given what values come to on their own and what is
registered. -/
inductive Merge {ρ : Type} (own : Ty → Content → Value → Ending Content ρ → List Note → Prop)
    (slots : String → Option Slot) :
    Value × Value → Content → Ending Content Unit → List Note → Prop
  /-- The value of a registered name is decoded into its member, from what the member holds. -/
  | member {k v : Value} {c : Content} {name : String} {i : Nat} {t : Ty} {e : Ending Content ρ}
      {notes : List Note} (hk : k.asName = .ok name) (hs : slots name = some (.member i t))
      (h : own t (c.member i) v e notes) :
      Merge own slots (k, v) c ⟨e.result.map fun _ => (), Content.setMember i e.dest c⟩ notes
  | unsupported {k v : Value} {c : Content} {name path : String} (hk : k.asName = .ok name)
      (hs : slots name = some (.unsupported path)) :
      Merge own slots (k, v) c ⟨.error (.unsupported path), c⟩ []
  /-- A name that is not registered changes nothing, whatever its value, and is noted once. -/
  | unknown {k v : Value} {c : Content} {name : String} (hk : k.asName = .ok name)
      (hs : slots name = none) : Merge own slots (k, v) c ⟨.ok (), c⟩ [.discarded name]
  /-- A key that is no text fails. -/
  | key {k v : Value} {c : Content} {err : Error} (hk : k.asName = .error err) :
      Merge own slots (k, v) c ⟨.error err, c⟩ []

section Merge

variable {ρ : Type} {own own' : Ty → Content → Value → Ending Content ρ → List Note → Prop}
  {slots : String → Option Slot} {k v : Value} {c d : Content} {name : String} {e : Ending Content Unit}
  {notes : List Note}

theorem merge_key {err : Error} (hk : k.asName = .error err) :
    Merge own slots (k, v) c e notes ↔ e = ⟨.error err, c⟩ ∧ notes = [] := by
  constructor
  · intro h
    cases h with
    | key h =>
      cases h.symm.trans hk
      exact ⟨rfl, rfl⟩
    | member h _ _ | unsupported h _ | unknown h _ => cases h.symm.trans hk
  · rintro ⟨rfl, rfl⟩
    exact .key hk

theorem merge_unknown (hk : k.asName = .ok name) (hs : slots name = none) :
    Merge own slots (k, v) c e notes ↔ e = ⟨.ok (), c⟩ ∧ notes = [.discarded name] := by
  constructor
  · intro h
    cases h with
    | unknown h _ =>
      cases h.symm.trans hk
      exact ⟨rfl, rfl⟩
    | member h hs' _ | unsupported h hs' =>
      cases h.symm.trans hk
      cases hs'.symm.trans hs
    | key h => cases h.symm.trans hk
  · rintro ⟨rfl, rfl⟩
    exact .unknown hk hs

theorem merge_unsupported {path : String} (hk : k.asName = .ok name)
    (hs : slots name = some (.unsupported path)) :
    Merge own slots (k, v) c e notes ↔ e = ⟨.error (.unsupported path), c⟩ ∧ notes = [] := by
  constructor
  · intro h
    cases h with
    | unsupported h hs' =>
      cases h.symm.trans hk
      cases hs'.symm.trans hs
      exact ⟨rfl, rfl⟩
    | member h hs' _ | unknown h hs' =>
      cases h.symm.trans hk
      cases hs'.symm.trans hs
    | key h => cases h.symm.trans hk
  · rintro ⟨rfl, rfl⟩
    exact .unsupported hk hs

theorem merge_member {i : Nat} {t : Ty} (hk : k.asName = .ok name)
    (hs : slots name = some (.member i t)) :
    Merge own slots (k, v) c e notes ↔
      ∃ x, own t (c.member i) v x notes ∧ e = ⟨x.result.map fun _ => (), Content.setMember i x.dest c⟩ := by
  constructor
  · intro h
    cases h with
    | member h hs' hx =>
      cases h.symm.trans hk
      cases hs'.symm.trans hs
      exact ⟨_, hx, rfl⟩
    | unsupported h hs' | unknown h hs' =>
      cases h.symm.trans hk
      cases hs'.symm.trans hs
    | key h => cases h.symm.trans hk
  · rintro ⟨x, hx, rfl⟩
    exact .member hk hs hx

/-- What is merged with success is either not known, or a member that was decoded with success. -/
theorem merge_ok : Merge own slots (k, v) c ⟨.ok (), d⟩ notes ↔ ∃ name, k.asName = .ok name ∧
    ((slots name = none ∧ d = c ∧ notes = [.discarded name]) ∨
      ∃ i t a y, slots name = some (.member i t) ∧ own t (c.member i) v ⟨.ok a, y⟩ notes ∧
        d = Content.setMember i y c) := by
  constructor
  · intro h
    generalize he : (⟨.ok (), d⟩ : Ending Content Unit) = e at h
    cases h with
    | unsupported _ _ | key _ => cases he
    | @unknown _ _ _ name hk hs =>
      cases he
      exact ⟨name, hk, .inl ⟨hs, rfl, rfl⟩⟩
    | @member _ _ _ name i t x _ hk hs h =>
      obtain ⟨result, y⟩ := x
      cases result with
      | error err => cases he
      | ok a =>
        cases he
        exact ⟨name, hk, .inr ⟨i, t, a, y, hs, h, rfl⟩⟩
  · rintro ⟨name, hk, ⟨hs, rfl, rfl⟩ | ⟨i, t, a, y, hs, h, rfl⟩⟩
    · exact .unknown hk hs
    · exact .member hk hs h

theorem Merge.imp {entry : Value × Value} (h : Merge own slots entry c e notes)
    (ho : ∀ t c v e notes, own t c v e notes → own' t c v e notes) :
    Merge own' slots entry c e notes := by
  cases h with
  | member hk hs h => exact .member hk hs (ho _ _ _ _ _ h)
  | unsupported hk hs => exact .unsupported hk hs
  | unknown hk hs => exact .unknown hk hs
  | key hk => exact .key hk

theorem Content.member_setMember {i : Nat} {x c : Content} (h : i < c.members.length) :
    (setMember i x c).member i = x := by
  cases c with
  | record members =>
    have hi : i < members.length := h
    simp [Content.setMember, Content.member, Content.members, hi]
  | _ => cases h

theorem Content.member_setMember_of_ne {i j : Nat} (h : i ≠ j) (x c : Content) :
    (setMember i x c).member j = c.member j := by
  cases c with
  | record members => simp [Content.setMember, Content.member, Content.members, h]
  | _ => rfl

/-- Merging changes no member but the one that the name addresses. -/
theorem Merge.member_eq {entry : Value × Value} {i : Nat} (h : Merge own slots entry c ⟨.ok (), d⟩ notes)
    (hi : ∀ name t, entry.1.asName = .ok name → slots name ≠ some (.member i t)) :
    d.member i = c.member i := by
  obtain ⟨k, v⟩ := entry
  obtain ⟨name, hk, ⟨-, rfl, -⟩ | ⟨j, t, _, y, hs, -, rfl⟩⟩ := merge_ok.1 h
  · rfl
  · have hne : j ≠ i := fun hji => hi name t hk (hji ▸ hs)
    exact Content.member_setMember_of_ne hne y c

/-- Members that no entry addresses stay as they are. -/
theorem member_eq_of_inTurn {entries : List (Value × Value)} {i : Nat}
    (h : InTurn (Merge own slots) entries c ⟨.ok (), d⟩ notes)
    (hi : ∀ entry ∈ entries, ∀ name t, entry.1.asName = .ok name → slots name ≠ some (.member i t)) :
    d.member i = c.member i := by
  generalize he : (⟨.ok (), d⟩ : Ending Content Unit) = e at h
  induction h with
  | nil c =>
    cases he
    rfl
  | failed _ => cases he
  | cons h _ ih =>
    refine (ih (fun entry hentry => hi entry (List.mem_cons_of_mem _ hentry)) he).trans ?_
    exact h.member_eq (hi _ List.mem_cons_self)

end Merge

/-! ## Fields -/

namespace Decoding

open Setup (ComesIn plain)

variable {s : Schema} {n i : Nat} {fields : Fields Slot} {entries : List (Value × Value)} {k v : Value}
  {stack : List Frame} {c d : Content} {name : String} {e : Ending Content Unit} {notes : List Note}
  {src : Cursor}

/-- Reading a key as text gives the name that it stands for. -/
theorem readString_outcome {δ : Type} (k : Value) (stack : List Frame) (d : δ) :
    ∃ src, (readString k.tag .string d).Outcome (⟨none, some k, stack⟩ : Cursor) ⟨k.asName, d⟩ src [] ∧
      (k.asName.isOk = true → src = ⟨none, none, stack⟩) := by
  cases k with
  | nil => exact ⟨_, .ask rfl (.done _ _), fun _ => rfl⟩
  | string s =>
    have h := readString_gives s .string stack d
    exact ⟨_, Dialogue.Gives.outcome h, fun _ => rfl⟩
  | bytes b =>
    refine ⟨_, .ask (c := .bytes) (a := .ok b) rfl ?_, fun _ => rfl⟩
    show (Dialogue.bind (.done (⟨.ok b, d⟩ : Ending δ ByteArray)) _).Outcome _ _ _ _
    rw [Value.asName]
    simp only [Dialogue.bind]
    cases Utf8.read b with
    | ok s => exact .done _ _
    | error fault => exact .done _ _
  | _ => exact ⟨_, .done _ _, fun h => absurd h Bool.false_ne_true⟩

/-- What is decoded into a slot once the source is in front of the value. -/
theorem intoSlot_outcome {slot : Option Slot} {f : Ty → Strategy}
    (hd : (f .dynamic).Takes (.dynamic .nil) (.dynamic v) v) :
    (intoSlot (fun u => pure (f u)) (fun u => pure (f u)) slot c).Outcome
        (⟨some v, none, stack⟩ : Cursor) e src notes ↔
      match slot with
      | some (.member i t) => ∃ x, (f t (c.member i)).Outcome (⟨some v, none, stack⟩ : Cursor) x src notes ∧
          e = ⟨x.result.map fun _ => (), Content.setMember i x.dest c⟩
      | some (.unsupported path) =>
          e = ⟨.error (.unsupported path), c⟩ ∧ src = ⟨some v, none, stack⟩ ∧ notes = []
      | none => e = ⟨.ok (), c⟩ ∧ src = ⟨none, none, stack⟩ ∧ notes = [] := by
  match slot with
  | some (.member i t) =>
    simp only [intoSlot, through_pure]
    rw [pure_outcome]
    constructor
    · rintro ⟨x, hx, rfl⟩
      obtain ⟨y, hy, rfl⟩ := focus_outcome.1 hx
      exact ⟨y, hy, rfl⟩
    · rintro ⟨y, hy, rfl⟩
      exact ⟨_, focus_outcome.2 ⟨y, hy, rfl⟩, rfl⟩
  | some (.unsupported path) => exact Dialogue.done_outcome
  | none =>
    have hgives : Gives (discard (f .dynamic)) (⟨some v, none, stack⟩ : Cursor) c () c
        ⟨none, none, stack⟩ := (value_gives hd stack c).bind (.pure _ _ _)
    simp only [intoSlot, through_pure]
    constructor
    · intro h
      obtain ⟨rfl, rfl, rfl⟩ := hgives.outcome.unique h
      exact ⟨rfl, rfl, rfl⟩
    · rintro ⟨rfl, rfl, rfl⟩
      exact hgives.outcome

variable {resolve nested : Ty → Decoding Content Strategy}

/-- A field whose key is no text fails. -/
theorem field_outcome_error {err : Error} (hi : entries[i]? = some (k, v)) (hk : k.asName = .error err) :
    (∃ src, (field resolve nested fields i c).Outcome
        (⟨(Frame.map entries).head? i, none, .map entries :: stack⟩ : Cursor) e src notes) ↔
      e = ⟨.error err, c⟩ ∧ notes = [] := by
  have hhead : (Frame.map entries).head? i = some k := by simp [Frame.head?, hi]
  obtain ⟨_, hread, -⟩ := readString_outcome k (.map entries :: stack) c
  rw [hk] at hread
  rw [hhead]
  constructor
  · rintro ⟨src, h⟩
    obtain ⟨he, -, hn⟩ := (bind_outcome_error hread).1 ((ask_outcome (c := .type) rfl).1 h)
    exact ⟨he, hn⟩
  · rintro ⟨rfl, rfl⟩
    exact ⟨_, (ask_outcome (c := .type) rfl).2 ((bind_outcome_error hread).2 ⟨rfl, rfl, rfl⟩)⟩

/-- After its name was read, and noted if it is not registered, a field is its value. -/
theorem field_outcome (hi : entries[i]? = some (k, v)) (hk : k.asName = .ok name) :
    (field resolve nested fields i c).Outcome
        (⟨(Frame.map entries).head? i, none, .map entries :: stack⟩ : Cursor) e src notes ↔
      ∃ ms, (intoSlot resolve nested (fields.get? name) c).Outcome
          (⟨some v, none, .map entries :: stack⟩ : Cursor) e src ms ∧
        notes = (if (fields.get? name).isNone then [.discarded name] else []) ++ ms := by
  have hhead : (Frame.map entries).head? i = some k := by simp [Frame.head?, hi]
  have hvalue : (Frame.map entries).value? i = some v := by simp [Frame.value?, hi]
  obtain ⟨_, hread, hsrc⟩ := readString_outcome k (.map entries :: stack) c
  rw [hk] at hread hsrc
  obtain rfl := hsrc rfl
  rw [hhead]
  refine (ask_outcome (c := .type) rfl).trans ((bind_outcome hread).trans ?_)
  simp only [List.nil_append, exists_eq_right']
  have hmove : ∀ ms, ((do
        let _ ← ask (.toValue i)
        intoSlot resolve nested (fields.get? name)) c).Outcome
        (⟨none, none, .map entries :: stack⟩ : Cursor) e src ms ↔
      (intoSlot resolve nested (fields.get? name) c).Outcome
        (⟨some v, none, .map entries :: stack⟩ : Cursor) e src ms := fun ms =>
    ask_outcome (Cursor.answer_toValue none rfl hvalue)
  by_cases hnone : (fields.get? name).isNone = true
  · simp only [hnone, if_true]
    have hnote : (note (.discarded name) c).Outcome (⟨none, none, .map entries :: stack⟩ : Cursor)
        ⟨.ok (), c⟩ ⟨none, none, .map entries :: stack⟩ [.discarded name] := .note _ (.done _ _)
    refine (bind_outcome hnote).trans (exists_congr fun ms => ?_)
    rw [hmove]
  · simp only [hnone, Bool.false_eq_true, if_false, List.nil_append, exists_eq_right']
    exact hmove notes

/-- **Decoding one field is merging one entry.** -/
theorem field_handles
    (hd : ∀ entry ∈ entries, ((plain s).direct n .dynamic).Takes (.dynamic .nil) (.dynamic entry.2) entry.2)
    (ho : ∀ name i t, fields.get? name = some (.member i t) → ((plain s).direct n t).Obeys 0) :
    Handles (.map entries) stack
      (field (fun u => pure ((plain s).direct n u)) (fun u => pure ((plain s).direct n u)) fields) entries
      (Merge (ComesIn s n) fields.get?) := by
  rintro i ⟨k, v⟩ hi c
  have htake : ((plain s).direct n .dynamic).Takes (.dynamic .nil) (.dynamic v) v :=
    hd _ (List.mem_of_getElem? hi)
  cases hk : k.asName with
  | error err =>
    refine ⟨fun e notes => (merge_key hk).trans (field_outcome_error hi hk).symm, fun d src notes h => ?_⟩
    obtain ⟨he, -⟩ := (field_outcome_error hi hk).1 ⟨src, h⟩
    cases he
  | ok name =>
    simp only [field_outcome hi hk, intoSlot_outcome htake]
    match hs : fields.get? name with
    | none =>
      refine ⟨fun e notes => (merge_unknown hk hs).trans ?_, ?_⟩
      · simp
      · rintro d src notes ⟨ms, ⟨-, rfl, -⟩, -⟩
        rfl
    | some (.unsupported path) =>
      refine ⟨fun e notes => (merge_unsupported hk hs).trans ?_, ?_⟩
      · simp
      · rintro d src notes ⟨ms, ⟨he, -, -⟩, -⟩
        cases he
    | some (.member j t) =>
      refine ⟨fun e notes => (merge_member hk hs).trans ?_, ?_⟩
      · simp only [Option.isNone_some, Bool.false_eq_true, if_false, List.nil_append, exists_eq_right']
        constructor
        · rintro ⟨x, hx, he⟩
          obtain ⟨src, hx⟩ := Setup.direct_outcome.2 hx
          exact ⟨src, x, hx, he⟩
        · rintro ⟨src, x, hx, he⟩
          exact ⟨x, Setup.direct_outcome.1 ⟨src, hx⟩, he⟩
      · rintro d src notes ⟨ms, ⟨⟨result, y⟩, hx, he⟩, -⟩
        cases result with
        | ok tag => exact Setup.direct_behind (ho name j t hs) hx
        | error err => cases congrArg Ending.result he

/-- How decoding from a map ends, given how its entries do and what a failure leaves. -/
def merged (initial : Content) (e : Ending Content Unit) : Ending Content Tag :=
  match e.result with
  | .ok _ => ⟨.ok .map, e.dest⟩
  | .error err => ⟨.error err, initial⟩

theorem ok_eq_merged {initial : Content} {tag : Tag} {e : Ending Content Unit} :
    (⟨.ok tag, d⟩ : Ending Content Tag) = merged initial e ↔ tag = .map ∧ e = ⟨.ok (), d⟩ := by
  obtain ⟨result, dest⟩ := e
  constructor
  · intro h
    cases result with
    | ok u =>
      cases h
      exact ⟨rfl, rfl⟩
    | error err => cases congrArg Ending.result h
  · rintro ⟨rfl, h⟩
    cases h
    rfl

theorem record_outcome {initial : Content} {cur : Option Value} {e : Ending Content Tag}
    (hn : entries.length < n)
    (hd : ∀ entry ∈ entries, ((plain s).direct n .dynamic).Takes (.dynamic .nil) (.dynamic entry.2) entry.2)
    (ho : ∀ name i t, fields.get? name = some (.member i t) → ((plain s).direct n t).Obeys 0) :
    (∃ src, (record initial (fun u => pure ((plain s).direct n u)) (fun u => pure ((plain s).direct n u)) n
        fields c).Outcome (⟨some (.map entries), cur, stack⟩ : Cursor) e src notes) ↔
      ∃ x, InTurn (Merge (ComesIn s n) fields.get?) entries c x notes ∧ e = merged initial x := by
  refine container_outcome ?_ (field_handles hd ho) rfl rfl rfl hn
  refine (Dialogue.bind_bind _ _ _).trans (congrArg _ (funext fun x => ?_))
  obtain ⟨result, dest⟩ := x
  cases result <;> rfl

end Decoding

/-! ## Records -/

theorem InTurn.eventually {ι δ : Type} {step : Nat → ι → δ → Ending δ Unit → List Note → Prop} {xs : List ι}
    {d : δ} {e : Ending δ Unit} {notes : List Note}
    (h : InTurn (fun x d e ns => ∀ᶠ n in Filter.atTop, step n x d e ns) xs d e notes) :
    ∀ᶠ n in Filter.atTop, InTurn (step n) xs d e notes := by
  induction h with
  | nil d => exact .of_forall fun _ => .nil d
  | failed h => exact h.mono fun _ => .failed
  | cons h _ ih =>
    filter_upwards [h, ih] with n hn hrest
    exact .cons hn hrest

theorem Merge.eventually {ρ : Type} {own : Nat → Ty → Content → Value → Ending Content ρ → List Note → Prop}
    {slots : String → Option Slot} {entry : Value × Value} {c : Content} {e : Ending Content Unit}
    {notes : List Note}
    (h : Merge (fun t c v e ns => ∀ᶠ n in Filter.atTop, own n t c v e ns) slots entry c e notes) :
    ∀ᶠ n in Filter.atTop, Merge (own n) slots entry c e notes := by
  cases h with
  | member hk hs h => exact h.mono fun _ => .member hk hs
  | unsupported hk hs => exact .of_forall fun _ => .unsupported hk hs
  | unknown hk hs => exact .of_forall fun _ => .unknown hk hs
  | key hk => exact .of_forall fun _ => .key hk

namespace Setup

open Decoding Filter

variable {s : Schema} {name : String} {members : List Member} {registrations : List (String × Target)}
  {own : Option Content} {entries : List (Value × Value)} {c : Content} {e : Ending Content Tag} {notes : List Note}

/-- What decoding with a budget comes to in steps, it comes to in steps given enough of them. -/
theorem comes_inTurn {ι : Type} {t : Ty} {v : Value} {items : List ι} {start : Content}
    {step : Nat → ι → Content → Ending Content Unit → List Note → Prop}
    {step' : ι → Content → Ending Content Unit → List Note → Prop}
    {finish : Ending Content Unit → Ending Content Tag}
    (h : ∀ᶠ n in atTop, (ComesIn s (n + 1) t c v e notes ↔
      ∃ x, InTurn (step n) items start x notes ∧ e = finish x))
    (hfrom : ∀ n x d e ns, step n x d e ns → step' x d e ns)
    (hto : ∀ x d e ns, step' x d e ns → ∀ᶠ n in atTop, step n x d e ns) :
    Comes s t c v e notes ↔ ∃ x, InTurn step' items start x notes ∧ e = finish x := by
  rw [comes_iff_eventually]
  constructor
  · intro hcomes
    obtain ⟨n, hn, hiff⟩ := (hcomes.and h).exists
    obtain ⟨x, hx, rfl⟩ := hiff.1 hn
    exact ⟨x, hx.imp fun item _ => hfrom n item, rfl⟩
  · rintro ⟨x, hx, rfl⟩
    have hlarge : ∀ᶠ n in atTop, InTurn (step n) items start x notes :=
      InTurn.eventually (hx.imp fun item _ => hto item)
    filter_upwards [hlarge, h] with n hn hiff
    exact hiff.2 ⟨x, hn, rfl⟩

/-- **Decoding a record is merging the entries of the map in turn.** -/
theorem comes_record (hd : s.find? name = some (.record members registrations own))
    (ho : ∀ m ∈ members, ∀ n, ((plain s).direct n m.ty).Obeys 0) :
    Comes s (.named name) c (.map entries) e notes ↔
      ∃ x, InTurn (Merge (Comes s) (Definition.registered members registrations)) entries c x notes ∧
        e = merged (s.initial (.named name)) x := by
  have hdynamic : ∀ᶠ n in atTop, ∀ entry ∈ entries,
      ((plain s).direct n .dynamic).Takes (.dynamic .nil) (.dynamic entry.2) entry.2 :=
    eventually_mem fun entry _ => takes_dynamic entry.2 (.dynamic .nil)
  have hrecord : ∀ᶠ n in atTop, (ComesIn s (n + 1) (.named name) c (.map entries) e notes ↔
      ∃ x, InTurn (Merge (ComesIn s n) (Definition.registered members registrations)) entries c x notes ∧
        e = merged (s.initial (.named name)) x) := by
    filter_upwards [hdynamic, eventually_gt_atTop entries.length] with n hdyn hn
    rw [ComesIn, Setup.direct, Schema.plan]
    simp only [show (plain s).schema = s from rfl, hd]
    rw [← Definition.get?_slots]
    refine record_outcome hn hdyn fun nm i t hslot => ?_
    rw [Definition.get?_slots] at hslot
    obtain ⟨m, hm, rfl⟩ := Option.map_eq_some_iff.1 (Definition.registered_member hslot)
    exact ho m (List.mem_of_getElem? hm) n
  exact comes_inTurn hrecord (fun n _ _ _ _ h => h.imp fun _ _ _ _ _ h => ⟨n, h⟩)
    fun _ _ _ _ h => Merge.eventually (h.imp fun _ _ _ _ _ h => h.eventually)

end Setup

/-! ## Decoding records -/

/-- An end with its end signal shut in. -/
def Ending.truncate {δ α : Type} (e : Ending δ α) : Ending δ α :=
  ⟨e.result.mapError Error.truncate, e.dest⟩

/-- Where end signals are shut in step by step, they are shut in at the end. -/
theorem InTurn.truncate_iff {ι δ : Type} {step step' : ι → δ → Ending δ Unit → List Note → Prop}
    (h : ∀ x d e ns, step' x d e ns ↔ ∃ y, step x d y ns ∧ e = y.truncate) {xs : List ι} {d : δ}
    {e : Ending δ Unit} {notes : List Note} :
    InTurn step' xs d e notes ↔ ∃ y, InTurn step xs d y notes ∧ e = y.truncate := by
  constructor
  · intro hx
    induction hx with
    | nil d => exact ⟨_, .nil d, rfl⟩
    | failed hstep =>
      obtain ⟨⟨result, dest⟩, hy, he⟩ := (h _ _ _ _).1 hstep
      cases result with
      | ok u => cases congrArg Ending.result he
      | error err => exact ⟨_, .failed hy, he⟩
    | cons hstep _ ih =>
      obtain ⟨⟨result, dest⟩, hy, he⟩ := (h _ _ _ _).1 hstep
      obtain ⟨z, hz, rfl⟩ := ih
      cases result with
      | ok u =>
        obtain rfl := congrArg Ending.dest he
        exact ⟨z, .cons hy hz, rfl⟩
      | error err => cases congrArg Ending.result he
  · rintro ⟨y, hy, rfl⟩
    induction hy with
    | nil d => exact .nil d
    | failed hstep => exact .failed ((h _ _ _ _).2 ⟨_, hstep, rfl⟩)
    | cons hstep _ ih => exact .cons ((h _ _ _ _).2 ⟨_, hstep, rfl⟩) ih

namespace Setup

open Decoding

variable {s : Schema} {reg : Registry} {name : String} {members : List Member}
  {registrations : List (String × Target)} {own : Option Content} {entries : List (Value × Value)}
  {c : Content} {notes : List Note}

/-- What decoding a value on its own comes to, and what it notes. -/
def Own (s : Schema) (reg : Registry) (t : Ty) (c : Content) (v : Value) (e : Ending Content Unit)
    (notes : List Note) : Prop :=
  (plain s).Shows t c (Cursor.ofValue v) reg e notes

/-- Decoding a value comes to one end at most. -/
theorem Own.unique (hr : reg.Sound s) {t : Ty} {v : Value} {e e' : Ending Content Unit} {ns ms : List Note}
    (h : Own s reg t c v e ns) (h' : Own s reg t c v e' ms) : e = e' ∧ ns = ms := by
  obtain ⟨x, hx, rfl⟩ := (shows_iff hr).1 h
  obtain ⟨y, hy, rfl⟩ := (shows_iff hr).1 h'
  obtain ⟨rfl, rfl⟩ := hx.unique hy
  exact ⟨rfl, rfl⟩

/-- What is decoded with success is what the strategy of the type leaves with success. -/
theorem own_ok (hr : reg.Sound s) {t : Ty} {v : Value} {d : Content} :
    Own s reg t c v ⟨.ok (), d⟩ notes ↔ ∃ tag, Comes s t c v ⟨.ok tag, d⟩ notes := by
  rw [Own, shows_iff hr]
  constructor
  · rintro ⟨⟨result, dest⟩, hx, he⟩
    cases result with
    | error err => cases congrArg Ending.result he
    | ok tag =>
      cases he
      exact ⟨tag, hx⟩
  · rintro ⟨tag, hx⟩
    exact ⟨_, hx, rfl⟩

/-- Merging what values come to when they are decoded is merging what their strategies come to. -/
theorem merge_shows (hr : reg.Sound s) {slots : String → Option Slot} {entry : Value × Value}
    {e : Ending Content Unit} :
    Merge (Own s reg) slots entry c e notes ↔
      ∃ y, Merge (Comes s) slots entry c y notes ∧ e = y.truncate := by
  constructor
  · intro h
    cases h with
    | member hk hs h =>
      obtain ⟨⟨result, dest⟩, hx, rfl⟩ := (shows_iff hr).1 h
      refine ⟨_, .member hk hs hx, ?_⟩
      cases result <;> rfl
    | unsupported hk hs => exact ⟨_, .unsupported hk hs, rfl⟩
    | unknown hk hs => exact ⟨_, .unknown hk hs, rfl⟩
    | key hk =>
      refine ⟨_, .key hk, ?_⟩
      rw [Ending.truncate, Except.mapError, Value.asName_truncate hk]
  · rintro ⟨y, h, rfl⟩
    cases h with
    | @member k v c nm i t x notes hk hs h =>
      have hown : Own s reg t (c.member i) v (shut x) notes := (shows_iff hr).2 ⟨_, h, rfl⟩
      have hm : Merge (Own s reg) slots (k, v) c _ notes := .member hk hs hown
      obtain ⟨result, dest⟩ := x
      cases result <;> exact hm
    | unsupported hk hs => exact .unsupported hk hs
    | unknown hk hs => exact .unknown hk hs
    | key hk =>
      rw [Ending.truncate, Except.mapError, Value.asName_truncate hk]
      exact .key hk

/-- After a failure a record is as it is initially. -/
def reset (initial : Content) (e : Ending Content Unit) : Ending Content Unit :=
  match e.result with
  | .ok _ => e
  | .error err => ⟨.error err, initial⟩

theorem shut_merged (initial : Content) (e : Ending Content Unit) :
    shut (merged initial e) = reset initial e.truncate := by
  obtain ⟨result, dest⟩ := e
  cases result <;> rfl

/-- Decoding a record from a map, in terms of what the values come to when they are decoded. -/
theorem own_record (hs : s.DecodesOne) (hr : reg.Sound s)
    (hd : s.find? name = some (.record members registrations own)) {e : Ending Content Unit} :
    Own s reg (.named name) c (.map entries) e notes ↔
      ∃ x, InTurn (Merge (Own s reg) (Definition.registered members registrations)) entries c x notes ∧
        e = reset (s.initial (.named name)) x := by
  have hturn : ∀ x, InTurn (Merge (Own s reg) (Definition.registered members registrations)) entries c x
      notes ↔ ∃ y, InTurn (Merge (Comes s) (Definition.registered members registrations)) entries c y notes ∧
        x = y.truncate := by
    intro x
    apply InTurn.truncate_iff
    intro entry c e notes
    exact merge_shows hr
  have ho : ∀ m ∈ members, ∀ n, ((plain s).direct n m.ty).Obeys 0 := fun m _ n => direct_obeys hs n m.ty
  rw [Own, shows_iff hr]
  constructor
  · rintro ⟨_, hx, rfl⟩
    obtain ⟨y, hy, rfl⟩ := (comes_record hd ho).1 hx
    exact ⟨_, (hturn _).2 ⟨y, hy, rfl⟩, shut_merged _ y⟩
  · rintro ⟨x, hx, rfl⟩
    obtain ⟨y, hy, rfl⟩ := (hturn x).1 hx
    exact ⟨_, (comes_record hd ho).2 ⟨y, hy, rfl⟩, (shut_merged _ y).symm⟩

/-- Decoding a record from a map succeeds exactly if merging the entries does, and leaves what that makes. -/
theorem own_record_ok (hs : s.DecodesOne) (hr : reg.Sound s)
    (hd : s.find? name = some (.record members registrations own)) {d : Content} :
    Own s reg (.named name) c (.map entries) ⟨.ok (), d⟩ notes ↔
      InTurn (Merge (Own s reg) (Definition.registered members registrations)) entries c ⟨.ok (), d⟩ notes := by
  refine (own_record hs hr hd).trans ⟨?_, fun h => ⟨_, h, rfl⟩⟩
  rintro ⟨⟨result, dest⟩, hx, he⟩
  cases result with
  | ok u => exact he ▸ hx
  | error err => cases congrArg Ending.result he

/-- Decoding a record from a map fails exactly as merging the entries does, and resets the record. -/
theorem own_record_error (hs : s.DecodesOne) (hr : reg.Sound s)
    (hd : s.find? name = some (.record members registrations own)) {err : Error} {d : Content} :
    Own s reg (.named name) c (.map entries) ⟨.error err, d⟩ notes ↔ d = s.initial (.named name) ∧
      ∃ x, InTurn (Merge (Own s reg) (Definition.registered members registrations)) entries c
        ⟨.error err, x⟩ notes := by
  refine (own_record hs hr hd).trans ⟨?_, ?_⟩
  · rintro ⟨⟨result, dest⟩, hx, he⟩
    cases result with
    | ok u => cases congrArg Ending.result he
    | error err' =>
      cases he
      exact ⟨rfl, dest, hx⟩
  · rintro ⟨rfl, x, hx⟩
    exact ⟨_, hx, rfl⟩

/-- Decoding a value comes to an end, unless types that decode by hand go round in circles. -/
theorem exists_shows (hs : s.DecodesOne) (hr : reg.Reachable s) (hg : s.Grounded) (t : Ty) (c : Content)
    (v : Value) : ∃ e notes, Own s reg t c v e notes := by
  have hdyn := comes_of_takes (takes_dynamic (s := s) v (.dynamic .nil))
  have hshows := (shows_iff hr.sound).2 ⟨_, hdyn, rfl⟩
  obtain ⟨r, ⟨-, n, hn⟩, ha, -⟩ := hshows
  have hanswer := (hn n (Nat.le_refl n)).answer.trans ha
  obtain ⟨-, hends⟩ := decode_two_stages hs hr n _ v (Cursor.ofValue v) hanswer t c reg reg hr hr
  obtain ⟨p, -, hp, -, -⟩ := hends hg
  obtain ⟨e, he⟩ := Option.ne_none_iff_exists'.1 hp.1
  exact ⟨e, _, p, hp, he, rfl⟩

/-- **What decoding a record from a map means.** The entries are merged into the record in turn: a key is
the text of a string or of bytes, or the empty name; the value of a registered name is decoded into its
member, from what the member holds; any other name changes nothing, whatever its value, and is noted once.

Decoding succeeds exactly if all entries are merged, and leaves what they make of the record; otherwise it
fails as the first entry does that cannot be merged. So a member that no entry addresses is as it was. And
decoding comes to an end, unless types that decode by hand go round in circles. Those are asked to decode one
value each. -/
theorem decode_record_merges (hs : s.DecodesOne) (hr : reg.Reachable s)
    (hd : s.find? name = some (.record members registrations own)) (entries : List (Value × Value))
    (c : Content) :
    let slots := Definition.registered members registrations
    let whole := Own s reg (.named name) c (.map entries)
    (∀ d notes, whole ⟨.ok (), d⟩ notes ↔ InTurn (Merge (Own s reg) slots) entries c ⟨.ok (), d⟩ notes) ∧
    (∀ err d notes, whole ⟨.error err, d⟩ notes ↔ d = s.initial (.named name) ∧
      ∃ pre entry post c' x ns ms, entries = pre ++ entry :: post ∧
        InTurn (Merge (Own s reg) slots) pre c ⟨.ok (), c'⟩ ns ∧
        Merge (Own s reg) slots entry c' ⟨.error err, x⟩ ms ∧ notes = ns ++ ms) ∧
    (∀ d notes i, whole ⟨.ok (), d⟩ notes →
      (∀ entry ∈ entries, ∀ nm t, entry.1.asName = .ok nm → slots nm ≠ some (.member i t)) →
        d.member i = c.member i) ∧
    (s.Grounded → ∃ e notes, whole e notes) := by
  intro slots whole
  have hok : ∀ d notes, whole ⟨.ok (), d⟩ notes ↔
      InTurn (Merge (Own s reg) slots) entries c ⟨.ok (), d⟩ notes :=
    fun _ _ => own_record_ok hs hr.sound hd
  refine ⟨hok, fun err d notes => (own_record_error hs hr.sound hd).trans (and_congr_right fun _ => ?_), ?_, ?_⟩
  · simp only [InTurn.error_iff]
    constructor
    · rintro ⟨x, pre, entry, post, c', ns, ms, h⟩
      exact ⟨pre, entry, post, c', x, ns, ms, h⟩
    · rintro ⟨pre, entry, post, c', x, ns, ms, h⟩
      exact ⟨x, pre, entry, post, c', ns, ms, h⟩
  · intro d notes i hwhole hi
    exact member_eq_of_inTurn ((hok d notes).1 hwhole) hi
  · exact fun hg => exists_shows hs hr hg _ _ _

/-- A name that is registered twice, two names for one member, bytes and nil for keys, names that are not
known, and a member that is not registered; and a value that is refused after a name that is not known. -/
theorem decode_record_merges_aliases :
    let members : List Member := [⟨"a", .i64⟩, ⟨"b", .option .text⟩, ⟨"c", .i64⟩]
    let registrations : List (String × Target) :=
      [("x", .member 0), ("y", .member 1), ("x", .member 1), ("z", .member 0)]
    let s : Schema := ⟨[("Pair", .record members registrations)]⟩
    let reg := Registry.empty true
    let start := Content.record [.int 7, .present (.text "p"), .int 9]
    let entries : List (Value × Value) := [(.bytes "x".toUTF8, .string "one"),
      (.string "other", .array [.nil, .map [(.int 1, .nil)]]), (.nil, .bool true), (.string "z", .int 3),
      (.string "y", .nil)]
    let refused : Value × Value := (.string "z", .string "four")
    let merge := Merge (Own s reg) (Definition.registered members registrations)
    s.DecodesOne ∧ reg.Reachable s ∧
      InTurn merge entries start ⟨.ok (), .record [.int 3, .absent, .int 9]⟩
        [.discarded "other", .discarded ""] ∧
      ∃ pre entry post c x ns ms, entries ++ [refused] = pre ++ entry :: post ∧
        InTurn merge pre start ⟨.ok (), c⟩ ns ∧
        merge entry c ⟨.error (.typeConversion .string .int), x⟩ ms ∧
        [.discarded "other", .discarded ""] = ns ++ ms := by
  intro members registrations s reg start entries refused merge
  have hd : s.find? "Pair" = some (.record members registrations) := rfl
  have hs : s.DecodesOne := by
    intro name initial uses routine h
    cases Schema.find?_single h
  have hr : reg.Reachable s := .empty true
  obtain ⟨hok, -, -, -⟩ := decode_record_merges hs hr hd entries start
  obtain ⟨-, herror, -, -⟩ := decode_record_merges hs hr hd (entries ++ [refused]) start
  have hwhole : Own s reg (.named "Pair") start (.map entries)
      ⟨.ok (), .record [.int 3, .absent, .int 9]⟩ [.discarded "other", .discarded ""] := by
    let r := ((plain s).decode 9 (.named "Pair") start).run s (Cursor.ofValue (.map entries)) reg
    have hnotes : r.notes = [.discarded "other", .discarded ""] := by decide +kernel
    have hanswer : r.answer = some ⟨.ok (), .record [.int 3, .absent, .int 9]⟩ :=
      eq_some_of_same (by decide +kernel)
    exact hnotes ▸ shows_of_answer hr.sound hanswer
  have hrefused : Own s reg (.named "Pair") start (.map (entries ++ [refused]))
      ⟨.error (.typeConversion .string .int), .record [.int 0, .absent, .int 0]⟩
      [.discarded "other", .discarded ""] := by
    let r := ((plain s).decode 9 (.named "Pair") start).run s
      (Cursor.ofValue (.map (entries ++ [refused]))) reg
    have hnotes : r.notes = [.discarded "other", .discarded ""] := by decide +kernel
    have hanswer : r.answer =
        some ⟨.error (.typeConversion .string .int), .record [.int 0, .absent, .int 0]⟩ :=
      eq_some_of_same (by decide +kernel)
    exact hnotes ▸ shows_of_answer hr.sound hanswer
  exact ⟨hs, hr, (hok _ _).1 hwhole, ((herror _ _ _).1 hrefused).2⟩

/-- After a member that takes a failure inside of a map for a success, the record takes the end of that map for
its own: it is decoded with success, and the next entry, which addresses another member, is not. -/
theorem swallowing_hides_entry :
    let members : List Member := [⟨"a", .named "Swallowing"⟩, ⟨"b", .i64⟩]
    let registrations : List (String × Target) := [("a", .member 0), ("b", .member 1)]
    let s : Schema := ⟨[("Swallowing", Catalog.swallowing), ("Pair", .record members registrations)]⟩
    let reg := Registry.empty true
    let merge := Merge (Own s reg) (Definition.registered members registrations)
    let start := Content.record [.unit, .int 0]
    let entries : List (Value × Value) :=
      [(.string "a", .map [(.string "k", .string "v")]), (.string "b", .int 5)]
    reg.Reachable s ∧ (∃ notes, Own s reg (.named "Pair") start (.map entries) ⟨.ok (), start⟩ notes) ∧
      InTurn merge entries start ⟨.ok (), .record [.unit, .int 5]⟩ [] := by
  intro members registrations s reg merge start entries
  have hr : reg.Reachable s := .empty true
  have hwhole : (((plain s).decode 9 (.named "Pair") start).run s (Cursor.ofValue (.map entries)) reg).answer =
      some ⟨.ok (), start⟩ := eq_some_of_same (by decide +kernel)
  have ha : Own s reg (.named "Swallowing") .unit (.map [(.string "k", .string "v")]) ⟨.ok (), .unit⟩ [] :=
    shows_of_answer (n := 9) hr.sound (eq_some_of_same (by decide +kernel))
  have hb : Own s reg .i64 (.int 0) (.int 5) ⟨.ok (), .int 5⟩ [] :=
    shows_of_answer (n := 9) hr.sound (eq_some_of_same (by decide +kernel))
  have hslota : Definition.registered members registrations "a" = some (.member 0 (.named "Swallowing")) := rfl
  have hslotb : Definition.registered members registrations "b" = some (.member 1 .i64) := rfl
  have hfirst : merge (.string "a", .map [(.string "k", .string "v")]) start ⟨.ok (), start⟩ [] :=
    .member (c := start) (k := .string "a") rfl hslota ha
  have hsecond : merge (.string "b", .int 5) start ⟨.ok (), .record [.unit, .int 5]⟩ [] :=
    .member (c := start) (k := .string "b") rfl hslotb hb
  exact ⟨hr, ⟨_, shows_of_answer hr.sound hwhole⟩, .cons hfirst (.cons hsecond (.nil _))⟩

end Setup

end Decant
