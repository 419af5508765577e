import Decant.Proofs.Merging
import Decant.Proofs.SameData.Decoding
import Decant.Proofs.TwoDestinations

/-!
# Types that are decoded by rule

* `Schema.ByRule` — a type that mentions none that decodes by hand or from a text.
* `Setup.Replaces` — a type that leaves nothing of what its destination held.
* `Treats` — how the types that are decoded by rule treat what their destinations held.
* `Setup.comes_box`, `Setup.comes_option`, `Setup.comes_record_ok` — what decoding such types comes to, in
  terms of the types inside them.
* `Setup.comes_from` — whether decoding succeeds does not depend on what the destination holds.
-/

namespace Decant

theorem Value.size_value_lt {entries : List (Value × Value)} {entry : Value × Value}
    (h : entry ∈ entries) : entry.2.size < (Value.map entries).size := by
  rw [size]
  induction entries with
  | nil => cases h
  | cons e entries ih =>
    obtain ⟨k, v⟩ := e
    rw [sizeEntries]
    rcases List.mem_cons.1 h with rfl | h
    · show v.size < _
      omega
    · have := ih h
      omega

/-! ## Merging from another content -/

/-- Where it does not depend on the destination whether values are decoded, it does not depend on the record
whether entries are merged. -/
theorem inTurn_merge_from {ρ : Type} {own : Ty → Content → Value → Ending Content ρ → List Note → Prop}
    {slots : String → Option Slot} {entries : List (Value × Value)} {c d : Content} {notes : List Note}
    (hown : ∀ entry ∈ entries, ∀ name i t, slots name = some (.member i t) → ∀ c a d ns c',
      own t c entry.2 ⟨.ok a, d⟩ ns → ∃ d', own t c' entry.2 ⟨.ok a, d'⟩ ns)
    (h : InTurn (Merge own slots) entries c ⟨.ok (), d⟩ notes) (c' : Content) :
    ∃ d', InTurn (Merge own slots) entries c' ⟨.ok (), d'⟩ notes := by
  generalize he : (⟨.ok (), d⟩ : Ending Content Unit) = e at h
  induction h generalizing c' with
  | nil => exact ⟨c', .nil c'⟩
  | failed _ => cases he
  | @cons entry _ _ _ _ _ _ h _ ih =>
    have hrest := ih (fun entry hentry => hown entry (List.mem_cons_of_mem _ hentry))
    obtain ⟨k, v⟩ := entry
    obtain ⟨name, hk, ⟨hs, -, rfl⟩ | ⟨i, t, a, y, hs, hy, -⟩⟩ := merge_ok.1 h
    · obtain ⟨d', hd'⟩ := hrest c' he
      exact ⟨d', .cons (.unknown hk hs) hd'⟩
    · obtain ⟨y', hy'⟩ := hown _ List.mem_cons_self name i t hs _ a y _ (c'.member i) hy
      obtain ⟨d', hd'⟩ := hrest (Content.setMember i y' c') he
      exact ⟨d', .cons (.member hk hs hy') hd'⟩

/-! ## Types without rules of their own -/

namespace Schema

variable {s : Schema} {t u : Ty}

/-- A type that mentions none that takes control of its decoding, or decodes itself from a text. -/
structure ByRule (s : Schema) (t : Ty) : Prop where
  custom : ∀ name initial uses routine, s.Mentions t (.named name) →
    s.find? name ≠ some (.custom initial uses routine)
  text : ∀ name initial accept, s.Mentions t (.named name) → s.find? name ≠ some (.text initial accept)

theorem ByRule.part (ht : s.ByRule t) (hu : u ∈ s.parts t) : s.ByRule u :=
  ⟨fun name initial uses routine h => ht.custom name initial uses routine (.part hu h),
    fun name initial accept h => ht.text name initial accept (.part hu h)⟩

/-- A type that mentions no defined type is decoded by rule. -/
theorem byRule_of_parts (hparts : s.parts t = []) (ht : ∀ name, t ≠ .named name) : s.ByRule t := by
  have hmentions : ∀ name, ¬ s.Mentions t (.named name) := by
    intro name h
    cases h with
    | refl => exact ht name rfl
    | part h _ =>
      rw [hparts] at h
      cases h
  exact ⟨fun name _ _ _ h => (hmentions name h).elim, fun name _ _ h => (hmentions name h).elim⟩

/-- What is decoded for a type that is decoded by rule is so too. -/
theorem ByRule.decodes (ht : s.ByRule t) : (s.plan t).Decodes s.ByRule s.ByRule := by
  have hdynamic : s.ByRule .dynamic := byRule_of_parts rfl (by simp)
  cases t with
  | list item =>
    simp only [plan]
    split
    · trivial
    · exact ht.part List.mem_cons_self
  | array item n => exact ⟨ht.part List.mem_cons_self, hdynamic⟩
  | dynamic => exact hdynamic
  | map kind key value =>
    have hk : s.ByRule key := ht.part List.mem_cons_self
    have hv : s.ByRule value := ht.part (List.mem_cons_of_mem _ List.mem_cons_self)
    cases kind with
    | sorted => exact ⟨hk, hv⟩
    | hashed =>
      simp only [plan]
      split
      · exact ⟨byRule_of_parts rfl (by simp), hv⟩
      · exact ⟨hk, hv⟩
  | option inner => exact ht.part List.mem_cons_self
  | box inner => exact ht.part List.mem_cons_self
  | named name =>
    simp only [plan]
    split
    · rename_i d hd
      have hpart : ∀ u ∈ d.types, s.ByRule u := fun u hu => ht.part (by simpa [parts, hd] using hu)
      cases d with
      | record members registrations own => exact ⟨hdynamic, fun _ _ u hu => hpart u (mem_types_of_slot hu)⟩
      | custom initial uses routine => exact absurd hd (ht.custom name initial uses routine (.refl _))
      | _ => trivial
    · trivial
  | _ => trivial

end Schema

/-- Where two dialogues go abreast, what the one comes to is related to what the other does. -/
theorem Dialogue.Abreast.outcome {σ α β : Type} [TokenSource σ] {R : α → β → Prop} {d : Dialogue α}
    {e : Dialogue β} (h : Abreast R d e) {src src' : σ} {a : α} {notes : List Note}
    (hd : d.Outcome src a src' notes) : ∃ b, e.Outcome src b src' notes ∧ R a b := by
  induction h generalizing src notes with
  | done h =>
    obtain ⟨rfl, rfl, rfl⟩ := done_outcome.1 hd
    exact ⟨_, .done _ _, h⟩
  | exhausted | resolve _ _ _ => cases hd
  | ask c _ ih =>
    cases hd with
    | ask ha hd =>
      obtain ⟨b, hb, hr⟩ := ih _ hd
      exact ⟨b, .ask ha hb, hr⟩
  | note n _ ih =>
    cases hd with
    | note _ hd =>
      obtain ⟨b, hb, hr⟩ := ih hd
      exact ⟨b, .note n hb, hr⟩

namespace Setup

open Decoding Filter

variable {s : Schema} {t : Ty} {c d : Content} {v : Value} {e : Ending Content Tag} {tag : Tag}
  {notes : List Note}

/-- The strategy of a type that is decoded by rule obeys the protocol. -/
theorem direct_obeys_byRule (ht : s.ByRule t) (n : Nat) : ((plain s).direct n t).Obeys 0 := by
  induction n generalizing t with
  | zero => exact fun _ _ => .exhausted
  | succ n ih =>
    refine Plan.run_obeys s (fun routine h => ?_) (ht.decodes.mono (fun _ => ih) fun _ => ih) n.zero_le t
    obtain ⟨name, initial, uses, rfl, hd⟩ := Schema.plan_custom h
    exact absurd hd (ht.custom name initial uses routine (.refl _))

/-! ## Types that leave nothing of a destination -/

/-- A type whose strategy leaves nothing of what its destination held. -/
def Replaces (s : Schema) (t : Ty) : Prop := ∀ n, Indifferent Any ((plain s).direct n t) Eq

theorem Replaces.comes (ht : Replaces s t) (h : Comes s t c v ⟨.ok tag, d⟩ notes) (c' : Content) :
    Comes s t c' v ⟨.ok tag, d⟩ notes := by
  obtain ⟨n, src, h⟩ := h
  obtain ⟨e, he, hmatched⟩ := (ht n c c' trivial).outcome h
  cases hmatched with
  | ok hd => exact ⟨n, src, hd ▸ he⟩

/-- The plan of a type is carried out with one step less. -/
theorem replaces_of_plan (h : ∀ n, Indifferent Any ((s.plan t).run (plain s)
    (fun u => pure ((plain s).direct n u)) (fun u => pure ((plain s).direct n u)) n t) Eq) : Replaces s t
  | 0 => fun _ _ _ => .exhausted
  | n + 1 => h n

end Setup

/-- How a type that is decoded by rule treats what its destination held: it replaces it, unless it is boxed,
optional, or a record. -/
inductive Treats (s : Schema) : Ty → Prop
  | replaces {t : Ty} (h : Setup.Replaces s t) : Treats s t
  | box {t : Ty} (h : Treats s t) : Treats s (.box t)
  | option {t : Ty} (h : Treats s t) : Treats s (.option t)
  | record {name : String} {members : List Member} {registrations : List (String × Target)}
      {own : Option Content} (hd : s.find? name = some (.record members registrations own))
      (hm : ∀ m ∈ members, s.ByRule m.ty) :
      Treats s (.named name)

namespace Schema

open Decoding Setup

variable {s : Schema} {t : Ty}

theorem ByRule.treats (ht : s.ByRule t) : Treats s t := by
  induction t with
  | scalar k => exact .replaces (replaces_of_plan fun _ => .scalar k)
  | errorValue => exact .replaces (replaces_of_plan fun _ => .error _ _)
  | dynamic => exact .replaces (replaces_of_plan fun _ => .dynamic _)
  | unsupported name path => exact .replaces (replaces_of_plan fun _ => .fail _)
  | list item =>
    refine .replaces (replaces_of_plan fun n => ?_)
    simp only [plan]
    split
    · exact .bytes
    · exact .list s _ item
  | array item length => exact .replaces (replaces_of_plan fun n => .array s _ item length)
  | map kind key value =>
    refine .replaces (replaces_of_plan fun n => ?_)
    cases kind with
    | sorted => exact .mapOf s _ key value
    | hashed =>
      simp only [plan]
      split
      · exact .textMap s _ value
      · exact .mapOf s _ key value
  | box inner ih => exact .box (ih (ht.part List.mem_cons_self))
  | option inner ih => exact .option (ih (ht.part List.mem_cons_self))
  | named name =>
    cases hd : s.find? name with
    | none =>
      refine .replaces (replaces_of_plan fun n => ?_)
      simp only [plan, hd]
      exact .fail _
    | some d =>
      cases d with
      | record members registrations own =>
        refine .record hd fun m hm => ht.part ?_
        simp only [parts, hd, Option.map_some, Option.getD_some, Definition.types]
        exact List.mem_map_of_mem hm
      | custom initial uses routine => exact absurd hd (ht.custom name initial uses routine (.refl _))
      | text initial accept => exact absurd hd (ht.text name initial accept (.refl _))
      | error initial build =>
        refine .replaces (replaces_of_plan fun n => ?_)
        simp only [plan, hd]
        exact .error _ build

end Schema

namespace Setup

open Decoding Filter

variable {s : Schema} {t : Ty} {c d : Content} {v : Value} {e : Ending Content Tag} {tag : Tag}
  {notes : List Note}

/-! ## Boxes, options and records -/

/-- What comes to an end with one step more comes to it. -/
theorem comes_of_plan {u : Ty} {c' : Content} {finish : Ending Content Tag → Ending Content Tag}
    (h : ∀ n, (plain s).direct (n + 1) u c = ((plain s).direct n t c').bind fun x => .done (finish x)) :
    Comes s u c v e notes ↔ ∃ x, Comes s t c' v x notes ∧ e = finish x := by
  have hstep : ∀ n, ComesIn s (n + 1) u c v e notes ↔ ∃ x, ComesIn s n t c' v x notes ∧ e = finish x := by
    intro n
    simp only [ComesIn, h, Dialogue.map_outcome]
    constructor
    · rintro ⟨src, x, hx, he⟩
      exact ⟨x, ⟨src, hx⟩, he⟩
    · rintro ⟨x, ⟨src, hx⟩, he⟩
      exact ⟨src, x, hx, he⟩
  rw [comes_iff_eventually]
  constructor
  · intro h
    obtain ⟨n, hn⟩ := h.exists
    obtain ⟨x, hx, he⟩ := (hstep n).1 hn
    exact ⟨x, ⟨n, hx⟩, he⟩
  · rintro ⟨x, hx, he⟩
    exact hx.eventually.mono fun n hn => (hstep n).2 ⟨x, hn, he⟩

/-- A box is decoded as what it holds. -/
theorem comes_box : Comes s (.box t) c v e notes ↔ Comes s t c v e notes := by
  have h : ∀ n, (plain s).direct (n + 1) (.box t) c = ((plain s).direct n t c).bind fun x => .done x := by
    intro n
    show through (pure ((plain s).direct n t)) c = _
    rw [through_pure, Dialogue.bind_done]
  rw [comes_of_plan h]
  exact exists_eq_right'

/-- An optional content is decoded as what it holds, or would hold. -/
theorem comes_option : Comes s (.option t) c v e notes ↔
    ∃ x, Comes s t (optionStart s t c) v x notes ∧ e = ⟨x.result, optionEnd c x⟩ :=
  comes_of_plan fun n => option_apply s ((plain s).direct n) t c

section Record

variable {name : String} {members : List Member} {registrations : List (String × Target)}
  {own : Option Content} {entries : List (Value × Value)}

/-- Nil resets a record. -/
theorem comes_record_nil (hd : s.find? name = some (.record members registrations own)) :
    Comes s (.named name) c .nil ⟨.ok .nil, s.initial (.named name)⟩ [] := by
  refine comes_of_takes (v := .nil) (takes_of_plan ?_)
  simp only [Schema.plan, hd]
  exact .of_forall fun n => record_takes_nil _ _

/-- A record is decoded from a map or from nil only. -/
theorem comes_record_tag (hd : s.find? name = some (.record members registrations own))
    (h : Comes s (.named name) c v ⟨.ok tag, d⟩ notes) : v = .nil ∨ ∃ entries, v = .map entries := by
  by_contra hv
  have hnil : v.tag ≠ .nil := by
    intro ht
    cases v <;> cases ht
    exact hv (.inl rfl)
  have hmap : v.tag ≠ .map := by
    intro ht
    cases v <;> cases ht
    exact hv (.inr ⟨_, rfl⟩)
  obtain ⟨n, src, hn⟩ := (comes_iff_eventually.1 h).exists
  simp only [Setup.direct, Schema.plan, show (plain s).schema = s from rfl, hd] at hn
  have hrest := (ask_outcome (c := .type) (a := v.tag) rfl).1 hn
  unfold walk at hrest
  rw [if_neg hnil, if_neg (show v.tag ≠ Container.map.tag from hmap)] at hrest
  cases hrest

/-- Decoding a record from a map with success is merging the entries in turn. -/
theorem comes_record_map (hd : s.find? name = some (.record members registrations own))
    (hm : ∀ m ∈ members, s.ByRule m.ty) : Comes s (.named name) c (.map entries) ⟨.ok tag, d⟩ notes ↔
      tag = .map ∧ InTurn (Merge (Comes s) (Definition.registered members registrations)) entries c
        ⟨.ok (), d⟩ notes := by
  rw [comes_record hd fun m hmem => direct_obeys_byRule (hm m hmem)]
  simp only [ok_eq_merged]
  constructor
  · rintro ⟨x, hx, rfl, rfl⟩
    exact ⟨rfl, hx⟩
  · rintro ⟨rfl, hx⟩
    exact ⟨_, hx, rfl, rfl⟩

/-- The type of a registered member is one that the record mentions. -/
theorem byRule_registered {i : Nat} {nm : String} (hm : ∀ m ∈ members, s.ByRule m.ty)
    (hs : Definition.registered members registrations nm = some (.member i t)) : s.ByRule t := by
  obtain ⟨m, hmem, rfl⟩ := Option.map_eq_some_iff.1 (Definition.registered_member hs)
  exact hm m (List.mem_of_getElem? hmem)

end Record

theorem comes_from_of_lt (k : Nat) {t : Ty} {v : Value} {c d : Content} {tag : Tag} {notes : List Note}
    (hv : v.size < k) (ht : Treats s t) (h : Comes s t c v ⟨.ok tag, d⟩ notes) (c' : Content) :
    ∃ d', Comes s t c' v ⟨.ok tag, d'⟩ notes := by
  induction k generalizing t v c d tag notes c' with
  | zero => cases hv
  | succ k ih =>
    induction ht generalizing c d c' with
    | replaces hrep => exact ⟨d, hrep.comes h c'⟩
    | box _ ihu =>
      obtain ⟨d', hd'⟩ := ihu (comes_box.1 h) c'
      exact ⟨d', comes_box.2 hd'⟩
    | @option u _ ihu =>
      obtain ⟨⟨result, x⟩, hx, he⟩ := comes_option.1 h
      obtain rfl : result = .ok tag := (congrArg Ending.result he).symm
      obtain ⟨x', hx'⟩ := ihu hx (optionStart s u c')
      exact ⟨_, comes_option.2 ⟨_, hx', rfl⟩⟩
    | record hd hm =>
      rcases comes_record_tag hd h with rfl | ⟨entries, rfl⟩
      · obtain ⟨he, rfl⟩ := h.unique (comes_record_nil hd)
        cases he
        exact ⟨_, comes_record_nil hd⟩
      · obtain ⟨rfl, hturn⟩ := (comes_record_map hd hm).1 h
        -- The values of the entries are smaller than the map.
        obtain ⟨d', hd'⟩ := inTurn_merge_from (fun entry hentry nm i u hs c a d ns c' hown =>
          have hlt := Value.size_value_lt hentry
          ih (by omega) (byRule_registered hm hs).treats hown c') hturn c'
        exact ⟨d', (comes_record_map hd hm).2 ⟨rfl, hd'⟩⟩

/-- **What a destination holds does not count for whether a value is decoded into it**, if its type is
decoded by rule. -/
theorem comes_from (ht : Treats s t) (h : Comes s t c v ⟨.ok tag, d⟩ notes) (c' : Content) :
    ∃ d', Comes s t c' v ⟨.ok tag, d'⟩ notes :=
  comes_from_of_lt (v.size + 1) (Nat.lt_succ_self _) ht h c'

end Setup

end Decant
