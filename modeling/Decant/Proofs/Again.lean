import Decant.Proofs.ByRule

/-!
# Decoding the same again

* `Setup.Through` — values decoded with success one after the other, each into what the one before left.
* `Setup.through_again` — a content that values left is left by them again, if they are decoded into it: for
  types that are decoded by rule, which may merge.
* `Setup.decode_again` — so decoding a value again changes nothing.

A map may address a member of a record several times, so what has to be shown for one value of a record is
needed for several values of a member, one after the other. Values that replace what was there are the end of
it; the members of a record are changed independently of each other; and of an optional content only what
came after the last nil counts.
-/

namespace Decant

namespace Setup

open Decoding

variable {s : Schema} {t : Ty} {v : Value} {vs us : List Value} {c c' d y y' : Content} {tag : Tag}
  {notes : List Note}

/-- Values decoded with success one after the other, each into what the one before left. -/
inductive Through (s : Schema) (t : Ty) : List Value → Content → Content → Prop
  | nil (c : Content) : Through s t [] c c
  | cons {v : Value} {vs : List Value} {c d y : Content} {tag : Tag} {notes : List Note}
      (h : Comes s t c v ⟨.ok tag, d⟩ notes) (hrest : Through s t vs d y) : Through s t (v :: vs) c y

namespace Through

theorem unique (h : Through s t vs c y) (h' : Through s t vs c y') : y = y' := by
  induction h with
  | nil c =>
    cases h'
    rfl
  | cons h _ ih =>
    cases h' with
    | cons h' hrest' =>
      obtain ⟨he, -⟩ := h.unique h'
      cases he
      exact ih hrest'

theorem of_append (h : Through s t (us ++ vs) c y) : ∃ d, Through s t us c d ∧ Through s t vs d y := by
  induction us generalizing c with
  | nil => exact ⟨c, .nil c, h⟩
  | cons u us ih =>
    cases h with
    | cons hu h =>
      obtain ⟨d, hus, hvs⟩ := ih h
      exact ⟨d, .cons hu hus, hvs⟩

/-- What can be decoded into one content can be decoded into any other. -/
theorem exists_from (ht : Treats s t) (h : Through s t vs c y) (c' : Content) : ∃ y', Through s t vs c' y' := by
  induction h generalizing c' with
  | nil => exact ⟨c', .nil c'⟩
  | cons h _ ih =>
    obtain ⟨d', hd'⟩ := comes_from ht h c'
    obtain ⟨y', hy'⟩ := ih d'
    exact ⟨y', .cons hd' hy'⟩

end Through

/-! ## Types that replace, and boxes -/

/-- Values that replace what was there leave the same wherever they start. -/
theorem Replaces.through (ht : Replaces s t) (h : Through s t (v :: vs) c y) (c' : Content) :
    Through s t (v :: vs) c' y := by
  cases h with
  | cons h hrest => exact .cons (ht.comes h c') hrest

theorem through_box : Through s (.box t) vs c y ↔ Through s t vs c y := by
  constructor <;> intro h
  · induction h with
    | nil c => exact .nil c
    | cons h _ ih => exact .cons (comes_box.1 h) ih
  · induction h with
    | nil c => exact .nil c
    | cons h _ ih => exact .cons (comes_box.2 h) ih

/-! ## Optional contents -/

/-- A value that leaves an optional content absent. -/
def Clears (s : Schema) (t : Ty) (v : Value) : Prop := ∃ c d notes, Comes s t c v ⟨.ok .nil, d⟩ notes

/-- A content in which nothing is present. -/
def Void (c : Content) : Prop := ∀ x, c ≠ .present x

theorem void_absent : Void .absent := by simp [Void]

theorem optionStart_of_void (hc : Void c) : optionStart s t c = s.initial t := by
  cases c with
  | present x => exact absurd rfl (hc x)
  | _ => rfl

theorem optionEnd_of_void (hc : Void c) (x : Content) : optionEnd c ⟨.ok .nil, x⟩ = c := by
  cases c with
  | present z => exact absurd rfl (hc z)
  | _ => rfl

theorem optionEnd_of_not_void (hc : ¬ Void c) (x : Content) : optionEnd c ⟨.ok .nil, x⟩ = .absent := by
  obtain ⟨z, rfl⟩ : ∃ z, c = .present z := by simpa [Void] using hc
  rfl

theorem optionEnd_of_ne_nil (htag : tag ≠ .nil) (c x : Content) :
    optionEnd c ⟨.ok tag, x⟩ = .present x := by
  cases c <;> cases tag <;> first | rfl | exact absurd rfl htag

theorem clears_of_comes (ht : Treats s t) (h : Comes s t c v ⟨.ok tag, d⟩ notes) :
    Clears s t v ↔ tag = .nil := by
  constructor
  · rintro ⟨_, _, _, hnil⟩
    obtain ⟨_, hc⟩ := comes_from ht hnil c
    obtain ⟨he, -⟩ := hc.unique h
    cases he
    rfl
  · rintro rfl
    exact ⟨_, _, _, h⟩

/-- What one value does to an optional content: nil leaves nothing present, anything else something. -/
theorem option_step (ht : Treats s t) (h : Comes s (.option t) c v ⟨.ok tag, d⟩ notes) :
    (Clears s t v ∧ Void d ∧ (Void c → d = c) ∧ (¬ Void c → d = .absent)) ∨
      (¬ Clears s t v ∧ ∃ x, Comes s t (optionStart s t c) v ⟨.ok tag, x⟩ notes ∧ d = .present x) := by
  obtain ⟨⟨result, x⟩, hx, he⟩ := comes_option.1 h
  obtain rfl : result = .ok tag := (congrArg Ending.result he).symm
  obtain rfl : d = optionEnd c ⟨.ok tag, x⟩ := congrArg Ending.dest he
  rw [clears_of_comes ht hx]
  by_cases htag : tag = .nil
  · subst htag
    by_cases hc : Void c
    · rw [optionEnd_of_void hc]
      exact .inl ⟨rfl, hc, fun _ => rfl, fun h => absurd hc h⟩
    · rw [optionEnd_of_not_void hc]
      exact .inl ⟨rfl, void_absent, fun h => absurd h hc, fun _ => rfl⟩
  · exact .inr ⟨htag, x, hx, optionEnd_of_ne_nil htag c x⟩

/-- As long as no value clears it, an optional content holds what its values leave. -/
theorem through_option (ht : Treats s t) (hvs : ∀ v ∈ vs, ¬ Clears s t v) :
    Through s (.option t) vs (.present c) d ↔ ∃ x, Through s t vs c x ∧ d = .present x := by
  induction vs generalizing c with
  | nil =>
    constructor
    · intro h
      cases h
      exact ⟨c, .nil c, rfl⟩
    · rintro ⟨x, h, rfl⟩
      cases h
      exact .nil _
  | cons v vs ih =>
    have hv : ¬ Clears s t v := hvs v List.mem_cons_self
    have hrest : ∀ v ∈ vs, ¬ Clears s t v := fun v hv => hvs v (List.mem_cons_of_mem _ hv)
    constructor
    · intro h
      cases h with
      | cons h h' =>
        rcases option_step ht h with ⟨hclears, -⟩ | ⟨-, x, hx, rfl⟩
        · exact absurd hclears hv
        · obtain ⟨y, hy, rfl⟩ := (ih hrest).1 h'
          exact ⟨y, .cons hx hy, rfl⟩
    · rintro ⟨x, h, rfl⟩
      cases h with
      | @cons _ _ _ z _ tag notes h h' =>
        have hstep : Comes s (.option t) (.present c) v ⟨.ok tag, .present z⟩ notes := by
          have htag : tag ≠ .nil := fun htag => hv ((clears_of_comes ht h).2 htag)
          exact comes_option.2 ⟨_, h, by rw [optionEnd_of_ne_nil htag]⟩
        exact .cons hstep ((ih hrest).2 ⟨x, h', rfl⟩)

/-- Where nothing is present, values that clear it change nothing. -/
theorem eq_of_clears (ht : Treats s t) (hvs : ∀ v ∈ vs, Clears s t v) (hc : Void c)
    (h : Through s (.option t) vs c y) : y = c := by
  induction vs generalizing c with
  | nil =>
    cases h
    rfl
  | cons v vs ih =>
    cases h with
    | cons h hrest =>
      rcases option_step ht h with ⟨-, -, hd, -⟩ | ⟨hv, -⟩
      · obtain rfl := hd hc
        exact ih (fun v hv => hvs v (List.mem_cons_of_mem _ hv)) hc hrest
      · exact absurd (hvs v List.mem_cons_self) hv

/-- Where nothing is present in the end, all values cleared it, unless it was made absent. -/
theorem clears_of_void (ht : Treats s t) (h : Through s (.option t) vs c y) (hy : Void y) :
    y = .absent ∨ y = c ∧ ∀ v ∈ vs, Clears s t v := by
  induction vs generalizing c with
  | nil =>
    cases h
    exact .inr ⟨rfl, nofun⟩
  | cons v vs ih =>
    cases h with
    | cons h hrest =>
      rcases ih hrest with habsent | ⟨rfl, hvs⟩
      · exact .inl habsent
      · rcases option_step ht h with ⟨hv, -, hd, hd'⟩ | ⟨-, x, -, rfl⟩
        · by_cases hc : Void c
          · exact .inr ⟨hd hc, List.forall_mem_cons.2 ⟨hv, hvs⟩⟩
          · exact .inl (hd' hc)
        · exact absurd rfl (hy x)

/-- From where nothing is present, values leave the same, unless they leave nothing present. -/
theorem eq_or_void (ht : Treats s t) (hc : Void c) (hc' : Void c') (h : Through s (.option t) vs c y)
    (h' : Through s (.option t) vs c' y') : y = y' ∨ Void y ∧ Void y' := by
  induction vs generalizing c c' with
  | nil =>
    cases h
    cases h'
    exact .inr ⟨hc, hc'⟩
  | cons v vs ih =>
    cases h with
    | cons h hrest =>
      cases h' with
      | cons h' hrest' =>
        rcases option_step ht h with ⟨hv, hd, -⟩ | ⟨hv, x, hx, rfl⟩
        · rcases option_step ht h' with ⟨-, hd', -⟩ | ⟨hv', -⟩
          · exact ih hd hd' hrest hrest'
          · exact absurd hv hv'
        · rcases option_step ht h' with ⟨hv', -⟩ | ⟨-, x', hx', rfl⟩
          · exact absurd hv' hv
          · rw [optionStart_of_void hc] at hx
            rw [optionStart_of_void hc'] at hx'
            obtain ⟨he, -⟩ := hx.unique hx'
            cases he
            exact .inl (hrest.unique hrest')

/-- What values leave of an optional content they leave again, if they do so of what it holds. -/
theorem option_again (ht : Treats s t) (hinner : ∀ {c y}, Through s t vs c y → Through s t vs y y)
    (h : Through s (.option t) vs c y) : Through s (.option t) vs y y := by
  by_cases hclears : ∃ v ∈ vs, Clears s t v
  · obtain ⟨v, hv, hvclears⟩ := hclears
    obtain ⟨y', h'⟩ := h.exists_from (.option ht) y
    -- Behind a value that clears it, both start from where nothing is present.
    have hvoid : y = y' ∨ Void y ∧ Void y' := by
      obtain ⟨pre, post, rfl⟩ := List.append_of_mem hv
      obtain ⟨_, -, hrest⟩ := h.of_append
      obtain ⟨_, -, hrest'⟩ := h'.of_append
      cases hrest with
      | cons hstep hpost =>
        cases hrest' with
        | cons hstep' hpost' =>
          rcases option_step ht hstep with ⟨-, hd, -⟩ | ⟨hnot, -⟩
          · rcases option_step ht hstep' with ⟨-, hd', -⟩ | ⟨hnot, -⟩
            · exact eq_or_void ht hd hd' hpost hpost'
            · exact absurd hvclears hnot
          · exact absurd hvclears hnot
    rcases hvoid with rfl | ⟨hy, hy'⟩
    · exact h'
    · rcases clears_of_void ht h hy with rfl | ⟨-, hall⟩
      · rcases clears_of_void ht h' hy' with rfl | ⟨rfl, -⟩ <;> exact h'
      · obtain rfl := eq_of_clears ht hall hy h'
        exact h'
  · have hnot : ∀ v ∈ vs, ¬ Clears s t v := fun v hv h => hclears ⟨v, hv, h⟩
    cases h with
    | nil c => exact .nil c
    | cons h hrest =>
      rcases option_step ht h with ⟨hv, -⟩ | ⟨-, x, hx, rfl⟩
      · exact absurd hv (hnot _ List.mem_cons_self)
      · obtain ⟨z, hz, rfl⟩ :=
          (through_option ht fun v hv => hnot v (List.mem_cons_of_mem _ hv)).1 hrest
        exact (through_option ht hnot).2 ⟨z, hinner (.cons hx hz), rfl⟩

/-! ## Records -/

/-- Whether a key stands for a name that addresses a member. -/
def addresses (slots : String → Option Slot) (i : Nat) (k : Value) : Bool :=
  match k.asName with
  | .ok name =>
    match slots name with
    | some (.member j _) => j == i
    | _ => false
  | .error _ => false

/-- The values that entries have for a member. -/
def addressed (slots : String → Option Slot) (i : Nat) (entries : List (Value × Value)) : List Value :=
  (entries.filter fun entry => addresses slots i entry.1).map (·.2)

theorem addressed_cons (slots : String → Option Slot) (i : Nat) (k v : Value)
    (entries : List (Value × Value)) : addressed slots i ((k, v) :: entries) =
      if addresses slots i k then v :: addressed slots i entries else addressed slots i entries := by
  unfold addressed
  rw [List.filter_cons]
  split <;> rfl

theorem total_addressed_le (slots : String → Option Slot) (i : Nat) (entries : List (Value × Value)) :
    total Value.size (addressed slots i entries) ≤ Value.sizeEntries entries := by
  induction entries with
  | nil => exact Nat.le_refl 0
  | cons entry entries ih =>
    obtain ⟨k, v⟩ := entry
    rw [addressed_cons, Value.sizeEntries]
    split
    · rw [total]
      omega
    · omega

variable {slots : String → Option Slot} {entries : List (Value × Value)}

/-- Merging keeps records records, with as many members, and leaves alone what is none. -/
theorem merged_members (h : InTurn (Merge (Comes s) slots) entries c ⟨.ok (), y⟩ notes) :
    (∃ ms ms', c = .record ms ∧ y = .record ms' ∧ ms'.length = ms.length) ∨ y = c := by
  generalize he : (⟨.ok (), y⟩ : Ending Content Unit) = e at h
  induction h with
  | nil c =>
    cases he
    exact .inr rfl
  | failed _ => cases he
  | @cons entry _ c d _ _ _ h _ ih =>
    have hstep : (∃ ms ms', c = .record ms ∧ d = .record ms' ∧ ms'.length = ms.length) ∨ d = c := by
      obtain ⟨k, v⟩ := entry
      obtain ⟨_, -, ⟨-, rfl, -⟩ | ⟨i, _, _, x, -, -, rfl⟩⟩ := merge_ok.1 h
      · exact .inr rfl
      · cases c with
        | record ms => exact .inl ⟨ms, ms.set i x, rfl, rfl, List.length_set⟩
        | _ => exact .inr rfl
    rcases hstep with ⟨ms, ms', rfl, rfl, hlen⟩ | rfl
    · rcases ih he with ⟨_, ms'', hms, rfl, hlen'⟩ | rfl
      · cases hms
        exact .inl ⟨ms, ms'', rfl, rfl, hlen'.trans hlen⟩
      · exact .inl ⟨ms, ms', rfl, rfl, hlen⟩
    · exact ih he

/-- Merging decodes into each member the values that address it, one after the other. -/
theorem through_member {i : Nat} (hi : i < c.members.length)
    (ht : ∀ name u, slots name = some (.member i u) → u = t)
    (h : InTurn (Merge (Comes s) slots) entries c ⟨.ok (), y⟩ notes) :
    Through s t (addressed slots i entries) (c.member i) (y.member i) := by
  generalize he : (⟨.ok (), y⟩ : Ending Content Unit) = e at h
  induction h with
  | nil c =>
    cases he
    exact .nil _
  | failed _ => cases he
  | @cons entry rest c d _ _ _ h _ ih =>
    obtain ⟨k, v⟩ := entry
    have hlen : i < d.members.length := by
      have hone := InTurn.cons h (.nil d)
      rcases merged_members hone with ⟨ms, ms', rfl, rfl, hlen⟩ | rfl
      · exact lt_of_lt_of_eq hi hlen.symm
      · exact hi
    have hrest := ih hlen he
    obtain ⟨name, hk, ⟨hs, rfl, -⟩ | ⟨j, u, tag, x, hs, hx, rfl⟩⟩ := merge_ok.1 h
    · have hother : addresses slots i k = false := by simp [addresses, hk, hs]
      rwa [addressed_cons, hother, if_neg Bool.false_ne_true]
    · by_cases hj : j = i
      · subst hj
        obtain rfl := ht name u hs
        have hhere : addresses slots j k = true := by simp [addresses, hk, hs]
        rw [Content.member_setMember hi] at hrest
        rw [addressed_cons, if_pos hhere]
        exact .cons hx hrest
      · have hother : addresses slots i k = false := by simp [addresses, hk, hs, hj]
        rw [Content.member_setMember_of_ne hj] at hrest
        rwa [addressed_cons, hother, if_neg Bool.false_ne_true]

/-- A record that merging leaves with equal members is left as it was. -/
theorem eq_of_members (h : InTurn (Merge (Comes s) slots) entries c ⟨.ok (), y⟩ notes)
    (hmembers : ∀ i < c.members.length, y.member i = c.member i) : y = c := by
  rcases merged_members h with ⟨ms, ms', rfl, rfl, hlen⟩ | rfl
  · refine congrArg Content.record (List.ext_getElem hlen fun i hi hi' => ?_)
    have hmember : ms'.getD i .unit = ms.getD i .unit := hmembers i hi'
    simpa [hi, hi'] using hmember
  · rfl

/-- The entries of maps, those of one map behind those of the one before. -/
def allEntries : List Value → List (Value × Value)
  | [] => []
  | .map entries :: vs => entries ++ allEntries vs
  | _ :: vs => allEntries vs

theorem sizeEntries_append (as bs : List (Value × Value)) :
    Value.sizeEntries (as ++ bs) = Value.sizeEntries as + Value.sizeEntries bs := by
  induction as with
  | nil => exact (Nat.zero_add _).symm
  | cons a as ih =>
    obtain ⟨k, v⟩ := a
    rw [List.cons_append, Value.sizeEntries, Value.sizeEntries, ih]
    omega

theorem size_allEntries_lt (v : Value) (vs : List Value) :
    Value.sizeEntries (allEntries (v :: vs)) < total Value.size (v :: vs) := by
  have hle : ∀ vs, Value.sizeEntries (allEntries vs) ≤ total Value.size vs := by
    intro vs
    induction vs with
    | nil => exact Nat.le_refl 0
    | cons v vs ih =>
      cases v <;> simp only [allEntries, sizeEntries_append, total, Value.size] <;> omega
  have := hle vs
  cases v <;> simp only [allEntries, sizeEntries_append, total, Value.size] <;> omega

variable {name : String} {members : List Member} {registrations : List (String × Target)}
  {own : Option Content}

/-- Decoding maps into a record one after the other is merging all of their entries. -/
theorem through_maps (hd : s.find? name = some (.record members registrations own))
    (hm : ∀ m ∈ members, s.ByRule m.ty) (hvs : .nil ∉ vs) (h : Through s (.named name) vs c y) :
    ∃ notes, InTurn (Merge (Comes s) (Definition.registered members registrations)) (allEntries vs) c
      ⟨.ok (), y⟩ notes := by
  induction h with
  | nil c => exact ⟨_, .nil c⟩
  | cons h _ ih =>
    obtain ⟨ms, hrest⟩ := ih fun hmem => hvs (List.mem_cons_of_mem _ hmem)
    rcases comes_record_tag hd h with rfl | ⟨entries, rfl⟩
    · exact absurd List.mem_cons_self hvs
    · obtain ⟨-, hturn⟩ := (comes_record_map hd hm).1 h
      exact ⟨_, hturn.append hrest⟩

/-- What values leave of a record they leave again, if they do so of its members. -/
theorem record_again (hd : s.find? name = some (.record members registrations own))
    (hm : ∀ m ∈ members, s.ByRule m.ty)
    (hinner : ∀ {u us c y}, total Value.size us < total Value.size vs → Treats s u →
      Through s u us c y → Through s u us y y)
    (h : Through s (.named name) vs c y) : Through s (.named name) vs y y := by
  obtain ⟨y', h'⟩ := h.exists_from (.record hd hm) y
  suffices hy : y' = y from hy ▸ h'
  by_cases hnil : .nil ∈ vs
  · obtain ⟨pre, post, rfl⟩ := List.append_of_mem hnil
    obtain ⟨_, -, hrest⟩ := h.of_append
    obtain ⟨_, -, hrest'⟩ := h'.of_append
    cases hrest with
    | cons hstep hpost =>
      cases hrest' with
      | cons hstep' hpost' =>
        -- Both go on from the initial content.
        cases (hstep.unique (comes_record_nil hd)).1
        cases (hstep'.unique (comes_record_nil hd)).1
        exact hpost'.unique hpost
  · cases vs with
    | nil =>
      cases h'
      rfl
    | cons v vs =>
      obtain ⟨_, hturn⟩ := through_maps hd hm hnil h
      obtain ⟨_, hturn'⟩ := through_maps hd hm hnil h'
      refine eq_of_members hturn' fun i hi => ?_
      let u := (members[i]?.map (·.ty)).getD .dynamic
      have hu : ∀ nm w, Definition.registered members registrations nm = some (.member i w) → w = u := by
        intro nm w hs
        simp only [u, Definition.registered_member hs, Option.getD_some]
      have htreats : Treats s u := by
        cases hmember : members[i]? with
        | none => exact .replaces (replaces_of_plan fun _ => by simp only [u, hmember]; exact .dynamic _)
        | some m =>
          simp only [u, hmember, Option.map_some, Option.getD_some]
          exact (hm m (List.mem_of_getElem? hmember)).treats
      have hic : i < c.members.length := by
        rcases merged_members hturn with ⟨ms, ms', rfl, rfl, hlen⟩ | rfl
        · exact lt_of_lt_of_eq hi hlen
        · exact hi
      have hthrough := through_member hic hu hturn
      -- The values of a member are some of those in the maps.
      have hlt := lt_of_le_of_lt (total_addressed_le (Definition.registered members registrations) i _)
        (size_allEntries_lt v vs)
      exact (through_member hi hu hturn').unique (hinner hlt htreats hthrough)

theorem through_again_of_lt (k : Nat) (hk : total Value.size vs < k) (ht : Treats s t)
    (h : Through s t vs c y) : Through s t vs y y := by
  induction k generalizing t vs c y with
  | zero => cases hk
  | succ k ih =>
    induction ht generalizing c y with
    | replaces hrep =>
      cases vs with
      | nil => exact .nil y
      | cons v vs => exact hrep.through h y
    | box _ ihu => exact through_box.2 (ihu (through_box.1 h))
    | option ht ihu => exact option_again ht ihu h
    | record hd hm => exact record_again hd hm (fun hlt => ih (by omega)) h

/-- **What values leave they leave again**, if they are decoded into it in turn. -/
theorem through_again (ht : Treats s t) (h : Through s t vs c y) : Through s t vs y y :=
  through_again_of_lt (total Value.size vs + 1) (Nat.lt_succ_self _) ht h

/-- **Decoding a value again changes nothing.** What a destination holds after a value was decoded into it
with success, whatever it held before, is left there again if the same value is decoded into it once more,
and the same is noted: for types that are decoded by rule, be they leaves, sequences, maps, boxes, optional
contents or records that mention themselves. -/
theorem decode_again {reg reg' : Registry} (hr : reg.Reachable s) (hr' : reg'.Reachable s)
    (ht : s.ByRule t) {prior : Content} (h : Own s reg t prior v ⟨.ok (), y⟩ notes) :
    Own s reg' t y v ⟨.ok (), y⟩ notes := by
  obtain ⟨tag, h⟩ := (own_ok hr.sound).1 h
  obtain ⟨d, hd⟩ := comes_from ht.treats h y
  cases through_again ht.treats (.cons h (.nil y)) with
  | cons hagain hrest =>
    cases hrest
    obtain ⟨-, rfl⟩ := hagain.unique hd
    exact (own_ok hr'.sound).2 ⟨_, hagain⟩

/-- A list of nodes, of which the rest is addressed three times: by a node, by nil, and by two nodes. -/
theorem decode_again_rest :
    let s : Schema := ⟨[("Node", .record [⟨"value", .i64⟩, ⟨"rest", .option (.box (.named "Node"))⟩]
      [("value", .member 0), ("rest", .member 1)])]⟩
    let t : Ty := .named "Node"
    let prior : Content := .record [.int 7, .present (.record [.int 8, .absent])]
    let v : Value := .map [(.string "rest", .map [(.string "value", .int 1)]), (.string "rest", .nil),
      (.string "rest", .map [(.string "rest", .map [(.string "value", .int 2)])])]
    let y : Content := .record [.int 7, .present (.record [.int 0, .present (.record [.int 2, .absent])])]
    (Registry.empty true).Reachable s ∧ (Registry.empty false).Reachable s ∧ s.ByRule t ∧
      Own s (.empty true) t prior v ⟨.ok (), y⟩ [] ∧ Own s (.empty false) t y v ⟨.ok (), y⟩ [] := by
  intro s t prior v y
  have hr : (Registry.empty true).Reachable s := .empty true
  have hr' : (Registry.empty false).Reachable s := .empty false
  have ht : s.ByRule t := by
    constructor
    · intro name initial uses routine _ h
      cases Schema.find?_single h
    · intro name initial accept _ h
      cases Schema.find?_single h
  have hown : Own s (.empty true) t prior v ⟨.ok (), y⟩ [] := by
    let r := ((plain s).decode 20 t prior).run s (Cursor.ofValue v) (.empty true)
    have hnotes : r.notes = [] := by decide +kernel
    have hanswer : r.answer = some ⟨.ok (), y⟩ :=
      eq_some_of_same (by decide +kernel)
    exact hnotes ▸ shows_of_answer hr.sound hanswer
  exact ⟨hr, hr', ht, hown, decode_again hr hr' ht hown⟩

end Setup

end Decant
