import Decant.Duration.Written
import Mathlib.Data.List.TakeWhile
import Mathlib.Data.Nat.Digits.Defs

/-!
# The texts of spans of time

Reading a span cuts its text where digits, a point or a unit begin. Here the texts are written down
instead, group by group, and reading them back is shown to give what was written.

* `Duration.Written.Group` — a number, with or without a fraction, and its unit.
* `Duration.Written.groups?_chars` — a list of groups is read back as long as their nanoseconds add up to
  no more than the limit. The total is checked after each group and each part of one, which comes to the
  same since nothing is ever taken off it.
* `Duration.Written.ofChars?_eq_some` — the characters that denote a span, signs and the bare `0` included.
* `Duration.text_laws` — signs mirror spans, and writing spans one behind the other adds them up.
-/

namespace Decant

namespace Duration

namespace Written

/-! ## Cutting a text -/

section Cut

variable {α : Type} {p : α → Bool} {xs ys : List α}

/-- What is taken off a list is all in front of the first element that stops it. -/
theorem takeWhile_append_stop (hx : ∀ x ∈ xs, p x = true) (hy : ∀ y ∈ ys.head?, p y = false) :
    (xs ++ ys).takeWhile p = xs := by
  induction xs with
  | nil =>
    cases ys with
    | nil => rfl
    | cons y ys => simp [hy y rfl]
  | cons x xs ih =>
    rw [List.cons_append, List.takeWhile_cons_of_pos (hx x List.mem_cons_self),
      ih fun z hz => hx z (List.mem_cons_of_mem x hz)]

theorem dropWhile_append_stop (hx : ∀ x ∈ xs, p x = true) (hy : ∀ y ∈ ys.head?, p y = false) :
    (xs ++ ys).dropWhile p = ys := by
  have h := List.takeWhile_append_dropWhile (p := p) (l := xs ++ ys)
  rw [takeWhile_append_stop hx hy] at h
  exact List.append_cancel_left h

end Cut

/-! ## Groups -/

/-- The units with their nanoseconds; micro is written with either of two code points. -/
def units : List (List Char × Nat) :=
  [(['n', 's'], 1), (['u', 's'], 1000), (['µ', 's'], 1000), (['μ', 's'], 1000), (['m', 's'], 1000000),
    (['s'], 1000000000), (['m'], 60000000000), (['h'], 3600000000000)]

theorem unit?_eq_some {name : List Char} {scale : Nat} :
    unit? name = some scale ↔ (name, scale) ∈ units := by
  constructor
  · intro h
    unfold unit? at h
    split at h <;> simp_all [units]
  · intro h
    simp only [units, List.mem_cons, Prod.mk.injEq, List.not_mem_nil, or_false] at h
    rcases h with h | h | h | h | h | h | h | h <;> obtain ⟨rfl, rfl⟩ := h <;> rfl

theorem units_named : ∀ u ∈ units, u.1 ≠ [] ∧ u.1.all inUnit = true ∧ 0 < u.2 := by
  decide

/-- The digits of a fraction behind the point, or nothing. -/
def point : Option (List Char) → List Char
  | none => []
  | some digits => '.' :: digits

/-- A number and a unit. There is a digit in front of the point or behind it. -/
structure Group where
  whole : List Char
  fraction : Option (List Char)
  unit : List Char
  /-- The nanoseconds of the unit. -/
  scale : Nat
  whole_digits : ∀ c ∈ whole, c.isDigit = true
  fraction_digits : ∀ digits ∈ fraction, ∀ c ∈ digits, c.isDigit = true
  some_digit : whole ≠ [] ∨ fraction.getD [] ≠ []
  unit_mem : (unit, scale) ∈ units

namespace Group

/-- A group as it is written. -/
def chars (g : Group) : List Char := g.whole ++ (point g.fraction ++ g.unit)

/-- The nanoseconds of a group. -/
def nanos (g : Group) : Nat := numeral g.whole * g.scale + fractionNanos g.scale (g.fraction.getD [])

/-- The nanoseconds of groups together. -/
def total (gs : List Group) : Nat := (gs.map nanos).sum

theorem total_cons (g : Group) (gs : List Group) : total (g :: gs) = g.nanos + total gs := rfl

theorem total_append (gs hs : List Group) : total (gs ++ hs) = total gs + total hs := by
  rw [total, List.map_append, List.sum_append]
  rfl

theorem unit_ne_nil (g : Group) : g.unit ≠ [] := (units_named _ g.unit_mem).1

theorem unit_inUnit (g : Group) : ∀ c ∈ g.unit, inUnit c = true :=
  List.all_eq_true.1 (units_named _ g.unit_mem).2.1

end Group

theorem inUnit_of_isDigit {c : Char} (h : c.isDigit = true) : inUnit c = false := by
  simp [inUnit, h]

theorem isDigit_of_inUnit {c : Char} (h : inUnit c = true) : c.isDigit = false := by
  simpa using (Bool.and_eq_true_iff.1 h).2

theorem ne_point_of_inUnit {c : Char} (h : inUnit c = true) : c ≠ '.' := by
  simpa using (Bool.and_eq_true_iff.1 h).1

/-- A group begins with a digit or a point. -/
theorem Group.head (g : Group) : ∃ c tail, g.chars = c :: tail ∧ inUnit c = false := by
  unfold chars
  cases hw : g.whole with
  | cons c tail =>
    exact ⟨c, _, List.cons_append .., inUnit_of_isDigit (g.whole_digits c (hw ▸ List.mem_cons_self))⟩
  | nil =>
    cases hf : g.fraction with
    | some digits => exact ⟨'.', _, rfl, rfl⟩
    | none =>
      have h := g.some_digit
      simp [hw, hf] at h

/-- A group has a digit and a unit, so it takes at least two characters. -/
theorem Group.two_le_length (g : Group) : 2 ≤ g.chars.length := by
  have hunit : 0 < g.unit.length := List.length_pos_iff.2 g.unit_ne_nil
  have hnumber : 0 < g.whole.length + (point g.fraction).length := by
    rcases g.some_digit with h | h
    · exact Nat.add_pos_left (List.length_pos_iff.2 h) _
    · cases hf : g.fraction with
      | none => simp [hf] at h
      | some digits => exact Nat.add_pos_right _ (Nat.succ_pos _)
  simp only [chars, List.length_append]
  omega

/-! ## Reading one group -/

/-- What follows a group does not go on with its unit. -/
def Stops (rest : List Char) : Prop := ∀ c ∈ rest.head?, inUnit c = false

theorem stops_groups : ∀ gs : List Group, Stops (gs.flatMap Group.chars)
  | [] => nofun
  | g :: gs => by
    obtain ⟨c, tail, hg, hc⟩ := g.head
    intro x hx
    rw [List.flatMap_cons, hg] at hx
    exact Option.some.inj hx ▸ hc

/-- Reading a number back that is followed by a unit. -/
theorem number_chars {whole rest : List Char} {fraction : Option (List Char)}
    (hw : ∀ c ∈ whole, c.isDigit = true) (hf : ∀ digits ∈ fraction, ∀ c ∈ digits, c.isDigit = true)
    (hrest : ∀ c ∈ rest.head?, inUnit c = true) :
    number (whole ++ (point fraction ++ rest)) = (whole, fraction.getD [], rest) := by
  have hdigit : ∀ c ∈ rest.head?, c.isDigit = false := fun c hc => isDigit_of_inUnit (hrest c hc)
  cases fraction with
  | none =>
    unfold number
    simp only [point, List.nil_append, takeWhile_append_stop hw hdigit, dropWhile_append_stop hw hdigit]
    split
    · rename_i tail
      exact absurd rfl (ne_point_of_inUnit (hrest '.' rfl))
    · rfl
  | some digits =>
    have hpoint : ∀ c ∈ ('.' :: (digits ++ rest)).head?, c.isDigit = false := by
      intro c hc
      exact Option.some.inj hc ▸ rfl
    have hd := hf digits rfl
    simp only [number, point, List.cons_append, takeWhile_append_stop hw hpoint,
      dropWhile_append_stop hw hpoint, takeWhile_append_stop hd hdigit, dropWhile_append_stop hd hdigit,
      Option.getD_some]

/-- What is read as a number is a number as it is written. -/
theorem number_spec (cs : List Char) : ∃ fraction : Option (List Char),
    (number cs).2.1 = fraction.getD [] ∧ cs = (number cs).1 ++ (point fraction ++ (number cs).2.2) ∧
      (∀ c ∈ (number cs).1, c.isDigit = true) ∧ ∀ digits ∈ fraction, ∀ c ∈ digits, c.isDigit = true := by
  have hcs := List.takeWhile_append_dropWhile (p := Char.isDigit) (l := cs)
  unfold number
  split
  · rename_i rest heq
    refine ⟨some (rest.takeWhile Char.isDigit), rfl, ?_, fun c => List.mem_takeWhile_imp, ?_⟩
    · rw [point, List.cons_append, List.takeWhile_append_dropWhile, ← heq, hcs]
    · intro digits hd c hc
      exact List.mem_takeWhile_imp (Option.some.inj hd ▸ hc)
  · exact ⟨none, rfl, hcs.symm, fun c => List.mem_takeWhile_imp, nofun⟩

theorem guard_eq (p : Prop) [Decidable p] : (guard p : Option Unit) = if p then some () else none := rfl

/-- A number and a unit make a group, unless it passes the limit. The number of units is compared with the
limit before the fraction is added, which rules out nothing else. -/
theorem group?_of_number {cs whole fractional rest : List Char} {scale : Nat}
    (hn : number cs = (whole, fractional, rest)) (hs : whole ≠ [] ∨ fractional ≠ [])
    (hu : unit? (rest.takeWhile inUnit) = some scale) :
    group? cs = if numeral whole * scale + fractionNanos scale fractional ≤ limit then
      some (numeral whole * scale + fractionNanos scale fractional, rest.dropWhile inUnit) else none := by
  have hguard : (!whole.isEmpty || !fractional.isEmpty) = true := by
    simpa using hs
  simp only [group?, hn, hguard, hu, guard_eq]
  change (if numeral whole * scale ≤ limit then some () else none).bind (fun _ =>
    (if numeral whole * scale + fractionNanos scale fractional ≤ limit then some () else none).bind
      fun _ => some (numeral whole * scale + fractionNanos scale fractional, rest.dropWhile inUnit)) = _
  by_cases hle : numeral whole * scale + fractionNanos scale fractional ≤ limit
  · rw [if_pos (Nat.le_trans (Nat.le_add_right ..) hle), if_pos hle, if_pos hle]
    rfl
  · rw [if_neg hle, if_neg hle]
    split <;> rfl

/-- **A group is read back**, unless it passes the limit. -/
theorem group?_chars (g : Group) {rest : List Char} (hrest : Stops rest) :
    group? (g.chars ++ rest) = if g.nanos ≤ limit then some (g.nanos, rest) else none := by
  have hhead : ∀ c ∈ (g.unit ++ rest).head?, inUnit c = true := by
    obtain ⟨c, tail, hc⟩ := List.exists_cons_of_ne_nil g.unit_ne_nil
    intro x hx
    rw [hc, List.cons_append] at hx
    exact g.unit_inUnit x (hc ▸ Option.some.inj hx ▸ List.mem_cons_self)
  have hnumber : number (g.chars ++ rest) = (g.whole, g.fraction.getD [], g.unit ++ rest) := by
    rw [Group.chars, List.append_assoc, List.append_assoc]
    exact number_chars g.whole_digits g.fraction_digits hhead
  have hunit : unit? ((g.unit ++ rest).takeWhile inUnit) = some g.scale := by
    rw [takeWhile_append_stop g.unit_inUnit hrest, unit?_eq_some.2 g.unit_mem]
  rw [group?_of_number hnumber g.some_digit hunit, dropWhile_append_stop g.unit_inUnit hrest]
  rfl

/-- What is read as a group is one. -/
theorem exists_group {cs rest : List Char} {nanos : Nat} (h : group? cs = some (nanos, rest)) :
    ∃ g : Group, cs = g.chars ++ rest := by
  obtain ⟨fraction, hf, hcs, hw, hfd⟩ := number_spec cs
  unfold group? at h
  generalize number cs = n at h hf hcs hw
  obtain ⟨whole, fractional, after⟩ := n
  obtain ⟨_, hguard, h⟩ := Option.bind_eq_some_iff.1 h
  obtain ⟨scale, hu, h⟩ := Option.bind_eq_some_iff.1 h
  obtain ⟨_, _, h⟩ := Option.bind_eq_some_iff.1 h
  obtain ⟨_, _, h⟩ := Option.bind_eq_some_iff.1 h
  cases h
  simp only at hf hcs hw
  subst hf
  have hsome : whole ≠ [] ∨ fraction.getD [] ≠ [] := by
    by_contra hnone
    simp only [not_or, ne_eq, not_not] at hnone
    simp [hnone, guard_eq] at hguard
  refine ⟨⟨whole, fraction, after.takeWhile inUnit, scale, hw, hfd, hsome, unit?_eq_some.1 hu⟩, ?_⟩
  rw [hcs, Group.chars, List.append_assoc, List.append_assoc, List.takeWhile_append_dropWhile]

/-! ## Reading groups -/

theorem groups?_step (total : Nat) {cs : List Char} (h : cs ≠ []) :
    groups? total cs = (group? cs).bind fun p =>
      if total + p.1 ≤ limit then groups? (total + p.1) p.2 else none := by
  cases cs with
  | nil => exact absurd rfl h
  | cons c cs =>
    rw [groups?]
    split
    · rename_i hg
      rw [hg]
      rfl
    · rename_i nanos rest hg
      rw [hg]
      rfl

/-- **Groups are read back**, unless they pass the limit together with what came before. -/
theorem groups?_chars {total : Nat} (ht : total ≤ limit) (gs : List Group) :
    groups? total (gs.flatMap Group.chars) =
      if total + Group.total gs ≤ limit then some (total + Group.total gs) else none := by
  induction gs generalizing total with
  | nil =>
    rw [List.flatMap_nil, groups?]
    exact (if_pos ht).symm
  | cons g gs ih =>
    obtain ⟨c, tail, hg, -⟩ := g.head
    have hne : (g :: gs).flatMap Group.chars ≠ [] := by simp [hg]
    rw [groups?_step total hne, List.flatMap_cons, group?_chars g (stops_groups gs), Group.total_cons,
      ← Nat.add_assoc]
    -- What is refused on the way is refused at the end too, since totals only grow.
    by_cases hn : total + g.nanos ≤ limit
    · rw [if_pos (Nat.le_trans (Nat.le_add_left ..) hn), Option.bind_some, if_pos hn, ih hn]
    · rw [if_neg (mt (Nat.le_trans (Nat.le_add_right ..)) hn)]
      split
      · exact if_neg hn
      · rfl

/-- What is read as groups are groups. -/
theorem exists_groups {total n : Nat} {cs : List Char} (h : groups? total cs = some n) :
    ∃ gs : List Group, cs = gs.flatMap Group.chars := by
  induction hl : cs.length using Nat.strong_induction_on generalizing total cs with
  | _ l ih =>
    by_cases hne : cs = []
    · exact ⟨[], hne⟩
    · rw [groups?_step total hne] at h
      obtain ⟨⟨nanos, rest⟩, hg, h⟩ := Option.bind_eq_some_iff.1 h
      obtain ⟨g, hcs⟩ := exists_group hg
      split at h
      · obtain ⟨gs, hgs⟩ := ih rest.length (hl ▸ group?_length hg) h rfl
        exact ⟨g :: gs, by rw [List.flatMap_cons, ← hgs, hcs]⟩
      · cases h

/-! ## Unsigned spans -/

/-- The texts of unsigned spans, with their nanoseconds. -/
inductive Unsigned : List Char → Nat → Prop
  | zero : Unsigned ['0'] 0
  | groups {gs : List Group} (h : gs ≠ []) : Unsigned (gs.flatMap Group.chars) (Group.total gs)

theorem two_le_length {gs : List Group} (h : gs ≠ []) : 2 ≤ (gs.flatMap Group.chars).length := by
  obtain ⟨g, gs, rfl⟩ := List.exists_cons_of_ne_nil h
  rw [List.flatMap_cons, List.length_append]
  exact Nat.le_trans g.two_le_length (Nat.le_add_right ..)

theorem magnitude?_of_ne {cs : List Char} (hzero : cs ≠ ['0']) (hnil : cs ≠ []) :
    magnitude? cs = groups? 0 cs := by
  unfold magnitude?
  split
  · exact absurd rfl hzero
  · exact absurd rfl hnil
  · rfl

/-- **An unsigned span is read back**, unless it passes the limit. -/
theorem Unsigned.magnitude?_eq {cs : List Char} {n : Nat} (h : Unsigned cs n) :
    magnitude? cs = if n ≤ limit then some n else none := by
  cases h with
  | zero => rfl
  | @groups gs hgs =>
    have hlength := two_le_length hgs
    have hzero : gs.flatMap Group.chars ≠ ['0'] := fun h => absurd (h ▸ hlength) (by decide)
    have hnil : gs.flatMap Group.chars ≠ [] := fun h => absurd (h ▸ hlength) (by decide)
    have hread := groups?_chars (Nat.zero_le limit) gs
    rw [Nat.zero_add] at hread
    rw [magnitude?_of_ne hzero hnil, hread]

theorem exists_unsigned {cs : List Char} {n : Nat} (h : magnitude? cs = some n) :
    ∃ m, Unsigned cs m := by
  unfold magnitude? at h
  split at h
  · exact ⟨0, .zero⟩
  · cases h
  · rename_i _ hne
    obtain ⟨gs, rfl⟩ := exists_groups h
    exact ⟨_, .groups fun hgs => hne (hgs ▸ rfl)⟩

theorem magnitude?_eq_some {n : Nat} {cs : List Char} :
    magnitude? cs = some n ↔ Unsigned cs n ∧ n ≤ limit := by
  constructor
  · intro h
    obtain ⟨m, hm⟩ := exists_unsigned h
    rw [hm.magnitude?_eq] at h
    split at h
    · rename_i hle
      exact Option.some.inj h ▸ ⟨hm, hle⟩
    · cases h
  · rintro ⟨hu, hle⟩
    rw [hu.magnitude?_eq, if_pos hle]

/-- A text has one magnitude. -/
theorem Unsigned.unique {cs : List Char} {n n' : Nat} (h : Unsigned cs n) (h' : Unsigned cs n')
    (hle : n ≤ limit) : n = n' := by
  have hread := magnitude?_eq_some.2 ⟨h, hle⟩
  rw [h'.magnitude?_eq] at hread
  split at hread
  · exact (Option.some.inj hread).symm
  · cases hread

/-- Unsigned spans one behind the other, neither of them a bare `0`. -/
theorem Unsigned.append {cs cs' : List Char} {n n' : Nat} (h : Unsigned cs n) (h' : Unsigned cs' n')
    (hz : cs ≠ ['0']) (hz' : cs' ≠ ['0']) : Unsigned (cs ++ cs') (n + n') := by
  cases h with
  | zero => exact absurd rfl hz
  | @groups gs hgs =>
    cases h' with
    | zero => exact absurd rfl hz'
    | @groups hs hhs =>
      rw [← List.flatMap_append, ← Group.total_append]
      exact .groups (List.append_ne_nil_of_left_ne_nil hgs hs)

/-! ## Signed spans -/

/-- A text as a sign, which may be left out, and the rest. -/
inductive Signed : List Char → Bool → List Char → Prop
  | none (cs : List Char) : Signed cs false cs
  | plus (cs : List Char) : Signed ('+' :: cs) false cs
  | minus (cs : List Char) : Signed ('-' :: cs) true cs

/-- Characters that do not begin with a sign. -/
def Bare (cs : List Char) : Prop := ∀ c ∈ cs.head?, c ≠ '+' ∧ c ≠ '-'

instance : ∀ cs : List Char, Decidable (Bare cs)
  | [] => isTrue nofun
  | c :: _ => decidable_of_iff (c ≠ '+' ∧ c ≠ '-') ⟨fun h _ hc => Option.some.inj hc ▸ h, fun h => h c rfl⟩

theorem sign_bare {cs : List Char} (h : Bare cs) : sign cs = (false, cs) := by
  unfold sign
  split
  · exact absurd rfl (h '-' rfl).2
  · exact absurd rfl (h '+' rfl).1
  · rfl

theorem sign_minus (cs : List Char) : sign ('-' :: cs) = (true, cs) := rfl

theorem sign_signed (cs : List Char) : Signed cs (sign cs).1 (sign cs).2 := by
  unfold sign
  split
  · exact .minus _
  · exact .plus _
  · exact .none _

/-- Unsigned spans begin with a digit or a point. -/
theorem Unsigned.bare {cs : List Char} {n : Nat} (h : Unsigned cs n) : Bare cs := by
  have hne : ∀ c, inUnit c = false → c ≠ '+' ∧ c ≠ '-' := by
    intro c hc
    constructor <;> rintro rfl <;> exact absurd hc (by decide)
  intro c hc
  refine hne c ?_
  cases h with
  | zero => exact Option.some.inj hc ▸ rfl
  | groups _ => exact stops_groups _ c hc

/-- There is one way to take the sign off an unsigned span. -/
theorem Signed.sign_eq {cs body : List Char} {negative : Bool} {n : Nat} (h : Signed cs negative body)
    (hu : Unsigned body n) : sign cs = (negative, body) := by
  cases h with
  | none => exact sign_bare hu.bare
  | plus => rfl
  | minus => rfl

/-- The largest magnitude that a sign allows. -/
def bound (negative : Bool) : Nat := if negative then 2 ^ 63 else 2 ^ 63 - 1

/-- A magnitude with its sign. -/
def mirrored (negative : Bool) (n : Nat) : Duration := ⟨if negative then -n else n⟩

theorem bound_le (negative : Bool) : bound negative ≤ limit := by
  cases negative <;> decide

theorem signed?_eq_some {negative : Bool} {n : Nat} {d : Duration} (h : n ≤ limit) :
    signed? negative n = some d ↔ n ≤ bound negative ∧ d = mirrored negative n := by
  have hlimit : limit = 2 ^ 63 := rfl
  cases negative with
  | true =>
    rw [signed?, if_pos rfl, Option.some_inj, eq_comm]
    exact (and_iff_right (a := n ≤ bound true) h).symm
  | false =>
    rw [signed?, if_neg Bool.false_ne_true]
    split
    · rename_i hn
      have hb : n ≤ bound false := Nat.le_pred_of_lt hn
      rw [Option.some_inj, eq_comm]
      exact (and_iff_right hb).symm
    · rename_i hn
      have hb : ¬n ≤ bound false := by
        simp only [bound, Bool.false_eq_true, if_false]
        omega
      exact ⟨nofun, fun h => absurd h.1 hb⟩

variable {cs body : List Char} {negative : Bool} {d e : Duration}

theorem ofChars?_of_sign (h : sign cs = (negative, body)) : ofChars? cs = some d ↔
    ∃ n, Unsigned body n ∧ n ≤ bound negative ∧ d = mirrored negative n := by
  unfold ofChars?
  rw [h, Option.bind_eq_some_iff]
  constructor
  · rintro ⟨n, hn, hd⟩
    obtain ⟨hu, hle⟩ := magnitude?_eq_some.1 hn
    exact ⟨n, hu, (signed?_eq_some hle).1 hd⟩
  · rintro ⟨n, hu, hb, hd⟩
    have hle := Nat.le_trans hb (bound_le negative)
    exact ⟨n, magnitude?_eq_some.2 ⟨hu, hle⟩, (signed?_eq_some hle).2 ⟨hb, hd⟩⟩

/-- **What denotes a span**: a sign, which may be left out, and groups or a bare `0` that stay within the
bound of the sign. -/
theorem ofChars?_eq_some : ofChars? cs = some d ↔ ∃ negative body n, Signed cs negative body ∧
    Unsigned body n ∧ n ≤ bound negative ∧ d = mirrored negative n := by
  constructor
  · intro h
    obtain ⟨n, hn⟩ := (ofChars?_of_sign rfl).1 h
    exact ⟨_, _, n, sign_signed cs, hn⟩
  · rintro ⟨negative, body, n, hs, hu, hn⟩
    exact (ofChars?_of_sign (hs.sign_eq hu)).2 ⟨n, hu, hn⟩

/-! ## Texts without a point -/

/-- The number that decimal digits stand for. -/
def decimal (digits : List Char) : Nat :=
  Nat.ofDigits 10 (digits.reverse.map fun c => c.toNat - '0'.toNat)

theorem numeral_eq (digits : List Char) : numeral digits = decimal digits := by
  rw [numeral, decimal, Nat.ofDigits_eq_foldr, List.foldr_map, List.foldr_reverse]
  congr
  funext n c
  exact Nat.add_comm ..

/-- The texts of unsigned spans without fractions, with the sum of their numbers times their units. -/
inductive Counted : List Char → Nat → Prop
  | zero : Counted ['0'] 0
  | groups {gs : List Group} (h : gs ≠ []) (hw : ∀ g ∈ gs, g.fraction = none) :
      Counted (gs.flatMap Group.chars) (gs.map fun g => decimal g.whole * g.scale).sum

/-- Without a fraction the nanoseconds of groups are numbers of units. -/
theorem total_eq {gs : List Group} (h : ∀ g ∈ gs, g.fraction = none) :
    Group.total gs = (gs.map fun g => decimal g.whole * g.scale).sum := by
  refine congrArg List.sum (List.map_congr_left fun g hg => ?_)
  rw [Group.nanos, h g hg, numeral_eq]
  rfl

theorem fraction_of_point {gs : List Group} (h : '.' ∉ gs.flatMap Group.chars) :
    ∀ g ∈ gs, g.fraction = none := by
  intro g hg
  cases hf : g.fraction with
  | none => rfl
  | some digits =>
    refine absurd (List.mem_flatMap.2 ⟨g, hg, ?_⟩) h
    rw [Group.chars, hf]
    exact List.mem_append_right _ List.mem_cons_self

theorem counted_iff {cs : List Char} (h : '.' ∉ cs) {n : Nat} : Counted cs n ↔ Unsigned cs n := by
  constructor
  · intro hc
    cases hc with
    | zero => exact .zero
    | groups hgs hw => exact total_eq hw ▸ .groups hgs
  · intro hu
    cases hu with
    | zero => exact .zero
    | groups hgs =>
      have hw := fraction_of_point h
      exact total_eq hw ▸ .groups hgs hw

theorem Signed.subset {cs body : List Char} {negative : Bool} (h : Signed cs negative body) : body ⊆ cs := by
  cases h with
  | none => exact List.Subset.refl _
  | plus | minus => exact List.subset_cons_self _ _

/-! ## The laws of the texts -/

theorem ofChars?_plus (h : Bare cs) : ofChars? ('+' :: cs) = ofChars? cs := by
  unfold ofChars?
  rw [sign_bare h]
  rfl

theorem ofChars?_minus (h : Bare cs) (hd : ofChars? cs = some d) :
    ofChars? ('-' :: cs) = some ⟨-d.nanos⟩ := by
  obtain ⟨n, hu, hb, rfl⟩ := (ofChars?_of_sign (sign_bare h)).1 hd
  exact (ofChars?_of_sign (sign_minus cs)).2 ⟨n, hu, Nat.le_succ_of_le hb, rfl⟩

/-- A span with a minus mirrors the one without, unless it is the smallest. -/
theorem ofChars?_of_minus (h : Bare cs) (he : ofChars? ('-' :: cs) = some e) :
    ofChars? cs = some ⟨-e.nanos⟩ ∨ e.nanos = -2 ^ 63 ∧ ofChars? cs = none := by
  obtain ⟨n, hu, hb, rfl⟩ := (ofChars?_of_sign (sign_minus cs)).1 he
  rcases Nat.lt_or_eq_of_le (show n ≤ 2 ^ 63 from hb) with hlt | rfl
  · left
    have hmirror : (⟨-(mirrored true n).nanos⟩ : Duration) = mirrored false n :=
      congrArg Duration.mk (Int.neg_neg _)
    exact (ofChars?_of_sign (sign_bare h)).2 ⟨n, hu, Nat.le_pred_of_lt hlt, hmirror⟩
  · right
    refine ⟨rfl, Option.eq_none_iff_forall_ne_some.2 fun d hd => ?_⟩
    obtain ⟨n, hu', hb', -⟩ := (ofChars?_of_sign (sign_bare h)).1 hd
    obtain rfl := hu.unique hu' (bound_le true)
    exact absurd hb' (by decide)

/-- Spans one behind the other add up. -/
theorem ofChars?_append {cs' : List Char} {d' : Duration} (h : Bare cs) (h' : Bare cs')
    (hz : cs ≠ ['0']) (hz' : cs' ≠ ['0']) (hd : ofChars? cs = some d) (hd' : ofChars? cs' = some d') :
    ofChars? (cs ++ cs') = if d.nanos + d'.nanos ≤ 2 ^ 63 - 1 then some ⟨d.nanos + d'.nanos⟩ else none := by
  obtain ⟨n, hu, -, rfl⟩ := (ofChars?_of_sign (sign_bare h)).1 hd
  obtain ⟨n', hu', -, rfl⟩ := (ofChars?_of_sign (sign_bare h')).1 hd'
  have happ := hu.append hu' hz hz'
  have hsum : (mirrored false n).nanos + (mirrored false n').nanos = ((n + n' : Nat) : Int) := rfl
  rw [hsum]
  split
  · rename_i hle
    have hb : n + n' ≤ bound false := by
      simp only [bound, Bool.false_eq_true, if_false]
      omega
    exact (ofChars?_of_sign (sign_bare happ.bare)).2 ⟨n + n', happ, hb, rfl⟩
  · rename_i hgt
    refine Option.eq_none_iff_forall_ne_some.2 fun e he => hgt ?_
    obtain ⟨m, hm, hb, -⟩ := (ofChars?_of_sign (sign_bare happ.bare)).1 he
    obtain rfl := hm.unique happ (Nat.le_trans hb (bound_le false))
    exact Int.ofNat_le.2 hb

end Written

open Written

/-- **The algebra of the texts of spans.** Each text that denotes a span is a sign, which may be left out,
and a bare `0` or one or more groups. A plus changes nothing and a minus mirrors the span, so only the
smallest span is written with a minus alone. Spans without signs that are written one behind the other
denote their sum, if it is a span. -/
theorem text_laws :
    (∀ s d, ofText? s = some d → ∃ negative body, Signed s.toList negative body ∧
      (body = ['0'] ∨ ∃ gs : List Group, gs ≠ [] ∧ body = gs.flatMap Group.chars)) ∧
    (∀ s, Bare s.toList →
      (∀ d, ofText? s = some d → ofText? ("+" ++ s) = some d ∧ ofText? ("-" ++ s) = some ⟨-d.nanos⟩) ∧
      ∀ e, ofText? ("-" ++ s) = some e →
        ofText? s = some ⟨-e.nanos⟩ ∨ e.nanos = -2 ^ 63 ∧ ofText? s = none) ∧
    ∀ s s' d d', Bare s.toList → Bare s'.toList → s ≠ "0" → s' ≠ "0" →
      ofText? s = some d → ofText? s' = some d' →
        ofText? (s ++ s') =
          if d.nanos + d'.nanos ≤ 2 ^ 63 - 1 then some ⟨d.nanos + d'.nanos⟩ else none := by
  have hchars : ∀ s s' : String, ofText? (s ++ s') = ofChars? (s.toList ++ s'.toList) := fun s s' =>
    congrArg ofChars? String.toList_append
  have hzero : ∀ {s : String}, s ≠ "0" → s.toList ≠ ['0'] := fun hs h =>
    hs (String.toList_injective (h.trans rfl))
  refine ⟨fun s d h => ?_, fun s hs => ⟨fun d h => ⟨?_, ?_⟩, fun e h => ?_⟩, ?_⟩
  · obtain ⟨negative, body, n, hsigned, hu, -⟩ := ofChars?_eq_some.1 h
    refine ⟨negative, body, hsigned, ?_⟩
    cases hu with
    | zero => exact .inl rfl
    | groups hgs => exact .inr ⟨_, hgs, rfl⟩
  · rw [hchars]
    exact (ofChars?_plus hs).trans h
  · rw [hchars]
    exact ofChars?_minus hs h
  · rw [hchars] at h
    exact ofChars?_of_minus hs h
  · intro s s' d d' hs hs' hz hz' hd hd'
    rw [hchars]
    exact ofChars?_append hs hs' (hzero hz) (hzero hz') hd hd'

/-- One hour, its mirror, an hour and a second, and the smallest span, which has no mirror. -/
theorem text_laws_hour :
    ofText? "1h" = some ⟨3600000000000⟩ ∧ ofText? "1.0s" = some ⟨1000000000⟩ ∧
      (∃ negative body, Signed "1.0s".toList negative body ∧
        (body = ['0'] ∨ ∃ gs : List Group, gs ≠ [] ∧ body = gs.flatMap Group.chars)) ∧
      ofText? ("-" ++ "1h") = some ⟨-3600000000000⟩ ∧
      ofText? ("1h" ++ "1.0s") = some ⟨3601000000000⟩ ∧
      ofText? "9223372036854775808ns" = none := by
  obtain ⟨hform, hsign, happend⟩ := text_laws
  have hhour : ofText? "1h" = some ⟨3600000000000⟩ := by decide +kernel
  have hsecond : ofText? "1.0s" = some ⟨1000000000⟩ := by decide +kernel
  have hsmallest : ofText? ("-" ++ "9223372036854775808ns") = some ⟨-2 ^ 63⟩ := by decide +kernel
  have hbare : Bare "1h".toList := by decide
  refine ⟨hhour, hsecond, hform _ _ hsecond, ((hsign "1h" hbare).1 _ hhour).2, ?_, ?_⟩
  · exact happend _ _ _ _ hbare (by decide) (by decide) (by decide) hhour hsecond
  · rcases (hsign _ (by decide)).2 _ hsmallest with h | h
    · exact absurd h (by decide +kernel)
    · exact h.2

end Duration

end Decant
