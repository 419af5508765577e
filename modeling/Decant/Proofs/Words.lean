import Decant.Catalog
import Decant.Proofs.Direct
import Decant.Proofs.Groups
import Decant.Proofs.RoundTrip.Decoders
import Decant.Source.Cursor

/-!
# Reading spans of time with words

The nanoseconds of a span are read with words of 64 bits: products and sums are checked, and each result
is compared with the limit. Here this is written down with words and shown to be the reading with numbers
that are not bounded.

* `Duration.Words.Exact` — a word that is a number, or is missing because the number passes the limit.
  One check after the other comes to the check of the largest number (`Exact.bind`).
* `Duration.Words.ofChars?_eq` — words give the span that numbers give, so nothing overflows.
* `Setup.decode_duration` — what a text is decoded to, and how it is refused.
* `Duration.text_exact` — texts without a point denote exactly the sum of their groups.
-/

namespace Decant

namespace Duration

namespace Words

open Written (inUnit number sign)

/-! ## Reading with words -/

/-- The product, unless it overflows. -/
def checkedMul (x y : UInt64) : Option UInt64 := if x.toNat * y.toNat < 2 ^ 64 then some (x * y) else none

/-- The sum, unless it overflows. -/
def checkedAdd (x y : UInt64) : Option UInt64 := if x.toNat + y.toNat < 2 ^ 64 then some (x + y) else none

/-- The magnitude of the smallest span. -/
def limit : UInt64 := (1 : UInt64) <<< 63

/-- A word that does not pass the limit. -/
def within (x : UInt64) : Option UInt64 := if x ≤ limit then some x else none

/-- The value of a digit; it would wrap around below zero. -/
def digit (c : Char) : UInt64 := (c.toUInt8 - '0'.toUInt8).toUInt64

/-- A number with one more digit. -/
def push? (x : UInt64) (c : Char) : Option UInt64 := do
  let x ← checkedMul x 10
  let x ← checkedAdd x (digit c)
  within x

/-- The value of decimal digits. -/
def integer? (digits : List Char) : Option UInt64 := digits.foldlM push? 0

/-- The value of the digits of a fraction and how many of them count. -/
def fraction : UInt64 → Nat → List Char → UInt64 × Nat
  | x, count, [] => (x, count)
  | x, count, c :: cs =>
    match push? x c with
    | some next => fraction next (count + 1) cs
    | none => (x, count)

/-- Add the nanoseconds of a fraction of a unit. -/
def withFraction (unit : UInt64) (digits : List Char) (nanos : UInt64) : Option UInt64 :=
  let (x, count) := fraction 0 0 digits
  if x = 0 then some nanos
  else do
    let nanos ← checkedAdd nanos (x.toFloat * (unit.toFloat / Written.scale count)).toUInt64
    within nanos

/-- The nanoseconds of a unit. -/
def unit? (name : List Char) : Option UInt64 := (Written.unit? name).map Nat.toUInt64

/-- Read one group of a number and a unit: its nanoseconds and the characters after it. -/
def group? (cs : List Char) : Option (UInt64 × List Char) := do
  let (whole, fractional, rest) := number cs
  let x ← integer? whole
  guard (!whole.isEmpty || !fractional.isEmpty)
  let unit ← unit? (rest.takeWhile inUnit)
  let nanos ← checkedMul x unit
  let nanos ← within nanos
  let nanos ← withFraction unit fractional nanos
  return (nanos, rest.dropWhile inUnit)

/-! ## Words that are numbers -/

/-- A word that is a number, missing just if the number passes the limit. -/
def Exact (o : Option UInt64) (n : Nat) : Prop :=
  o.map UInt64.toNat = if n ≤ Written.limit then some n else none

variable {o : Option UInt64} {x y : UInt64} {n m : Nat}

theorem toNat_limit : limit.toNat = Written.limit := by decide

theorem exact_within (x : UInt64) : Exact (within x) x.toNat := by
  unfold Exact within
  simp only [UInt64.le_iff_toNat_le, toNat_limit]
  split <;> rfl

theorem Exact.of_some (h : Exact (some x) n) : x.toNat = n ∧ n ≤ Written.limit := by
  unfold Exact at h
  split at h
  · rename_i hn
    exact ⟨Option.some.inj h, hn⟩
  · cases h

theorem Exact.none (h : Exact none n) : ¬n ≤ Written.limit := by
  intro hn
  unfold Exact at h
  rw [if_pos hn] at h
  cases h

theorem exact_none (h : ¬n ≤ Written.limit) : Exact none n := by
  unfold Exact
  rw [if_neg h]
  rfl

theorem exact_some (h : x.toNat ≤ Written.limit) : Exact (some x) x.toNat := by
  unfold Exact
  rw [if_pos h]
  rfl

/-- **One check after the other** is the check of the larger number. -/
theorem Exact.bind (h : Exact o n) (hnm : n ≤ m) {f : UInt64 → Option UInt64}
    (hf : ∀ x : UInt64, x.toNat = n → n ≤ Written.limit → Exact (f x) m) : Exact (o.bind f) m := by
  cases o with
  | none => exact exact_none fun hm => h.none (Nat.le_trans hnm hm)
  | some x => exact hf x h.of_some.1 h.of_some.2

theorem limit_lt : Written.limit < 2 ^ 64 := by decide

theorem exact_mul (x y : UInt64) : Exact ((checkedMul x y).bind within) (x.toNat * y.toNat) := by
  unfold checkedMul
  split
  · rename_i h
    have hxy : (x * y).toNat = x.toNat * y.toNat := by
      rw [UInt64.toNat_mul, Nat.mod_eq_of_lt h]
    exact hxy ▸ exact_within (x * y)
  · rename_i h
    exact exact_none fun hle => h (Nat.lt_of_le_of_lt hle limit_lt)

theorem exact_add (x y : UInt64) : Exact ((checkedAdd x y).bind within) (x.toNat + y.toNat) := by
  unfold checkedAdd
  split
  · rename_i h
    have hxy : (x + y).toNat = x.toNat + y.toNat := by
      rw [UInt64.toNat_add, Nat.mod_eq_of_lt h]
    exact hxy ▸ exact_within (x + y)
  · rename_i h
    exact exact_none fun hle => h (Nat.lt_of_le_of_lt hle limit_lt)

/-! ## Numbers -/

/-- A digit does not wrap around. -/
theorem digit_toNat {c : Char} (h : c.isDigit = true) : (digit c).toNat = c.toNat - '0'.toNat := by
  have hc : 48 ≤ c.toNat ∧ c.toNat ≤ 57 := by
    simpa [Char.isDigit, UInt32.le_iff_toNat_le] using h
  have hbyte : c.toUInt8.toNat = c.toNat := by
    rw [Char.toUInt8, UInt32.toNat_toUInt8]
    exact Nat.mod_eq_of_lt (Nat.lt_of_le_of_lt hc.2 (by decide))
  have hle : '0'.toUInt8 ≤ c.toUInt8 := UInt8.le_iff_toNat_le.2 (hbyte ▸ hc.1)
  rw [digit, UInt8.toNat_toUInt64, UInt8.toNat_sub_of_le _ _ hle, hbyte]
  rfl

/-- The value of digits behind a number. -/
def follow (n : Nat) (digits : List Char) : Nat :=
  digits.foldl (fun n c => 10 * n + (c.toNat - '0'.toNat)) n

theorem le_follow (n : Nat) (digits : List Char) : n ≤ follow n digits := by
  induction digits generalizing n with
  | nil => exact Nat.le_refl n
  | cons c cs ih =>
    have hstep : n ≤ 10 * n + (c.toNat - '0'.toNat) := by omega
    exact Nat.le_trans hstep (ih _)

theorem exact_push {c : Char} (hc : c.isDigit = true) (x : UInt64) :
    Exact (push? x c) (10 * x.toNat + (c.toNat - '0'.toNat)) := by
  unfold push? checkedMul
  split
  · rename_i h
    have hx : (x * 10).toNat = 10 * x.toNat := by
      rw [UInt64.toNat_mul, Nat.mod_eq_of_lt h, Nat.mul_comm]
      rfl
    have hadd := exact_add (x * 10) (digit c)
    rw [hx, digit_toNat hc] at hadd
    exact hadd
  · rename_i h
    have hlimit := limit_lt
    have hten : (10 : UInt64).toNat = 10 := rfl
    rw [hten] at h
    exact exact_none (by omega)

theorem exact_foldlM {digits : List Char} (hd : ∀ c ∈ digits, c.isDigit = true)
    (hx : x.toNat ≤ Written.limit) : Exact (digits.foldlM push? x) (follow x.toNat digits) := by
  induction digits generalizing x with
  | nil => exact exact_some hx
  | cons c cs ih =>
    rw [List.foldlM_cons]
    refine (exact_push (hd c List.mem_cons_self) x).bind (le_follow _ cs) fun y hy hle => ?_
    have hcs := ih (fun c hc => hd c (List.mem_cons_of_mem _ hc)) (hy ▸ hle)
    rw [hy] at hcs
    exact hcs

theorem exact_integer {digits : List Char} (hd : ∀ c ∈ digits, c.isDigit = true) :
    Exact (integer? digits) (Written.numeral digits) :=
  exact_foldlM hd (Nat.zero_le _)

theorem fraction_eq {digits : List Char} (hd : ∀ c ∈ digits, c.isDigit = true) (x : UInt64) (count : Nat) :
    Written.fraction x.toNat count digits =
      ((fraction x count digits).1.toNat, (fraction x count digits).2) := by
  induction digits generalizing x count with
  | nil => rfl
  | cons c cs ih =>
    have hpush := exact_push (hd c List.mem_cons_self) x
    unfold Written.fraction fraction
    cases hp : push? x c with
    | none =>
      rw [hp] at hpush
      exact if_neg hpush.none
    | some y =>
      rw [hp] at hpush
      obtain ⟨hy, hle⟩ := hpush.of_some
      simp only [← hy, if_pos (hy ▸ hle)]
      exact ih (fun c hc => hd c (List.mem_cons_of_mem _ hc)) y (count + 1)

/-! ## Groups -/

/-- The nanoseconds of a unit fit into a word. -/
theorem units_fit : ∀ u ∈ Written.units, u.2 < 2 ^ 64 := by
  decide

theorem exact_withFraction {digits : List Char} (hd : ∀ c ∈ digits, c.isDigit = true) (unit : Nat)
    {nanos : UInt64} (hn : nanos.toNat ≤ Written.limit) :
    Exact (withFraction unit.toUInt64 digits nanos)
      (nanos.toNat + Written.fractionNanos unit digits) := by
  have hf := fraction_eq hd 0 0
  unfold withFraction Written.fractionNanos
  rw [UInt64.toNat_zero] at hf
  rw [hf]
  generalize fraction 0 0 digits = p
  obtain ⟨x, count⟩ := p
  by_cases hx : x = 0
  · subst hx
    exact exact_some hn
  · have hx' : ¬x.toNat = 0 := fun h => hx (UInt64.toNat_inj.1 h)
    simp only [if_neg hx, if_neg hx', Nat.toUInt64_eq, UInt64.ofNat_toNat]
    exact exact_add nanos _

/-- The nanoseconds of a group with words. -/
theorem exact_group {whole fractional : List Char} (hw : ∀ c ∈ whole, c.isDigit = true)
    (hf : ∀ c ∈ fractional, c.isDigit = true) {unit : Nat} (hpos : 0 < unit) (hfit : unit < 2 ^ 64) :
    Exact ((integer? whole).bind fun x => ((checkedMul x unit.toUInt64).bind within).bind
        (withFraction unit.toUInt64 fractional))
      (Written.numeral whole * unit + Written.fractionNanos unit fractional) := by
  have hunit : unit.toUInt64.toNat = unit := UInt64.toNat_ofNat_of_lt' hfit
  have hle : Written.numeral whole ≤ Written.numeral whole * unit := Nat.le_mul_of_pos_right _ hpos
  refine (exact_integer hw).bind (Nat.le_trans hle (Nat.le_add_right ..)) fun x hx _ => ?_
  have hmul := exact_mul x unit.toUInt64
  rw [hx, hunit] at hmul
  refine hmul.bind (Nat.le_add_right ..) fun y hy hlimit => ?_
  have hadd := exact_withFraction hf unit (hy ▸ hlimit)
  rw [hy] at hadd
  exact hadd

/-- **A group is read with words as it is with numbers.** -/
theorem group?_eq (cs : List Char) :
    (group? cs).map (fun p => (p.1.toNat, p.2)) = Written.group? cs := by
  obtain ⟨fraction, hf, -, hw, hfd⟩ := Written.number_spec cs
  have hfractional : ∀ c ∈ (number cs).2.1, c.isDigit = true := by
    rw [hf]
    cases fraction with
    | none => exact nofun
    | some digits => exact hfd digits rfl
  cases hn : number cs with
  | mk whole tail =>
    obtain ⟨fractional, rest⟩ := tail
    rw [hn] at hw hfractional
    by_cases hs : whole ≠ [] ∨ fractional ≠ []
    · cases hu : Written.unit? (rest.takeWhile inUnit) with
      | none =>
        simp [group?, Written.group?, hn, unit?, hu]
      | some unit =>
        obtain ⟨-, -, hpos⟩ := Written.units_named _ (Written.unit?_eq_some.1 hu)
        have hexact := exact_group hw hfractional hpos (units_fit _ (Written.unit?_eq_some.1 hu))
        have hguard : (!whole.isEmpty || !fractional.isEmpty) = true := by
          simpa using hs
        have hgroup : group? cs = ((integer? whole).bind fun x =>
            ((checkedMul x unit.toUInt64).bind within).bind (withFraction unit.toUInt64 fractional)).map
              (·, rest.dropWhile inUnit) := by
          simp [group?, hn, unit?, hu, hguard, Written.guard_eq, Option.map_eq_bind, Option.bind_assoc]
        have hcomp : (fun p : UInt64 × List Char => (p.1.toNat, p.2)) ∘ (·, rest.dropWhile inUnit) =
            (·, rest.dropWhile inUnit) ∘ UInt64.toNat := rfl
        rw [Written.group?_of_number hn hs hu, hgroup, Option.map_map, hcomp, ← Option.map_map, hexact]
        split <;> rfl
    · obtain ⟨rfl, rfl⟩ : whole = [] ∧ fractional = [] := by
        simpa [not_or] using hs
      simp [group?, Written.group?, hn, Written.guard_eq]

/-- What follows a group is shorter than what began with it. -/
theorem group?_length {cs rest : List Char} {nanos : UInt64} (h : group? cs = some (nanos, rest)) :
    rest.length < cs.length := by
  have hg := group?_eq cs
  rw [h] at hg
  exact Written.group?_length hg.symm

/-- Add up groups until the characters end. -/
def groups? (total : UInt64) (cs : List Char) : Option UInt64 :=
  match cs with
  | [] => some total
  | c :: cs =>
    match _h : group? (c :: cs) with
    | none => none
    | some (nanos, rest) => do
      let total ← checkedAdd total nanos
      let total ← within total
      groups? total rest
termination_by cs.length
decreasing_by exact group?_length _h

/-- The nanoseconds of an unsigned span. -/
def magnitude? : List Char → Option UInt64
  | ['0'] => some 0
  | [] => none
  | cs => groups? 0 cs

/-- Give a magnitude its sign. The negation would wrap around for the smallest span. -/
def signed? (negative : Bool) (nanos : UInt64) : Option Int64 :=
  if nanos.toNat < 2 ^ 63 then some (if negative then -nanos.toInt64 else nanos.toInt64)
  else if negative then some Int64.minValue
  else none

/-- The span that characters denote. -/
def ofChars? (cs : List Char) : Option Int64 := (magnitude? (sign cs).2).bind (signed? (sign cs).1)

theorem groups?_eq {total : UInt64} (ht : total.toNat ≤ Written.limit) (cs : List Char) :
    (groups? total cs).map UInt64.toNat = Written.groups? total.toNat cs := by
  induction hl : cs.length using Nat.strong_induction_on generalizing total cs with
  | _ l ih =>
    cases cs with
    | nil =>
      rw [groups?, Written.groups?]
      rfl
    | cons c cs =>
      have hg := group?_eq (c :: cs)
      rw [groups?, Written.groups?_step _ (List.cons_ne_nil c cs), ← hg]
      split
      · rename_i hnone
        rw [hnone]
        rfl
      · rename_i nanos rest hsome
        have hlength := group?_length hsome
        have hadd := exact_add total nanos
        have hbind : ∀ o : Option UInt64, (o.bind fun x => (within x).bind (groups? · rest)) =
            (o.bind within).bind (groups? · rest) := fun o => (Option.bind_assoc ..).symm
        rw [hsome]
        refine (congrArg _ (hbind _)).trans ?_
        cases ho : (checkedAdd total nanos).bind within with
        | none =>
          rw [ho] at hadd
          exact (if_neg hadd.none).symm
        | some y =>
          rw [ho] at hadd
          obtain ⟨hy, hle⟩ := hadd.of_some
          have hrest := ih rest.length (hl ▸ hlength) (hy ▸ hle) rest rfl
          rw [hy] at hrest
          exact hrest.trans (if_pos hle).symm

theorem magnitude?_of_ne {cs : List Char} (hzero : cs ≠ ['0']) (hnil : cs ≠ []) :
    magnitude? cs = groups? 0 cs := by
  unfold magnitude?
  split
  · exact absurd rfl hzero
  · exact absurd rfl hnil
  · rfl

theorem magnitude?_eq (cs : List Char) :
    (magnitude? cs).map UInt64.toNat = Written.magnitude? cs := by
  by_cases hzero : cs = ['0']
  · rw [hzero]
    rfl
  · by_cases hnil : cs = []
    · rw [hnil]
      rfl
    · rw [magnitude?_of_ne hzero hnil, Written.magnitude?_of_ne hzero hnil]
      exact groups?_eq (show (0 : UInt64).toNat ≤ Written.limit from Nat.zero_le _) cs

theorem toInt_toInt64 (h : x.toNat < 2 ^ 63) : x.toInt64.toInt = x.toNat :=
  BitVec.toInt_eq_toNat_of_lt (x := x.toBitVec) (by
    rw [UInt64.toNat_toBitVec]
    omega)

theorem signed?_eq {nanos : UInt64} (hn : nanos.toNat ≤ Written.limit) (negative : Bool) :
    (signed? negative nanos).map (fun i => (⟨i.toInt⟩ : Duration)) =
      Written.signed? negative nanos.toNat := by
  unfold signed? Written.signed?
  by_cases hlt : nanos.toNat < 2 ^ 63
  · have hint := toInt_toInt64 hlt
    rw [if_pos hlt]
    cases negative with
    | true =>
      have hneg : (-nanos.toInt64).toInt = -nanos.toNat := by
        rw [Int64.toInt_neg, hint]
        exact Int.bmod_eq_of_le (by omega) (by omega)
      exact congrArg (fun i => some (⟨i⟩ : Duration)) hneg
    | false => exact (congrArg (fun i => some (⟨i⟩ : Duration)) hint).trans (if_pos hlt).symm
  · rw [if_neg hlt]
    cases negative with
    | true =>
      have hmin : nanos.toNat = 2 ^ 63 := Nat.le_antisymm hn (Nat.le_of_not_lt hlt)
      rw [hmin]
      rfl
    | false => exact (if_neg hlt).symm

/-- **Words give the span that numbers give.** -/
theorem ofChars?_eq (cs : List Char) :
    (ofChars? cs).map (fun i => (⟨i.toInt⟩ : Duration)) = Written.ofChars? cs := by
  have hm := magnitude?_eq (sign cs).2
  unfold ofChars? Written.ofChars?
  cases hw : magnitude? (sign cs).2 with
  | none =>
    rw [hw] at hm
    rw [← hm]
    rfl
  | some nanos =>
    rw [hw] at hm
    rw [← hm]
    exact signed?_eq (Written.magnitude?_eq_some.1 hm.symm).2 _

end Words

end Duration

namespace Setup

open Decoding

variable {σ : Type} [TokenSource σ] {s : Setup} {reg : Registry}

/-- A text is decoded into a span as it is read, and is reported as a whole where it is none. -/
theorem decode_duration (hr : reg.Sound s.schema) {src src₁ src₂ : σ} {bytes : ByteArray} {text : String}
    (htype : TokenSource.answer .type src = (.ok .string, src₁))
    (hstring : TokenSource.answer .string src₁ = (.ok bytes, src₂)) (hread : Utf8.read bytes = .ok text)
    (n : Nat) (dest : Content) :
    ((s.decode (n + 1) (.scalar .duration) dest).run s.schema src reg).answer =
      some (match Duration.ofText? text with
        | some d => ⟨.ok (), .duration d⟩
        | none => ⟨.error (.duration text), dest⟩) := by
  rw [(s.decode_alike_direct hr (n + 1) _ dest src).answer, decodeDirect_eq, Dialogue.run_map]
  change Option.map shut (Dialogue.run s.schema (.ask .type _) src _).answer = _
  simp only [Dialogue.run, htype]
  change Option.map shut (Dialogue.run s.schema (.ask .string _) src₁ _).answer = _
  simp only [Dialogue.run, Dialogue.bind, hstring, hread]
  change Option.map shut (Dialogue.run s.schema (((match Duration.ofText? text with
    | some d => pure (.duration d)
    | none => fail (.duration text) : Decoding Content Content) dest).bind _) src₂ _).answer = _
  cases Duration.ofText? text <;> rfl

end Setup

namespace Duration

open Written

/-- **A text without a point denotes exactly the sum of its groups**: it is a sign, which may be left out,
and a bare `0` or one or more numbers with units, whose sum is not bounded by anything but what the sign
allows. Any other text is reported as a whole. Reading it with words of 64 bits comes to the same, so
no product, sum or negation overflows. -/
theorem text_exact {text : String} (h : '.' ∉ text.toList) :
    (∀ d, ofText? text = some d ↔ ∃ negative body n, Signed text.toList negative body ∧
      Counted body n ∧ n ≤ bound negative ∧ d = mirrored negative n) ∧
    (∀ {σ : Type} [TokenSource σ] (s : Setup) (reg : Registry) (src src₁ src₂ : σ) (bytes : ByteArray)
      (n : Nat) (dest : Content), reg.Reachable s.schema →
      TokenSource.answer .type src = (.ok .string, src₁) →
      TokenSource.answer .string src₁ = (.ok bytes, src₂) → Utf8.read bytes = .ok text →
        ((s.decode (n + 1) (.scalar .duration) dest).run s.schema src reg).answer =
          some (match ofText? text with
            | some d => ⟨.ok (), .duration d⟩
            | none => ⟨.error (.duration text), dest⟩)) ∧
    (Words.ofChars? text.toList).map (fun i => (⟨i.toInt⟩ : Duration)) = ofText? text := by
  refine ⟨fun d => ?_, ?_, Words.ofChars?_eq text.toList⟩
  · refine ofChars?_eq_some.trans ?_
    constructor
    · rintro ⟨negative, body, n, hs, hu, hn⟩
      exact ⟨negative, body, n, hs, (counted_iff (mt (hs.subset ·) h)).2 hu, hn⟩
    · rintro ⟨negative, body, n, hs, hc, hn⟩
      exact ⟨negative, body, n, hs, (counted_iff (mt (hs.subset ·) h)).1 hc, hn⟩
  · intro σ _ s reg src src₁ src₂ bytes n dest hr htype hstring hread
    exact Setup.decode_duration hr.sound htype hstring hread n dest

/-- The smallest span is written with a minus; without it, the text is refused. -/
theorem text_exact_smallest :
    '.' ∉ "-9223372036854775808ns".toList ∧ ofText? "-9223372036854775808ns" = some ⟨-2 ^ 63⟩ ∧
      (Words.ofChars? "-9223372036854775808ns".toList).map (fun i => (⟨i.toInt⟩ : Duration)) =
        some ⟨-2 ^ 63⟩ ∧
      (((Setup.plain (Catalog.schema [])).decode 1 (.scalar .duration) (.duration ⟨7⟩)).run
        (Catalog.schema []) (Cursor.ofValue (.string "9223372036854775808ns")) (.empty true)).answer =
          some ⟨.error (.duration "9223372036854775808ns"), .duration ⟨7⟩⟩ := by
  have h : '.' ∉ "-9223372036854775808ns".toList := by decide
  have h' : '.' ∉ "9223372036854775808ns".toList := by decide
  obtain ⟨hspan, -, hwords⟩ := text_exact h
  let g : Group := ⟨"9223372036854775808".toList, none, ['n', 's'], 1,
    List.all_eq_true.1 (by decide), nofun, .inl (by decide), by decide⟩
  have hsum : ([g].map fun g => decimal g.whole * g.scale).sum = 2 ^ 63 := by decide +kernel
  have hcounted : Counted "9223372036854775808ns".toList (2 ^ 63) :=
    hsum ▸ @Counted.groups [g] (List.cons_ne_nil g []) (fun _ hg => List.mem_singleton.1 hg ▸ rfl)
  have hd : ofText? "-9223372036854775808ns" = some ⟨-2 ^ 63⟩ :=
    (hspan _).2 ⟨true, _, _, .minus _, hcounted, by decide, rfl⟩
  have hnone : ofText? "9223372036854775808ns" = none := by decide +kernel
  refine ⟨h, hd, hwords.trans hd, ?_⟩
  have hdecode := (text_exact h').2.1 (Setup.plain (Catalog.schema [])) (.empty true)
    (Cursor.ofValue (.string "9223372036854775808ns")) _ _ _ 0 (.duration ⟨7⟩) (.empty true) rfl rfl
    (Utf8.read_toUTF8 _)
  rw [hnone] at hdecode
  exact hdecode

end Duration

end Decant
