import Decant.Proofs.OwnCalls

/-!
# The order of a stream's own calls

* `Stream.Outline` — what the calls of a stream look like once some elements were decoded.
* `Stream.Made` — how the calls that a stream has made so far go with what it holds.
* `Stream.Made.led` — the next calls of a stream go on from those it has made, and keep to the outline.
-/

namespace Decant

namespace Stream

/-- How many elements are there without asking: the first, if the length is declared. -/
def skipped (length : Option Nat) : Nat := if length.isSome then 1 else 0

/-- What the calls of a stream look like once some elements were decoded: it asks for the type once
and enters an array at most once, right after that; it goes on to one element after the other, and
leaves the array at most once, at the end, with the number of elements, which a declared length
bounds. -/
inductive Outline : List Exchange → Nat → Prop
  | value {a : Except Error Tag} {n : Nat} (ha : a ≠ .ok .array) (hn : n ≤ 1) :
      Outline [⟨.type, a⟩] n
  | closed (e : Error) : Outline [⟨.type, .ok .array⟩, ⟨.enter .array, .error e⟩] 0
  | array {length : Option Nat} {nexts leaves : List Exchange} {n k : Nat}
      (hnexts : nexts.map (·.call) = (List.range' (skipped length) k).map (.next .array))
      (hleaves : leaves = [] ∨ ∃ a, leaves = [⟨.leave .array n, a⟩]) (hn : ∀ l ∈ length, n ≤ l) :
      Outline (⟨.type, .ok .array⟩ :: ⟨.enter .array, .ok length⟩ :: (nexts ++ leaves)) n

/-- The calls that go on to the first elements of an array. -/
def asked (length : Option Nat) : Nat → List Exchange
  | 0 => []
  | k + 1 =>
    asked length k ++ if length.isNone || k != 0 then [⟨.next .array k, .ok ()⟩] else []

/-- How the calls that a stream has made go with what it holds. -/
inductive Made : Stream → List Exchange → Prop
  | start : Made start []
  | inside {i : Nat} {length : Option Nat} (h : ∀ l ∈ length, i ≤ l) :
      Made ⟨.array, i, length, none⟩
        (⟨.type, .ok .array⟩ :: ⟨.enter .array, .ok length⟩ :: asked length i)
  | single {tag : Tag} (ha : tag ≠ .array) (hu : tag ≠ .unknown) :
      Made ⟨tag, 1, some 1, none⟩ [⟨.type, .ok tag⟩]
  | stopped {s : Stream} {own : List Exchange} {e : Error} (hs : s.terminal = some e)
      (h : Outline own s.count) : Made s own

theorem next_calls {length : Option Nat} {k : Nat} (h : (length.isNone || k != 0) = true)
    (a : Except Error Unit) {xs : List Exchange}
    (hxs : xs.map (·.call) =
      (List.range' (skipped length) (k - skipped length)).map (Call.next .array)) :
    (xs ++ [(⟨.next .array k, a⟩ : Exchange)]).map (·.call) =
      (List.range' (skipped length) (k + 1 - skipped length)).map (Call.next .array) := by
  have hk : skipped length ≤ k := by
    cases length with
    | none => exact Nat.zero_le k
    | some l =>
      have : k ≠ 0 := by simpa using h
      show 1 ≤ k
      omega
  rw [Nat.succ_sub hk, List.range'_concat, List.map_append, List.map_append, hxs, Nat.one_mul,
    Nat.add_sub_cancel' hk]
  rfl

theorem asked_calls (length : Option Nat) (k : Nat) :
    (asked length k).map (·.call) =
      (List.range' (skipped length) (k - skipped length)).map (.next .array) := by
  induction k with
  | zero =>
    rw [Nat.zero_sub]
    rfl
  | succ k ih =>
    unfold asked
    split
    · rename_i h
      exact next_calls h _ ih
    · rename_i h
      have hk : k = 0 ∧ length.isSome = true := by
        cases length with
        | none => simp at h
        | some l => simpa using h
      obtain ⟨rfl, hs⟩ := hk
      rw [List.append_nil, ih, skipped, if_pos hs]

/-- What was asked so far is in keeping with the outline, and more may follow. -/
theorem outline_inside {length : Option Nat} {i : Nat} {leaves : List Exchange} {n : Nat}
    (hleaves : leaves = [] ∨ ∃ a, leaves = [⟨.leave .array n, a⟩]) (hn : ∀ l ∈ length, n ≤ l) :
    Outline (⟨.type, .ok .array⟩ :: ⟨.enter .array, .ok length⟩ :: (asked length i ++ leaves)) n :=
  .array (asked_calls length i) hleaves hn

theorem outline_next {length : Option Nat} {i : Nat} (h : (length.isNone || i != 0) = true)
    (a : Except Error Unit) {leaves : List Exchange} {n : Nat}
    (hleaves : leaves = [] ∨ ∃ a, leaves = [⟨.leave .array n, a⟩]) (hn : ∀ l ∈ length, n ≤ l) :
    Outline (⟨.type, .ok .array⟩ :: ⟨.enter .array, .ok length⟩ ::
      (asked length i ++ ⟨.next .array i, a⟩ :: leaves)) n := by
  have ho := Outline.array (next_calls h a (asked_calls length i)) hleaves hn
  rwa [List.append_assoc] at ho

theorem Made.outline {st : Stream} {own : List Exchange} (h : Made st own) :
    (st = Stream.start ∧ own = []) ∨ Outline own st.count := by
  cases h with
  | start => exact .inl ⟨rfl, rfl⟩
  | @inside i length h =>
    have ho := outline_inside (i := i) (.inl rfl) h
    rw [List.append_nil] at ho
    exact .inr ho
  | single ha hu => exact .inr (.value (fun h => ha (Except.ok.inj h)) (Nat.le_refl 1))
  | stopped hs h => exact .inr h

theorem Led.count {st st' : Stream} {own : List Exchange} {r : Except Error (Option Tag)}
    (h : Led st own r st') : st.terminal = none ∧ st'.terminal = none ∧ st'.count = st.count := by
  induction h with
  | opened _ ih => exact ⟨rfl, ih.2⟩
  | _ => exact ⟨rfl, rfl, rfl⟩

/-- Once the only value was taken, nothing is asked. -/
theorem Led.of_taken {tag : Tag} {st' : Stream} {own : List Exchange}
    {r : Except Error (Option Tag)} (h : Led ⟨tag, 1, some 1, none⟩ own r st') (ht : tag ≠ .array) :
    own = [] ∧ r = .error .ended := by
  cases h with
  | taken _ => exact ⟨rfl, rfl⟩
  | full | declared | next | lost | ended => exact absurd rfl ht

/-- The type of a value that is not an array is asked for to decode that value. -/
theorem Led.of_type {st st' : Stream} {own : List Exchange} {r : Except Error (Option Tag)}
    (h : Led st own r st') {tag : Tag} (hm : ⟨.type, .ok tag⟩ ∈ own) (ht : tag ≠ .array) :
    r = .ok (some tag) ∧ st' = ⟨tag, 0, some 1, none⟩ := by
  induction h <;> simp only [List.mem_cons, List.not_mem_nil, or_false] at hm
  case single =>
    cases hm
    exact ⟨rfl, rfl⟩
  case opened ih =>
    rcases hm with hm | hm | hm
    · cases hm
      exact absurd rfl ht
    · cases hm
    · exact ih hm
  case closed =>
    rcases hm with hm | hm <;> cases hm
    exact absurd rfl ht
  case ended => rcases hm with hm | hm <;> cases hm
  all_goals cases hm

/-- Leaving the array is the last call, and it gives no element. -/
theorem Led.of_leave {st st' : Stream} {own : List Exchange} {r : Except Error (Option Tag)}
    (h : Led st own r st') {n : Nat} {a : Except Error Unit} (hm : ⟨.leave .array n, a⟩ ∈ own) :
    own.getLast? = some ⟨.leave .array n, a⟩ ∧ ∃ e, r = .error e := by
  induction h <;> simp only [List.mem_cons, List.not_mem_nil, or_false] at hm
  case full =>
    cases hm
    exact ⟨rfl, _, rfl⟩
  case ended =>
    rcases hm with hm | hm <;> cases hm
    exact ⟨rfl, _, rfl⟩
  case opened ih =>
    rcases hm with hm | hm | hm
    · cases hm
    · cases hm
    · obtain ⟨hlast, he⟩ := ih hm
      refine ⟨?_, he⟩
      rw [List.getLast?_cons, List.getLast?_cons, hlast]
      rfl
  case closed => rcases hm with hm | hm <;> cases hm
  all_goals cases hm

theorem not_any_le {length : Option Nat} {i : Nat} (h : ¬ length.any (· ≤ i) = true) :
    ∀ l ∈ length, i + 1 ≤ l := by
  rintro l rfl
  simp only [Option.any_some, decide_eq_true_eq] at h
  omega

/-- The next calls of a stream go on from those it has made. -/
theorem Made.led {st st' : Stream} {xs own : List Exchange} {r : Except Error (Option Tag)}
    (hm : Made st xs) (hl : Led st own r st') :
    Outline (xs ++ own) st'.count ∧ ∀ served, r = .ok served → served ≠ some .unknown →
      Made (counted served st') (xs ++ own) := by
  induction hl generalizing xs with
  | untyped e =>
    cases hm with
    | start => exact ⟨.value nofun (Nat.zero_le 1), nofun⟩
    | stopped hs _ => cases hs
  | @single tag ht =>
    cases hm with
    | start =>
      refine ⟨.value (fun h => ht (Except.ok.inj h)) (Nat.zero_le 1), ?_⟩
      intro served hserved hu
      cases hserved
      exact .single ht fun h => hu (congrArg some h)
    | stopped hs _ => cases hs
  | closed e =>
    cases hm with
    | start => exact ⟨.closed e, nofun⟩
    | stopped hs _ => cases hs
  | @opened length own r s h ih =>
    cases hm with
    | start => exact ih (.inside (i := 0) fun l _ => Nat.zero_le l)
    | stopped hs _ => cases hs
  | taken ht =>
    rw [List.append_nil]
    rcases hm.outline with ⟨hst, -⟩ | ho
    · cases hst
    · exact ⟨ho, nofun⟩
  | @full i length h a =>
    cases hm with
    | inside hi => exact ⟨outline_inside (.inr ⟨a, rfl⟩) hi, nofun⟩
    | stopped hs _ => cases hs
    | single ht _ => exact absurd rfl ht
  | @declared i length h hi =>
    cases hm with
    | inside hle =>
      have hasked : asked length (i + 1) = asked length i := by
        rw [asked, if_neg hi, List.append_nil]
      refine ⟨outline_inside (.inl rfl) hle, ?_⟩
      intro served hserved _
      cases hserved
      have hmade := Made.inside (not_any_le h)
      rw [hasked] at hmade
      rw [List.append_nil]
      exact hmade
    | stopped hs _ => cases hs
    | single ht _ => exact absurd rfl ht
  | @next i length h hi =>
    cases hm with
    | inside hle =>
      have hasked : asked length (i + 1) = asked length i ++ [⟨.next .array i, .ok ()⟩] := by
        rw [asked, if_pos hi]
      refine ⟨outline_next hi _ (.inl rfl) hle, ?_⟩
      intro served hserved _
      cases hserved
      have hmade := Made.inside (not_any_le h)
      rw [hasked] at hmade
      exact hmade
    | stopped hs _ => cases hs
    | single ht _ => exact absurd rfl ht
  | @lost i length hi e he =>
    cases hm with
    | inside hle => exact ⟨outline_next hi _ (.inl rfl) hle, nofun⟩
    | stopped hs _ => cases hs
    | single ht _ => exact absurd rfl ht
  | @ended i length hi a =>
    cases hm with
    | inside hle => exact ⟨outline_next hi _ (.inr ⟨a, rfl⟩) hle, nofun⟩
    | stopped hs _ => cases hs
    | single ht _ => exact absurd rfl ht

theorem Made.isOpen {st : Stream} {own : List Exchange} (h : Made st own)
    (ht : st.terminal = none) : Open st := by
  cases h with
  | start => exact .start
  | inside h => exact .inside _ _
  | single ha hu => exact .single ha hu
  | stopped hs h =>
    rw [hs] at ht
    cases ht

end Stream

end Decant
