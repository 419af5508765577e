import Decant.Decoder
import Decant.Proofs.Protocol

/-!
# Strategies that take one token

Scalars, byte lists, and types that decode from a text or from an error all go the same way: they
ask for the tag, and then either refuse it at once or take the token it stands for, after which
nothing is asked any more.

* `Strategy.TakesOne` — the shape of such a strategy. A failure of the source leaves the destination
  as it was, and a success results in the observed tag.
* `Decoding.LeafLaw` — a property of decodings that reading what a leaf holds has, as soon as results,
  failures and calls for one value have it and going on keeps it.
-/

namespace Decant

/-- Whether a call has to do with one value only, and not with a container. -/
def Call.isPlain : Call → Bool
  | enter _ | next _ _ | leave _ _ | toValue _ => false
  | _ => true

/-- Decoding is over, and a success results in the given tag. -/
def Dialogue.Over (tag : Tag) (x : Dialogue (Ending Content Tag)) : Prop :=
  ∃ e, x = .done e ∧ ∀ t, e.result = .ok t → t = tag

/-- What follows an observed tag: it is refused, or its token is taken and decoding is over. -/
inductive Dialogue.Takes (tag : Tag) (d : Content) : Dialogue (Ending Content Tag) → Prop
  | refuse (e : Error) : Takes tag d (.done ⟨.error e, d⟩)
  | take {c : Call} {next : Answer c → Dialogue (Ending Content Tag)} (hc : tag.token? = some c)
      (hf : ∀ e, next (.error e) = .done ⟨.error e, d⟩) (hr : ∀ a, (next (.ok a)).Over tag) :
      Takes tag d (.ask c next)

/-- A strategy that asks for a tag, and takes its token or refuses it. -/
def Strategy.TakesOne (m : Strategy) : Prop :=
  ∀ d, ∃ next, m d = .ask .type next ∧ (∀ e, next (.error e) = .done ⟨.error e, d⟩) ∧
    ∀ tag : Tag, (next (.ok tag)).Takes tag d

namespace Decoding

open Dialogue (Over Takes)

variable {δ α β : Type} {tag : Tag} {d : Content} {times : TimeFormat}

theorem over_ok (d : Content) (tag : Tag) : Over tag (.done ⟨.ok tag, d⟩) :=
  ⟨_, rfl, fun _ h => (Except.ok.inj h).symm⟩

theorem over_error (d : Content) (e : Error) (tag : Tag) : Over tag (.done ⟨.error e, d⟩) :=
  ⟨_, rfl, nofun⟩

theorem takes_readText (tag expected : Tag) {k : ByteArray → Strategy}
    (hk : ∀ b, Over tag (k b d)) : Takes tag d ((readText tag expected >>= k) d) := by
  cases tag with
  | nil => exact .take rfl (fun _ => rfl) fun _ => hk ByteArray.empty
  | string => exact .take rfl (fun _ => rfl) hk
  | bytes => exact .take rfl (fun _ => rfl) hk
  | _ => exact .refuse _

theorem takes_readString (tag expected : Tag) {k : String → Strategy}
    (hk : ∀ s, Over tag (k s d)) : Takes tag d ((readString tag expected >>= k) d) := by
  rw [readString, bind_assoc]
  apply takes_readText tag expected
  intro b
  cases Utf8.read b with
  | ok s => exact hk s
  | error fault => exact over_error d _ tag

theorem over_narrow (kind : IntKind) (n : Int) {k : Content → Strategy}
    (hk : ∀ c, Over tag (k c d)) : Over tag ((narrow kind n >>= k) d) := by
  unfold narrow
  split
  · exact hk _
  · exact over_error d _ tag

/-- A timestamp is read off a text unless the tag announces one. -/
theorem readScalar_time {tag : Tag} (h : tag ≠ .time) :
    (readScalar times .time tag : Decoding δ Content) = (do
      match times.parse (← readString tag .time) with
      | .ok t => return .time t
      | .error fault => fail (.timestamp fault)) := by
  cases tag with
  | time => exact absurd rfl h
  | _ => rfl

/-- A span of time is read off a text unless the tag announces one. -/
theorem readScalar_duration {tag : Tag} (h : tag ≠ .duration) :
    (readScalar times .duration tag : Decoding δ Content) = (do
      let s ← readString tag .duration
      match Duration.ofText? s with
      | some t => return .duration t
      | none => fail (.duration s)) := by
  cases tag with
  | duration => exact absurd rfl h
  | _ => rfl

theorem takes_readScalar (s : Scalar) (tag : Tag) {k : Content → Strategy}
    (hk : ∀ c, Over tag (k c d)) : Takes tag d ((readScalar times s tag >>= k) d) := by
  cases s with
  | bool =>
    cases tag with
    | bool => exact .take rfl (fun _ => rfl) fun _ => hk _
    | _ => exact .refuse _
  | int kind =>
    cases tag with
    | int => exact .take rfl (fun _ => rfl) fun n => over_narrow kind _ hk
    | uint => exact .take rfl (fun _ => rfl) fun n => over_narrow kind _ hk
    | _ => exact .refuse _
  | single =>
    cases tag with
    | int => exact .take rfl (fun _ => rfl) fun _ => hk _
    | uint => exact .take rfl (fun _ => rfl) fun _ => hk _
    | float => exact .take rfl (fun _ => rfl) fun _ => hk _
    | _ => exact .refuse _
  | double =>
    cases tag with
    | int => exact .take rfl (fun _ => rfl) fun _ => hk _
    | uint => exact .take rfl (fun _ => rfl) fun _ => hk _
    | float => exact .take rfl (fun _ => rfl) fun _ => hk _
    | _ => exact .refuse _
  | text =>
    rw [readScalar, bind_assoc]
    exact takes_readString tag .string fun _ => hk _
  | blob =>
    rw [readScalar, bind_assoc]
    exact takes_readText tag .bytes fun _ => hk _
  | time =>
    by_cases ht : tag = .time
    · subst ht
      exact .take rfl (fun _ => rfl) fun _ => hk _
    · rw [readScalar_time ht, bind_assoc]
      apply takes_readString tag .time
      intro s
      cases times.parse s with
      | ok t => exact hk _
      | error fault => exact over_error d _ tag
  | duration =>
    by_cases ht : tag = .duration
    · subst ht
      exact .take rfl (fun _ => rfl) fun _ => hk _
    · rw [readScalar_duration ht, bind_assoc]
      apply takes_readString tag .duration
      intro s
      cases Duration.ofText? s with
      | some t => exact hk _
      | none => exact over_error d _ tag

theorem scalar_takesOne (s : Scalar) : Strategy.TakesOne (scalar times s) := by
  refine fun d => ⟨_, rfl, fun _ => rfl, fun tag => ?_⟩
  by_cases ht : tag = .nil
  · subst ht
    exact .take rfl (fun _ => rfl) fun _ => over_ok _ .nil
  · show Takes tag d ((if tag = .nil then _ else _ : Strategy) d)
    rw [if_neg ht]
    exact takes_readScalar s tag fun _ => over_ok _ tag

theorem bytes_takesOne : Strategy.TakesOne bytes :=
  fun _ => ⟨_, rfl, fun _ => rfl, fun tag => takes_readText tag .bytes fun _ => over_ok _ tag⟩

theorem text_takesOne (accept : Content → ByteArray → Content × Option Error) :
    Strategy.TakesOne (text accept) := by
  refine fun d => ⟨_, rfl, fun _ => rfl, fun tag => takes_readText tag .string fun b => ?_⟩
  show Over tag (taken tag (accept d b) d)
  obtain ⟨c, refusal⟩ := accept d b
  cases refusal with
  | none => exact over_ok c tag
  | some e => exact over_error c e tag

theorem error_takesOne (initial : Content) (build : ErrorValue → Content) :
    Strategy.TakesOne (error initial build) := by
  refine fun d => ⟨_, rfl, fun _ => rfl, fun tag => ?_⟩
  cases tag with
  | nil => exact .take rfl (fun _ => rfl) fun _ => over_ok _ .nil
  | error => exact .take rfl (fun _ => rfl) fun _ => over_ok _ .error
  | string => exact .take rfl (fun _ => rfl) fun _ => over_ok _ .string
  | bytes => exact .take rfl (fun _ => rfl) fun _ => over_ok _ .bytes
  | _ => exact .refuse _

/-! ### Properties of reading a leaf -/

/-- A property that results, failures and calls for one value have, and that going on keeps. -/
structure LeafLaw (δ : Type) where
  Holds : {α : Type} → Decoding δ α → Prop
  pure : ∀ {α : Type} (a : α), Holds (Pure.pure a : Decoding δ α)
  fail : ∀ {α : Type} (e : Error), Holds (fail e : Decoding δ α)
  ask : ∀ c : Call, c.isPlain = true → Holds (ask c : Decoding δ c.Reply)
  bind : ∀ {α β : Type} {m : Decoding δ α} {f : α → Decoding δ β}, Holds m → (∀ a, Holds (f a)) →
    Holds (m >>= f)

namespace LeafLaw

variable (L : LeafLaw δ)

theorem map {c : Call} (f : c.Reply → α) (hc : c.isPlain = true) :
    L.Holds (Decoding.ask c >>= fun a => (Pure.pure (f a) : Decoding δ α)) :=
  L.bind (L.ask c hc) fun _ => L.pure _

theorem readText (tag expected : Tag) : L.Holds (readText tag expected : Decoding δ ByteArray) := by
  cases tag with
  | nil => exact L.map _ rfl
  | string => exact L.ask .string rfl
  | bytes => exact L.ask .bytes rfl
  | _ => exact L.fail _

theorem readString (tag expected : Tag) : L.Holds (readString tag expected : Decoding δ String) := by
  apply L.bind (L.readText tag expected)
  intro b
  cases Utf8.read b with
  | ok s => exact L.pure s
  | error fault => exact L.fail _

theorem narrow (k : IntKind) (n : Int) : L.Holds (narrow k n : Decoding δ Content) := by
  unfold Decoding.narrow
  split
  · exact L.pure _
  · exact L.fail _

theorem readScalar (k : Scalar) (tag : Tag) : L.Holds (readScalar times k tag : Decoding δ Content) := by
  cases k with
  | bool =>
    cases tag with
    | bool => exact L.map _ rfl
    | _ => exact L.fail _
  | int kind =>
    cases tag with
    | int => exact L.bind (L.ask .int rfl) fun n => L.narrow kind _
    | uint => exact L.bind (L.ask .uint rfl) fun n => L.narrow kind _
    | _ => exact L.fail _
  | single =>
    cases tag with
    | int => exact L.map _ rfl
    | uint => exact L.map _ rfl
    | float => exact L.map _ rfl
    | _ => exact L.fail _
  | double =>
    cases tag with
    | int => exact L.map _ rfl
    | uint => exact L.map _ rfl
    | float => exact L.map _ rfl
    | _ => exact L.fail _
  | text => exact L.bind (L.readString tag .string) fun _ => L.pure _
  | blob => exact L.bind (L.readText tag .bytes) fun _ => L.pure _
  | time =>
    by_cases ht : tag = .time
    · subst ht
      exact L.map _ rfl
    · rw [readScalar_time ht]
      apply L.bind (L.readString tag .time)
      intro s
      cases times.parse s with
      | ok t => exact L.pure _
      | error fault => exact L.fail _
  | duration =>
    by_cases ht : tag = .duration
    · subst ht
      exact L.map _ rfl
    · rw [readScalar_duration ht]
      apply L.bind (L.readString tag .duration)
      intro s
      cases Duration.ofText? s with
      | some t => exact L.pure _
      | none => exact L.fail _

end LeafLaw

end Decoding

end Decant
