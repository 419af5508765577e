import Mathlib.Order.Filter.AtTopBot.Basic
import Decant.Proofs.SameReport
import Decant.Proofs.Stopping
import Decant.Proofs.Traces
import Decant.Proofs.Whole

/-!
# Arrays of fixed length, slot by slot

* `Dialogue.Passes`, `Setup.Decodes` — the calls that a dialogue makes with a source, what it comes to, and
  which source it leaves; the same for decoding, given enough steps.
* `Elements` — some elements of an array in a row, each gone on to and decoded; `Advances`, `RunsOut` — going
  on to one more element, or finding that there is none.
* `Content.filled` — the slots of an array of which some elements were decoded, be there slots for all of
  them or not.
* `Elements.walkOut` — decoding the elements in a row leads from the one filling to the other.
* `Setup.dynamic_blames` — a value of no fixed type is only refused for a call that failed, or for a tag that
  says nothing.
* `Setup.decode_array_slots` — what an array of fixed length holds, and how decoding it ends.

An element past the last slot is decoded as a value of no fixed type and dropped, so each element has a
type of its own, and the filling does not change any more.
-/

namespace Decant

open Filter

/-! ## Calls, results and sources -/

namespace Dialogue

variable {σ α β : Type} [TokenSource σ] {s : Schema} {src src' src'' : σ} {xs ys : List Exchange} {a : α}
  {b : β} {x : Dialogue α}

/-- Led with a source, a dialogue makes certain calls, comes to a result and leaves the source in a state,
whatever the registry holds. -/
def Passes (s : Schema) (x : Dialogue α) (src : σ) (xs : List Exchange) (a : α) (src' : σ) : Prop :=
  ∀ reg, let r := x.run s src reg
    r.answer = some a ∧ r.exchanges = xs ∧ r.source = src'

namespace Passes

theorem done (a : α) (src : σ) : (done a).Passes s src [] a src := fun _ => ⟨rfl, rfl, rfl⟩

theorem ask {c : Call} {next : Answer c → Dialogue β} {a : Answer c}
    (ha : TokenSource.answer c src = (a, src')) (h : (next a).Passes s src' xs b src'') :
    (ask c next).Passes s src (⟨c, a⟩ :: xs) b src'' := by
  intro reg
  obtain ⟨hanswer, hexchanges, hsource⟩ := h reg
  simp only [Dialogue.run, ha]
  exact ⟨hanswer, congrArg (_ :: ·) hexchanges, hsource⟩

theorem bind {f : α → Dialogue β} (h : x.Passes s src xs a src')
    (hf : (f a).Passes s src' ys b src'') : (x.bind f).Passes s src (xs ++ ys) b src'' := by
  intro reg
  obtain ⟨hanswer, hexchanges, hsource⟩ := h reg
  obtain ⟨hanswer', hexchanges', hsource'⟩ := hf (x.run s src reg).registry
  rw [run_bind, andRun, hanswer]
  dsimp only
  rw [hsource, hexchanges, hexchanges']
  exact ⟨hanswer', rfl, hsource'⟩

/-- What is done at the end of a dialogue only changes what it comes to. -/
theorem map (f : α → β) (h : x.Passes s src xs a src') :
    (x.bind fun a => .done (f a)).Passes s src xs (f a) src' := by
  have hf := h.bind (f := fun a => .done (f a)) (.done (f a) src')
  rwa [List.append_nil] at hf

theorem unique {a' : α} (h : x.Passes s src xs a src') (h' : x.Passes s src ys a' src'') : a = a' :=
  Option.some.inj ((h (.empty false)).1.symm.trans (h' (.empty false)).1)

end Passes

end Dialogue

namespace Setup

open Decoding

variable {σ : Type} [TokenSource σ] {s : Setup} {t : Ty} {dest y : Content} {src src' : σ} {reg : Registry}
  {xs : List Exchange} {e : Ending Content Unit}

/-- Given enough steps, decoding makes certain calls, comes to an end and leaves the source in a state. -/
def Decodes (s : Setup) (t : Ty) (dest : Content) (src : σ) (reg : Registry) (xs : List Exchange)
    (e : Ending Content Unit) (src' : σ) : Prop :=
  ∃ r, s.Ends t dest src reg r ∧ r.answer = some e ∧ r.exchanges = xs ∧ r.source = src'

/-- What some budget of steps is enough for is what decoding comes to. -/
theorem decodes_of_passes (hr : reg.Sound s.schema) {n : Nat}
    (h : (s.decodeDirect n t dest).Passes s.schema src xs e src') : s.Decodes t dest src reg xs e src' := by
  obtain ⟨hanswer, hexchanges, hsource⟩ := h (.empty false)
  exact ⟨_, ends_of_answer hr (Option.ne_none_iff_exists'.2 ⟨e, hanswer⟩), hanswer, hexchanges, hsource⟩

/-- A strategy asks the registry for nothing, so what it shows with one is what it shows with any. -/
theorem passes_of_answer {n : Nat}
    (h : ((s.decodeDirect n t dest).run s.schema src (.empty false)).answer = some e) :
    let r := (s.decodeDirect n t dest).run s.schema src (.empty false)
    (s.decodeDirect n t dest).Passes s.schema src r.exchanges e r.source := by
  intro r reg'
  have hempty : (Registry.empty false).Sound s.schema := Registry.sound_empty _ _
  have hself : Same s.schema False (s.decodeDirect n t) (s.decodeDirect n t) :=
    decodeDirect_same ⟨Nat.le_refl n, .inr rfl⟩ t
  have ha := (hself dest).alike src hempty reg'
  exact ⟨ha.answer.symm.trans h, ha.exchanges.symm, ha.source.symm⟩

theorem decodes_iff (hr : reg.Sound s.schema) : s.Decodes t dest src reg xs e src' ↔
    ∀ᶠ n in atTop, (s.decodeDirect n t dest).Passes s.schema src xs e src' := by
  constructor
  · rintro ⟨r, ⟨-, n, hn⟩, hanswer, rfl, rfl⟩
    filter_upwards [eventually_ge_atTop n] with m hm
    have ha := (hn m hm).symm.trans (s.decode_alike_direct hr m t dest src)
    rw [ha.exchanges, ha.source]
    exact passes_of_answer (ha.answer.symm.trans hanswer)
  · intro h
    obtain ⟨n, hn⟩ := h.exists
    exact decodes_of_passes hr hn

/-- Decoding reports the error that it fails with, and so its end signals as truncated streams. -/
theorem truncate_of_passes {n : Nat} {err : Error}
    (h : (s.decodeDirect n t dest).Passes s.schema src xs ⟨.error err, y⟩ src') :
    err.truncate = err := by
  have hreport := h.map fun e => (⟨e.result.mapError Error.truncate, e.dest⟩ : Ending Content Unit)
  have htwice : truncated (s.decodeDirect n t) dest = s.decodeDirect n t dest :=
    congrFun (truncated_truncated _) dest
  change (truncated (s.decodeDirect n t) dest).Passes _ _ _ _ _ at hreport
  rw [htwice] at hreport
  exact Except.error.inj (congrArg Ending.result (hreport.unique h))

end Setup

/-! ## Elements in a row -/

section elements

variable {σ : Type} [TokenSource σ]

/-- The source is asked whether there is an element `i`. Of an array of known length it is asked neither
for the first element, nor once the array holds no more. -/
def Asks (length : Option Nat) (i : Nat) : Prop := ∀ n, length = some n → 0 < i ∧ i < n

/-- Going on to element `i` of an array. -/
inductive Advances : Option Nat → Nat → σ → List Exchange → σ → Prop
  | first {n : Nat} (hn : 0 < n) (src : σ) : Advances (some n) 0 src [] src
  | next {length : Option Nat} {i : Nat} {src src' : σ} (hi : Asks length i)
      (ha : TokenSource.answer (.next .array i) src = (.ok (), src')) :
      Advances length i src [⟨.next .array i, .ok ()⟩] src'

/-- Finding that there is no element `i`. -/
inductive RunsOut : Option Nat → Nat → σ → List Exchange → σ → Prop
  | full {n i : Nat} (hn : n ≤ i) (src : σ) : RunsOut (some n) i src [] src
  | ended {length : Option Nat} {i : Nat} {src src' : σ} (hi : Asks length i)
      (ha : TokenSource.answer (.next .array i) src = (.error .ended, src')) :
      RunsOut length i src [⟨.next .array i, .error .ended⟩] src'

/-- Elements of an array in a row, from element `i` on: each is gone on to, and then a content is decoded
from it. How element `i` is decoded is given. -/
inductive Elements (decodes : Nat → σ → List Exchange → Content → σ → Prop) (length : Option Nat) :
    Nat → σ → List Content → List Exchange → σ → Prop
  | nil (i : Nat) (src : σ) : Elements decodes length i src [] [] src
  | cons {i : Nat} {src src₁ src₂ src₃ : σ} {own xs calls : List Exchange} {x : Content}
      {items : List Content} (hgo : Advances length i src own src₁) (hx : decodes i src₁ xs x src₂)
      (h : Elements decodes length (i + 1) src₂ items calls src₃) :
      Elements decodes length i src (x :: items) (own ++ (xs ++ calls)) src₃

variable {length : Option Nat} {i : Nat} {src src' : σ} {items : List Content} {calls : List Exchange}

/-- What is decoded given enough steps is decoded with some number of steps, for all elements at once. -/
theorem Elements.eventually {P : Nat → σ → List Exchange → Content → σ → Prop}
    {Q : Nat → Nat → σ → List Exchange → Content → σ → Prop}
    (hpq : ∀ i src xs x src', P i src xs x src' → ∀ᶠ n in atTop, Q n i src xs x src')
    (h : Elements P length i src items calls src') :
    ∀ᶠ n in atTop, Elements (Q n) length i src items calls src' := by
  induction h with
  | nil i src => exact .of_forall fun n => .nil i src
  | cons hgo hx _ ih =>
    filter_upwards [hpq _ _ _ _ _ hx, ih] with n hn hrest
    exact .cons hgo hn hrest

theorem Asks.not_full (h : Asks length i) : ¬ length.any (· ≤ i) = true := by
  cases length with
  | none => simp
  | some n => simpa using (h n rfl).2

theorem Asks.asks (h : Asks length i) : (length.isNone || i != 0) = true := by
  cases length with
  | none => rfl
  | some n => simpa using Nat.ne_of_gt (h n rfl).1

end elements

/-! ## Going through the elements -/

section walking

open Decoding

variable {σ δ : Type} [TokenSource σ] {s : Schema} {length : Option Nat} {i k : Nat} {src src' src'' : σ}
  {own xs calls : List Exchange} {body : Nat → Decoding δ Unit} {d : δ} {e : Ending δ Nat}

/-- The round of an element that is gone on to. -/
theorem Advances.walkOut (h : Advances length i src own src')
    (hround : ((body i >>= fun _ => walkOut .array length body k (i + 1)) d).Passes s src' xs e src'') :
    (walkOut .array length body (k + 1) i d).Passes s src (own ++ xs) e src'' := by
  cases h with
  | first hn =>
    rw [Stream.walkOut_declared (by simpa using Nat.ne_of_gt hn) (by simp)]
    exact hround
  | next hi ha =>
    rw [Stream.walkOut_next hi.not_full hi.asks]
    exact .ask ha hround

/-- The round in which there is no further element: the array is left. -/
theorem RunsOut.walkOut {a : Except Error Unit} (h : RunsOut length i src own src')
    (hleave : TokenSource.answer (.leave .array i) src' = (a, src'')) :
    (walkOut .array length body (k + 1) i d).Passes s src (own ++ [⟨.leave .array i, a⟩])
      ⟨a.map fun _ => i, d⟩ src'' := by
  cases h with
  | full hn =>
    rw [Stream.walkOut_full (by simpa using hn)]
    exact .ask hleave (.done _ _)
  | ended hi ha =>
    rw [Stream.walkOut_next hi.not_full hi.asks]
    exact .ask ha (.ask hleave (.done _ _))

/-- What going through an array does for each element: element `i` is decoded by a dialogue of its own, and
what was decoded is added to what the destination holds. -/
def AddsEach (body : Nat → Decoding δ Unit) (decoding : Nat → Dialogue (Ending Content Unit))
    (holding : List Content → δ) : Prop :=
  ∀ items, body items.length (holding items) = (decoding items.length).bind fun e =>
    .done ⟨e.result, holding (items ++ [e.dest])⟩

variable {decoding : Nat → Dialogue (Ending Content Unit)} {holding : List Content → δ}
  {acc items : List Content} {x : Content}

/-- The round of an element that was decoded, and what comes after it. -/
theorem AddsEach.round (hb : AddsEach body decoding holding)
    {m : Decoding δ Nat} (hx : (decoding acc.length).Passes s src own ⟨.ok (), x⟩ src')
    (hrest : (m (holding (acc ++ [x]))).Passes s src' xs e src'') :
    ((body acc.length >>= fun _ => m) (holding acc)).Passes s src (own ++ xs) e src'' := by
  rw [bind_apply, hb, Dialogue.bind_bind]
  exact hx.bind hrest

/-- The round of an element that fails. -/
theorem AddsEach.failed (hb : AddsEach body decoding holding) {m : Decoding δ Nat} {err : Error}
    (hx : (decoding acc.length).Passes s src xs ⟨.error err, x⟩ src') :
    ((body acc.length >>= fun _ => m) (holding acc)).Passes s src xs
      ⟨.error err, holding (acc ++ [x])⟩ src' := by
  rw [bind_apply, hb, Dialogue.bind_bind, ← List.append_nil xs]
  exact hx.bind (.done _ src')

/-- **Elements in a row** are added to what the destination holds, whatever comes after them. -/
theorem Elements.walkOut (acc : List Content) (hb : AddsEach body decoding holding)
    (h : Elements (fun i src xs x src' => (decoding i).Passes s src xs ⟨.ok (), x⟩ src') length acc.length
      src items calls src')
    (hrest : (walkOut .array length body k (acc ++ items).length (holding (acc ++ items))).Passes s src' xs
      e src'') :
    (walkOut .array length body (k + items.length) acc.length (holding acc)).Passes s src (calls ++ xs)
      e src'' := by
  generalize hi : acc.length = i at h
  induction h generalizing acc with
  | nil i src =>
    subst hi
    rwa [List.append_nil] at hrest
  | @cons i src src₁ src₂ src₃ own ys calls x items hgo hx _ ih =>
    subst hi
    have hacc : acc ++ x :: items = (acc ++ [x]) ++ items := by simp
    have hlen : (acc ++ [x]).length = acc.length + 1 := by simp
    rw [hacc] at hrest
    have hnext := ih (acc ++ [x]) hrest hlen
    rw [List.append_assoc, List.append_assoc]
    exact hgo.walkOut (hb.round hx hnext)

end walking

/-! ## Slots -/

/-- The slots of an array of fixed length of which some elements were decoded. Slots that are left hold the
initial content, and elements that are left are dropped. -/
def Content.filled (length : Nat) (initial : Content) (items : List Content) : Content :=
  .list (items.take length ++ List.replicate (length - items.length) initial)

/-- What element `i` of an array of fixed length is decoded as. -/
def Ty.elementAt (t : Ty) (length i : Nat) : Ty := if i < length then t else .dynamic

/-- How decoding an array of fixed length ends, given how many elements were found, or an error. -/
def arrayResult (length : Nat) : Except Error Nat → Except Error Unit
  | .ok found => if found = length then .ok () else .error (.lengthMismatch length found)
  | .error e => .error e.truncate

namespace Content

variable {length : Nat} (initial x : Content) {items : List Content}

theorem filled_nil : filled length initial [] = .list (List.replicate length initial) := by
  simp [filled]

/-- While there are slots, the next one holds the initial content and takes the next element. -/
theorem filled_slot (h : items.length < length) :
    item items.length (filled length initial items) = initial ∧
      setItem items.length x (filled length initial items) = filled length initial (items ++ [x]) := by
  have hrest : length - items.length = (length - (items.length + 1)) + 1 := by omega
  have htake : (items ++ [x]).take length = items ++ [x] := by
    rw [List.take_of_length_le (by simp; omega)]
  unfold filled
  rw [htake, List.take_of_length_le (Nat.le_of_lt h), hrest, List.replicate_succ, List.length_append]
  constructor
  · simp [item, Content.items]
  · simp [setItem]

/-- Elements past the last slot change nothing. -/
theorem filled_past (h : length ≤ items.length) :
    filled length initial (items ++ [x]) = filled length initial items := by
  have hrest : length - (items.length + 1) = length - items.length := by omega
  unfold filled
  rw [List.take_append_of_le_length h, List.length_append]
  exact congrArg (fun k => list (items.take length ++ List.replicate k initial)) hrest

end Content

namespace Setup

open Decoding

variable {s : Setup} {t : Ty} {dest : Content} {m length : Nat}

/-- How element `i` of an array of fixed length is decoded. -/
def decodeElement (s : Setup) (m : Nat) (t : Ty) (length i : Nat) : Dialogue (Ending Content Unit) :=
  s.decodeDirect m (t.elementAt length i) (s.schema.initial (t.elementAt length i))

/-- What an array of fixed length does for each element, by decoders that report for themselves. -/
def fillSlot (s : Setup) (m : Nat) (t : Ty) (length i : Nat) : Decoding Content Unit :=
  if i < length then do
    let _ ← focus (Content.item i) (Content.setItem i) (truncated (s.direct m t))
  else Decoding.discard (truncated (s.direct m .dynamic))

/-- Decoding into a part of a destination, as far as it is told. -/
theorem decode_part {δ : Type} (part : δ → Content) (put : Content → δ → δ) (d : δ) :
    (focus part put (truncated (s.direct m t)) >>= fun _ => pure ()) d =
      (s.decodeDirect m t (part d)).bind fun e => .done ⟨e.result, put e.dest d⟩ := by
  rw [bind_apply, focus_apply, Dialogue.bind_bind, decodeDirect_eq]
  refine (Dialogue.bind_bind _ _ _).trans (Eq.trans ?_ (Dialogue.bind_bind _ _ _).symm)
  refine congrArg _ (funext fun ⟨result, x⟩ => ?_)
  cases result <;> rfl

/-- Decoding a value that is dropped, as far as it is told. -/
theorem decode_dropped {δ : Type} (d : δ) : Decoding.discard (truncated (s.direct m .dynamic)) d =
    (s.decodeDirect m .dynamic (.dynamic .nil)).bind fun e => .done ⟨e.result, d⟩ := by
  rw [Decoding.discard, bind_apply, value, bind_apply, fresh_apply, decodeDirect_eq]
  simp only [Dialogue.bind_bind]
  refine (Dialogue.bind_bind _ _ _).trans (congrArg _ (funext fun ⟨result, x⟩ => ?_))
  cases result <;> rfl

theorem fillSlot_adds : AddsEach (s.fillSlot m t length) (s.decodeElement m t length)
    (Content.filled length (s.schema.initial t)) := by
  intro items
  unfold fillSlot decodeElement Ty.elementAt
  split
  · rename_i h
    have hslot := fun x => Content.filled_slot (s.schema.initial t) x h
    rw [decode_part, (hslot .unit).1]
    exact congrArg _ (funext fun e => by rw [(hslot e.dest).2])
  · rename_i h
    rw [decode_dropped]
    exact congrArg _ (funext fun e => by rw [Content.filled_past _ _ (Nat.le_of_not_lt h)])

/-- Decoding an array of fixed length, once its tag was told: all slots start afresh, and then the array is
gone through. -/
theorem decodeDirect_array {σ : Type} [TokenSource σ] {src src₁ src₂ src' : σ} {known : Option Nat}
    {xs : List Exchange} {result : Except Error Nat} {d : Content}
    (htype : TokenSource.answer .type src = (.ok .array, src₁))
    (henter : TokenSource.answer (.enter .array) src₁ = (.ok known, src₂))
    (h : (walkOut .array known (s.fillSlot m t length) m 0
      (.filled length (s.schema.initial t) [])).Passes s.schema src₂ xs ⟨result, d⟩ src') :
    (s.decodeDirect (m + 1) (.array t length) dest).Passes s.schema src
      (⟨.type, .ok .array⟩ :: ⟨.enter .array, .ok known⟩ :: xs)
      ⟨arrayResult length result, d⟩ src' := by
  have hreport : s.decodeDirect (m + 1) (.array t length) =
      truncated (array s.schema (fun u => pure (truncated (s.direct m u)))
        (fun u => pure (truncated (s.direct m u))) m t length >>= fun _ => pure ()) :=
    (SameReport.array s.schema length (.report _) (.report _)).before _
  rw [hreport]
  refine .ask htype ?_
  refine .ask henter ?_
  rw [Content.filled_nil] at h
  show Dialogue.Passes _ ((((walkOut .array known (s.fillSlot m t length) m 0
    (.list (List.replicate length (s.schema.initial t)))).bind _).bind _).bind _) src₂ xs _ src'
  rw [Dialogue.bind_bind, Dialogue.bind_bind, ← List.append_nil xs]
  refine h.bind ?_
  cases result with
  | error e => exact .done _ _
  | ok found =>
    dsimp only [arrayResult]
    by_cases hfound : found = length
    · rw [if_pos hfound, if_neg fun h => h.2 hfound]
      exact .done _ _
    · rw [if_neg hfound, if_pos ⟨nofun, hfound⟩]
      exact .done _ _

end Setup

/-! ## Values that are only refused for a call -/

/-- A call that failed, or announced a tag that says nothing. -/
def Exchange.Refusing (x : Exchange) : Prop := x.failure? ≠ none ∨ x = ⟨.type, .ok .unknown⟩

namespace Decoding

open Dialogue (Says)

variable {δ γ α β : Type}

/-- From any destination, a decoding only fails after a call that is to blame for it. -/
def Blames (m : Decoding δ α) : Prop :=
  ∀ d, (m d).Says fun xs e => ∀ err y, e = some ⟨.error err, y⟩ → ∃ x ∈ xs, x.Refusing

namespace Blames

theorem pure (a : α) : Blames (pure a : Decoding δ α) := fun _ => nofun

theorem modify (f : δ → δ) : Blames (modify f : Decoding δ Unit) := fun _ => nofun

theorem set (x : δ) : Blames (set x : Decoding δ Unit) := fun _ => nofun

theorem exhausted : Blames (exhausted : Decoding δ α) := fun _ => nofun

theorem bind {m : Decoding δ α} {f : α → Decoding δ β} (h : Blames m) (hf : ∀ a, Blames (f a)) :
    Blames (m >>= f) := by
  intro d
  refine (h d).bind (fun _ _ => nofun) ?_
  rintro xs ⟨result, d'⟩ he
  cases result with
  | ok a =>
    refine (hf a d').mono fun ys r hr err y hy => ?_
    obtain ⟨x, hx, hblame⟩ := hr err y hy
    exact ⟨x, List.mem_append_right xs hx, hblame⟩
  | error err =>
    obtain ⟨x, hx, hblame⟩ := he err d' rfl
    exact fun _ _ _ => ⟨x, List.mem_append_left [] hx, hblame⟩

/-- What is done at the end of a decoding fails only if the decoding did. -/
theorem ends {m : Decoding γ α} {d : γ} {f : Ending γ α → Ending δ β} (h : Blames m)
    (hf : ∀ a x, ∃ b, (f ⟨.ok a, x⟩).result = .ok b) :
    ((m d).bind fun e => .done (f e)).Says
      fun xs e => ∀ err y, e = some ⟨.error err, y⟩ → ∃ x ∈ xs, x.Refusing := by
  refine (h d).bind (fun _ _ => nofun) ?_
  rintro xs ⟨result, x⟩ he err y hy
  rw [List.append_nil]
  cases result with
  | ok a =>
    obtain ⟨b, hb⟩ := hf a x
    rw [Option.some.inj hy] at hb
    cases hb
  | error e => exact he e x rfl

theorem fresh (start : γ) {m : Decoding γ α} (h : Blames m) :
    Blames (fresh start m : Decoding δ (α × γ)) := by
  intro d
  rw [fresh_apply]
  exact ends h fun a x => ⟨(a, x), rfl⟩

theorem truncated {m : Decoding δ α} (h : Blames m) : Blames (truncated m) :=
  fun _ => ends h fun a _ => ⟨a, rfl⟩

/-- A call that fails is to blame, unless it only said that there is nothing more. -/
theorem ask {c : Call} (hc : c.isNext = false) : Blames (ask c : Decoding δ c.Reply) := by
  intro d a err y hy
  cases a with
  | ok a => cases hy
  | error e => exact ⟨⟨c, .error e⟩, List.mem_singleton_self _, .inl (by simp [Exchange.failure?, hc])⟩

/-- A tag that says nothing is to blame itself. -/
theorem type {f : Tag → Decoding δ α} (h : ∀ tag, tag ≠ .unknown → Blames (f tag)) :
    Blames (Decoding.ask .type >>= f) := by
  intro d a
  cases a with
  | error e =>
    rintro err y -
    exact ⟨⟨.type, .error e⟩, List.mem_singleton_self _, .inl nofun⟩
  | ok tag =>
    show (f tag d).Says fun xs e => ∀ err y, e = some ⟨.error err, y⟩ →
      ∃ x ∈ ⟨.type, .ok tag⟩ :: xs, x.Refusing
    by_cases htag : tag = .unknown
    · refine .of_forall (fun xs e err y _ => ?_) _
      exact ⟨⟨.type, .ok tag⟩, List.mem_cons_self, .inr (by rw [htag])⟩
    · refine (h tag htag d).mono fun xs e he err y hy => ?_
      obtain ⟨x, hx, hblame⟩ := he err y hy
      exact ⟨x, List.mem_cons_of_mem _ hx, hblame⟩

theorem hasNext (c : Container) (i : Nat) : Blames (hasNext c i : Decoding δ Bool) := by
  intro d a
  cases a with
  | ok a => exact nofun
  | error e =>
    cases e with
    | ended => exact nofun
    | _ => exact fun _ _ _ => ⟨_, List.mem_singleton_self _, .inl nofun⟩

theorem walkFrom {c : Container} {length : Option Nat} {body : Nat → Decoding δ Unit}
    (hb : ∀ i, Blames (body i)) (n i : Nat) : Blames (walkFrom c length body n i) := by
  induction n generalizing i with
  | zero => exact exhausted
  | succ n ih =>
    unfold Decoding.walkFrom
    split
    · exact pure i
    · refine bind ?_ fun more => ?_
      · unfold goesOn
        split
        · exact hasNext c i
        · exact pure true
      · split
        · exact (hb i).bind fun _ => ih (i + 1)
        · exact pure i

/-- Going through a container whose tag was announced. -/
theorem walk {c : Container} {n : Nat} {body : Nat → Decoding δ Unit} (hb : ∀ i, Blames (body i)) :
    Blames (walk c n c.tag body) := by
  rw [walk_eq]
  exact (ask rfl).bind fun length => (walkFrom hb n 0).bind fun _ => (ask rfl).bind fun _ => pure _

theorem value {f : Strategy} (h : Blames f) : Blames (value f : Decoding δ Value) :=
  (h.fresh _).bind fun _ => pure _

theorem readDynamic {f : Strategy} (h : Blames f) (n : Nat) {tag : Tag} (ht : tag ≠ .unknown) :
    Blames (readDynamic none (fun _ => Pure.pure f) n tag) := by
  cases tag with
  | unknown => exact absurd rfl ht
  | array =>
    refine bind ?_ fun _ => pure _
    exact ((walk fun _ => h.value.bind fun _ => modify _).fresh _).bind fun _ => pure _
  | map =>
    refine bind ?_ fun _ => pure _
    have hentry : ∀ i, Blames (dynamicEntry f i : Decoding (List (Value × Value)) (Value × Value)) :=
      fun i => h.value.bind fun _ => (ask rfl).bind fun _ => h.value.bind fun _ => pure _
    exact ((walk fun i => (hentry i).bind fun _ => modify _).fresh _).bind fun _ => pure _
  | string =>
    refine (ask rfl).bind fun b => ?_
    split
    · exact pure _
    · exact pure _
  | _ => exact (ask rfl).bind fun _ => pure _

end Blames

end Decoding

namespace Setup

open Decoding

/-- **A value of no fixed type is only refused for a call** that failed or announced a tag that says
nothing, unless a routine takes the entries of maps. -/
theorem dynamic_blames {s : Setup} (hs : s.entryRoutine = none) (n : Nat) :
    Blames (s.direct n .dynamic) := by
  induction n with
  | zero => exact .exhausted
  | succ n ih =>
    have hplan : s.direct (n + 1) .dynamic =
        dynamic s.entryRoutine (fun u => pure (s.direct n u)) n := rfl
    rw [hplan, hs]
    exact .type fun tag ht => (ih.readDynamic n ht).bind fun _ => (Blames.set _).bind fun _ => .pure _

theorem decodes_dynamic_blames {σ : Type} [TokenSource σ] {s : Setup} {dest y : Content} {src src' : σ}
    {reg : Registry} {xs : List Exchange} {e : Error} (hr : reg.Sound s.schema) (hs : s.entryRoutine = none)
    (h : s.Decodes .dynamic dest src reg xs ⟨.error e, y⟩ src') : ∃ x ∈ xs, x.Refusing := by
  obtain ⟨n, hn⟩ := ((decodes_iff hr).1 h).exists
  obtain ⟨hanswer, rfl, -⟩ := hn (.empty false)
  have hblames : Blames (s.decodeDirect n .dynamic) :=
    ((dynamic_blames hs n).bind fun _ => .pure ()).truncated
  exact (hblames dest).run s.schema src (.empty false) e y hanswer

/-! ## Arrays -/

variable {σ : Type} [TokenSource σ] {reg : Registry}

/-- Element `i` of an array of fixed length is decoded from its initial content: as the type of the slots
while there are slots, and as a value of no fixed type after that. -/
def DecodesElement (s : Setup) (t : Ty) (length : Nat) (reg : Registry) (i : Nat) (src : σ)
    (xs : List Exchange) (e : Ending Content Unit) (src' : σ) : Prop :=
  s.Decodes (t.elementAt length i) (s.schema.initial (t.elementAt length i)) src reg xs e src'

/-- **What an array of fixed length holds.** Let a source announce an array, and let some elements in a row
be decoded from it: into fresh slots while there are slots, and as values of no fixed type after that. If
then no element is left, the array is left, with the number of elements; the slots hold the elements that
there are slots for, and the initial content otherwise; and decoding fails only if leaving the array does,
or if the number is not that of the slots. If the next element fails, its error is returned, and only the
slot of that element, if any, holds what it left. An element past the last slot only fails for a call that
failed or announced a tag that says nothing, unless a routine takes the entries of maps. -/
theorem decode_array_slots (s : Setup) (hr : reg.Reachable s.schema) (t : Ty) (length : Nat)
    (dest : Content) {src src₁ src₂ src₃ : σ} {known : Option Nat} {items : List Content}
    {calls : List Exchange} (htype : TokenSource.answer .type src = (.ok .array, src₁))
    (henter : TokenSource.answer (.enter .array) src₁ = (.ok known, src₂))
    (hitems : Elements (fun i src xs x src' => s.DecodesElement t length reg i src xs ⟨.ok (), x⟩ src')
      known 0 src₂ items calls src₃) :
    let before := ⟨.type, .ok .array⟩ :: ⟨.enter .array, .ok known⟩ :: calls
    let initial := s.schema.initial t
    let found := items.length
    (∀ own src₄ left src₅, RunsOut known found src₃ own src₄ →
      TokenSource.answer (.leave .array found) src₄ = (left, src₅) →
      s.Decodes (.array t length) dest src reg (before ++ (own ++ [⟨.leave .array found, left⟩]))
        ⟨arrayResult length (left.map fun _ => found), .filled length initial items⟩ src₅) ∧
    ∀ own src₄ xs e x src₅, Advances known found src₃ own src₄ →
      s.DecodesElement t length reg found src₄ xs ⟨.error e, x⟩ src₅ →
      s.Decodes (.array t length) dest src reg (before ++ (own ++ xs))
        ⟨.error e, .filled length initial (items ++ [x])⟩ src₅ ∧
      (length ≤ found → s.entryRoutine = none → ∃ x ∈ xs, x.Refusing) := by
  intro before initial found
  have hsteps := hitems.eventually (Q := fun m i src xs x src' =>
    (s.decodeElement m t length i).Passes s.schema src xs ⟨.ok (), x⟩ src')
    fun i src xs x src' h => (decodes_iff hr.sound).1 h
  -- decoding goes through the elements, and then does what is left to do with steps to spare
  have harray : ∀ (result : Except Error Nat) {xs : List Exchange} {d : Content} {src' : σ},
      (∀ᶠ m in atTop, ∀ k, (walkOut .array known (s.fillSlot m t length) (k + 1) found
        (.filled length initial items)).Passes s.schema src₃ xs ⟨result, d⟩ src') →
      s.Decodes (.array t length) dest src reg (before ++ xs) ⟨arrayResult length result, d⟩ src' := by
    intro result xs d src' h
    obtain ⟨m, helements, hrest, hm⟩ :=
      (hsteps.and (h.and (eventually_ge_atTop (items.length + 1)))).exists
    obtain ⟨k, rfl⟩ : ∃ k, m = k + 1 + items.length := ⟨m - (items.length + 1), by omega⟩
    have hwalk := helements.walkOut [] fillSlot_adds (hrest k)
    exact decodes_of_passes hr.sound (decodeDirect_array htype henter hwalk)
  refine ⟨fun own src₄ left src₅ hout hleave => ?_, fun own src₄ xs e x src₅ hgo hx => ⟨?_, ?_⟩⟩
  · exact harray _ (.of_forall fun m k => hout.walkOut hleave)
  · have hpasses := (decodes_iff hr.sound).1 hx
    have htruncate : e.truncate = e := hpasses.exists.elim fun _ h => truncate_of_passes h
    rw [← htruncate]
    refine harray (.error e) ?_
    filter_upwards [hpasses] with m hm k
    exact hgo.walkOut (AddsEach.failed fillSlot_adds hm)
  · intro hpast hs
    unfold DecodesElement Ty.elementAt at hx
    rw [if_neg (Nat.not_lt.2 hpast)] at hx
    exact decodes_dynamic_blames hr.sound hs hx

/-- Three elements for two slots, the last of them of another type. -/
theorem decode_array_slots_long :
    let s := plain (Catalog.schema [])
    let reg := Registry.empty true
    let src : Script := ⟨[.enter .array (some 3), .int 1, .next, .int 2, .next, .bool true, .close]⟩
    let dest : Content := .list [.int 8, .int 9]
    reg.Reachable s.schema ∧ TokenSource.answer .type src = (.ok .array, src) ∧
      ∃ xs, s.Decodes (.array .i64 2) dest src reg (xs ++ [⟨.leave .array 3, .ok ()⟩])
        ⟨.error (.lengthMismatch 2 3), .list [.int 1, .int 2]⟩ ⟨[]⟩ := by
  intro s reg src dest
  let behind (k : Nat) : Script := ⟨src.tokens.drop k⟩
  have hr : reg.Reachable s.schema := .empty true
  have htype : TokenSource.answer .type src = (.ok .array, src) := rfl
  have hone : s.Decodes .i64 (.int 0) (behind 1) reg [⟨.type, .ok .int⟩, ⟨.int, .ok (1 : Int64)⟩]
      ⟨.ok (), .int 1⟩ (behind 2) :=
    decodes_of_passes hr.sound (n := 1) (.ask rfl (.ask rfl (.done _ _)))
  have htwo : s.Decodes .i64 (.int 0) (behind 3) reg [⟨.type, .ok .int⟩, ⟨.int, .ok (2 : Int64)⟩]
      ⟨.ok (), .int 2⟩ (behind 4) :=
    decodes_of_passes hr.sound (n := 1) (.ask rfl (.ask rfl (.done _ _)))
  have hbool : s.Decodes .dynamic (.dynamic .nil) (behind 5) reg [⟨.type, .ok .bool⟩, ⟨.bool, .ok true⟩]
      ⟨.ok (), .dynamic (.bool true)⟩ (behind 6) :=
    decodes_of_passes hr.sound (n := 1) (.ask rfl (.ask rfl (.done _ _)))
  have hasks : ∀ i, 0 < i ∧ i < 3 → Asks (some 3) i := by
    rintro i hi n ⟨⟩
    exact hi
  have hitems : Elements (fun i src xs x src' => s.DecodesElement .i64 2 reg i src xs ⟨.ok (), x⟩ src')
      (some 3) 0 (behind 1) [.int 1, .int 2, .dynamic (.bool true)] _ (behind 6) :=
    .cons (.first (by decide) _) hone <| .cons (.next (hasks 1 (by decide)) rfl) htwo <|
      .cons (.next (hasks 2 (by decide)) rfl) hbool (.nil 3 _)
  have h := (decode_array_slots s hr .i64 2 dest htype rfl hitems).1 [] _ _ _ (.full (by decide) _) rfl
  exact ⟨hr, htype, _, h⟩

end Setup

end Decant
