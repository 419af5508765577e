import Decant.Proofs.Moves

/-!
# What a failure leaves of a destination

* `Decoding.Atomic` — a decoding that leaves its destination as it was if it fails; `Decoding.Aloof`, one
  that leaves it as it was in any case. There is one lemma for each way to put decodings together.
* `Schema.Atomic` — the types whose strategies do. Leaves are set once everything else succeeded, and
  lists and maps are built apart.
* `Setup.decode_atomic` — a failed decoding of such a type leaves the destination as it was.
* `Setup.decode_record_resets` — a record is left in its initial content by every failure after its tag
  was observed. If the tag, or the move to the value, cannot be had, it is left as it was.
-/

namespace Decant

/-- Whatever is answered, a failure leaves a destination that meets a condition, by what was exchanged. -/
def Dialogue.Fails {δ α : Type} (m : Dialogue (Ending δ α)) (L : List Exchange → δ → Prop) : Prop :=
  m.Says fun xs r => ∀ e ∈ r, ∀ err, e.result = .error err → L xs e.dest

namespace Dialogue.Fails

variable {δ γ α β : Type} {L : List Exchange → δ → Prop} {d : Dialogue (Ending δ α)}

theorem ok (a : α) (c : δ) : (done ⟨.ok a, c⟩ : Dialogue (Ending δ α)).Fails L := by
  intro e he err herr
  cases he
  cases herr

theorem error (err : Error) {c : δ} (h : L [] c) : (done ⟨.error err, c⟩ : Dialogue (Ending δ α)).Fails L := by
  intro e he _ _
  cases he
  exact h

theorem mono {K : List Exchange → δ → Prop} (h : d.Fails L) (hl : ∀ xs c, L xs c → K xs c) : d.Fails K :=
  Says.mono h fun xs _ hx e he err herr => hl xs e.dest (hx e he err herr)

/-- What is done at the end of a decoding puts the destination elsewhere, and fails only if it did. -/
theorem ends {K : List Exchange → γ → Prop} {f : Ending δ α → Ending γ β} (h : d.Fails L)
    (hok : ∀ a c, ∃ b, (f ⟨.ok a, c⟩).result = .ok b)
    (hf : ∀ xs err c, L xs c → K xs (f ⟨.error err, c⟩).dest) : (d.bind fun e => done (f e)).Fails K := by
  refine h.bind (fun _ _ => nofun) fun xs ⟨result, c⟩ he y hy err herr => ?_
  cases hy
  rw [List.append_nil]
  cases result with
  | ok a =>
    obtain ⟨b, hb⟩ := hok a c
    rw [hb] at herr
    cases herr
  | error err' => exact hf xs err' c (he _ rfl err' rfl)

theorem run {σ : Type} [TokenSource σ] (h : d.Fails L) (s : Schema) (src : σ) (reg : Registry)
    {e : Error} {c : δ} (ha : (d.run s src reg).answer = some ⟨.error e, c⟩) :
    L (d.run s src reg).exchanges c :=
  Says.run h s src reg _ ha e rfl

end Dialogue.Fails

namespace Decoding

open Dialogue (Says Fails)

variable {δ γ α β : Type}

/-- Whatever is answered, a decoding leaves the destination as it was. -/
def Aloof (m : Decoding δ α) : Prop := ∀ d, (m d).Says fun _ r => ∀ e ∈ r, e.dest = d

/-- Whatever is answered, a decoding that fails leaves the destination as it was. -/
def Atomic (m : Decoding δ α) : Prop := ∀ d, (m d).Fails fun _ c => c = d

/-! ### Decodings that leave the destination as it was -/

namespace Aloof

theorem pure (a : α) : Aloof (pure a : Decoding δ α) := by
  intro d e he
  cases he
  rfl

theorem fail (err : Error) : Aloof (fail err : Decoding δ α) := by
  intro d e he
  cases he
  rfl

theorem ask (c : Call) : Aloof (ask c : Decoding δ c.Reply) := by
  intro d a e he
  cases he
  rfl

theorem bind {m : Decoding δ α} {f : α → Decoding δ β} (h : Aloof m) (hf : ∀ a, Aloof (f a)) :
    Aloof (m >>= f) := by
  refine fun d => (h d).bind (fun _ _ => nofun) fun xs ⟨result, d'⟩ he => ?_
  obtain rfl : d' = d := he _ rfl
  cases result with
  | ok a => exact hf a d'
  | error err => exact fail err d'

theorem map {m : Decoding δ α} (f : α → β) (h : Aloof m) : Aloof (m >>= fun a => Pure.pure (f a)) :=
  h.bind fun _ => .pure _

/-- What is worked on apart does not touch the destination. -/
theorem fresh (start : γ) (m : Decoding γ α) : Aloof (fresh start m : Decoding δ (α × γ)) := by
  intro d
  rw [fresh_apply]
  refine Says.bind (.of_forall (L := fun _ _ => True) (fun _ _ => trivial) _) (fun _ _ => nofun) ?_
  intro xs e _ y hy
  cases hy
  rfl

/-- Reading a leaf leaves the destination alone. -/
def leaf (δ : Type) : LeafLaw δ where
  Holds := Aloof
  pure := .pure
  fail := .fail
  ask c _ := .ask c
  bind := .bind

theorem readText (tag expected : Tag) : Aloof (readText tag expected : Decoding δ ByteArray) :=
  (leaf δ).readText tag expected

theorem readScalar {times : TimeFormat} (k : Scalar) (tag : Tag) :
    Aloof (readScalar times k tag : Decoding δ Content) :=
  (leaf δ).readScalar k tag

/-- A value of no fixed type is built apart, whatever takes over the entries of its maps. -/
theorem readDynamic (entryRoutine : Option EntryRoutine) (nested : Ty → Strategy) (n : Nat) (tag : Tag) :
    Aloof (readDynamic entryRoutine (fun u => Pure.pure (nested u)) n tag) := by
  cases tag with
  | array => exact ((fresh _ _).map _).map _
  | map =>
    cases entryRoutine with
    | some routine => exact ((fresh _ _).map _).map _
    | none => exact ((fresh _ _).map _).map _
  | string =>
    apply (ask .string).bind
    intro b
    cases Utf8.read? b with
    | some s => exact .pure _
    | none => exact .pure _
  | unknown => exact .fail _
  | _ => exact (ask _).map _

end Aloof

/-! ### Decodings that fail without a trace -/

namespace Atomic

theorem fail (err : Error) : Atomic (fail err : Decoding δ α) := fun _ => .error err rfl

theorem setting (c : Content) (tag : Tag) :
    Atomic (MonadStateOf.set c >>= fun _ => Pure.pure tag : Strategy) := fun _ => .ok tag c

/-- As long as the destination was not touched, everything may still fail. -/
theorem bind {m : Decoding δ α} {f : α → Decoding δ β} (h : Aloof m) (hf : ∀ a, Atomic (f a)) :
    Atomic (m >>= f) := by
  refine fun d => (h d).bind (fun _ _ => nofun) fun xs ⟨result, d'⟩ he => ?_
  obtain rfl : d' = d := he _ rfl
  cases result with
  | ok a => exact hf a d'
  | error err => exact fail err d'

/-! #### The decoders -/

theorem scalar {times : TimeFormat} (k : Scalar) : Atomic (scalar times k) := by
  apply bind (.ask .type)
  intro tag
  dsimp only
  split
  · exact bind (.ask .nil) fun _ => setting _ tag
  · exact bind (.readScalar k tag) fun c => setting c tag

theorem bytes : Atomic bytes :=
  bind (.ask .type) fun tag => bind (.readText tag .bytes) fun _ => setting _ tag

theorem error (initial : Content) (build : ErrorValue → Content) : Atomic (error initial build) := by
  apply bind (.ask .type)
  intro tag
  cases tag with
  | nil => exact bind (.ask .nil) fun _ => setting _ .nil
  | error => exact bind (.ask .error) fun e => setting _ .error
  | string => exact bind (.readText .string .error) fun b => setting _ .string
  | bytes => exact bind (.readText .bytes .error) fun b => setting _ .bytes
  | _ => exact .fail _

section

variable {n : Nat} (nested : Ty → Strategy)

theorem dynamic (entryRoutine : Option EntryRoutine) :
    Atomic (dynamic entryRoutine (fun u => Pure.pure (nested u)) n) := by
  apply bind (.ask .type)
  intro tag
  exact bind (.readDynamic entryRoutine nested n tag) fun v => setting _ tag

theorem list (s : Schema) (item : Ty) : Atomic (list s (fun u => Pure.pure (nested u)) n item) := by
  unfold Decoding.list
  rw [pure_bind]
  apply bind (.ask .type)
  intro tag
  exact bind (.fresh _ _) fun _ => setting _ tag

theorem mapOf (s : Schema) (key value : Ty) :
    Atomic (Decoding.map s (fun u => Pure.pure (nested u)) n key value) := by
  unfold Decoding.map
  simp only [pure_bind]
  apply bind (.ask .type)
  intro tag
  exact bind (.fresh _ _) fun _ => setting _ tag

/-- What is present is decoded in place, so an option is as atomic as what it holds. -/
theorem option (s : Schema) {inner : Ty} (h : Atomic (nested inner)) :
    Atomic (option s (fun u => Pure.pure (nested u)) inner) := by
  intro c
  rw [option_apply]
  apply (h (optionStart s inner c)).ends fun tag _ => ⟨tag, rfl⟩
  rintro xs err c' rfl
  cases c <;> rfl

end

end Atomic

end Decoding

/-- The request to decode the next value into a destination, which is the state. -/
def Routine.into (t : Ty) : Routine Content .decoder := .decode t id fun c _ _ => c

/-! ## Records -/

/-- Whether the tag of a value was observed. -/
def Tagged (xs : List Exchange) : Prop := ∃ tag, ⟨.type, .ok tag⟩ ∈ xs

/-- The exchanges of a decoder that could not get the tag of its value, and the move that it had to make
before. -/
inductive Barred : Option Nat → List Exchange → Prop
  | type (e : Error) : Barred none [⟨.type, .error e⟩]
  | move (i : Nat) (e : Error) : Barred (some i) [⟨.toValue i, .error e⟩]
  | moved (i : Nat) (e : Error) : Barred (some i) [⟨.toValue i, .ok ()⟩, ⟨.type, .error e⟩]

/-- What a failure leaves of a record. -/
def Reset (p : Option Nat) (start initial : Content) (xs : List Exchange) (c : Content) : Prop :=
  Tagged xs ∧ c = initial ∨ Barred p xs ∧ c = start

/-- The calls in front of a value, if the move to it was made. -/
def front (p : Option Nat) : List Exchange := p.toList.map fun i => ⟨.toValue i, .ok ()⟩

theorem Reset.moved {start initial c : Content} {xs : List Exchange} (p : Option Nat)
    (h : Reset none start initial xs c) : Reset p start initial (front p ++ xs) c := by
  rcases h with ⟨⟨tag, ht⟩, hc⟩ | ⟨hb, hc⟩
  · exact .inl ⟨⟨tag, List.mem_append_right _ ht⟩, hc⟩
  · cases hb with
    | type e =>
      cases p with
      | none => exact .inr ⟨.type e, hc⟩
      | some i => exact .inr ⟨.moved i e, hc⟩

namespace Decoding

open Dialogue (Says Fails)
open Routine (into)

variable {n : Nat} {nested : Ty → Strategy}

/-- Whatever fails once the tag of a record was observed, the record is put back. -/
theorem record_resets (initial : Content) (fields : Fields Slot) (c : Content) :
    (record initial (fun u => pure (nested u)) (fun u => pure (nested u)) n fields c).Fails
      (Reset none c initial) := by
  intro a
  cases a with
  | error err =>
    intro e he _ _
    cases he
    exact .inr ⟨.type err, rfl⟩
  | ok tag =>
    show (Dialogue.bind (Dialogue.bind (walk .map n tag _ c) _) _).Says _
    rw [Dialogue.bind_bind]
    refine Says.bind (.of_forall (L := fun _ _ => True) (fun _ _ => trivial) _) (fun _ _ => nofun) ?_
    rintro xs ⟨result, c'⟩ -
    cases result with
    | error err =>
      intro e he _ _
      cases he
      exact .inl ⟨⟨tag, List.mem_append_left _ (List.mem_cons_self ..)⟩, rfl⟩
    | ok k =>
      dsimp only [Dialogue.bind]
      split
      · exact Fails.ok _ _
      · exact Fails.ok _ _


/-- A request for a value leaves what its move leaves, and then what the strategy of the type leaves. -/
theorem into_fails {L : List Exchange → Content → Prop} {t : Ty} {c : Content} (p : Option Nat)
    (hm : ∀ i e, p = some i → L [⟨.toValue i, .error e⟩] c)
    (hv : (nested t c).Fails fun xs => L (front p ++ xs)) :
    (perform nested n 0 (into t) ⟨c, p⟩).Fails fun xs x => L xs x.state := by
  rw [into, perform, decodeInto_apply]
  cases p with
  | none => exact hv.ends (fun a _ => ⟨(), rfl⟩) fun _ _ _ h => h
  | some i =>
    intro a
    cases a with
    | error e =>
      intro y hy _ _
      cases hy
      exact hm i e rfl
    | ok u =>
      exact hv.ends (K := fun xs (x : Hand Content) => L (⟨.toValue i, .ok u⟩ :: xs) x.state)
        (fun a _ => ⟨(), rfl⟩) fun _ _ _ h => h

end Decoding

/-! ## The types that fail without a trace -/

/-- The types of which a failed decoding leaves no trace. -/
inductive Schema.Atomic (s : Schema) : Ty → Prop
  | scalar (k : Scalar) : Atomic s (.scalar k)
  | errorValue : Atomic s .errorValue
  | dynamic : Atomic s .dynamic
  | list (item : Ty) : Atomic s (.list item)
  | sorted (key value : Ty) : Atomic s (.map .sorted key value)
  /-- Maps from text to texts and to values of no fixed type are filled in place. -/
  | hashed {key value : Ty} (h : ¬ (key = .text ∧ (value = .dynamic ∨ value = .text))) :
      Atomic s (.map .hashed key value)
  | option {inner : Ty} (h : Atomic s inner) : Atomic s (.option inner)
  | box {inner : Ty} (h : Atomic s inner) : Atomic s (.box inner)
  /-- A type that is built from an error carried as data. -/
  | named {name : String} {initial : Content} {build : ErrorValue → Content}
      (h : s.find? name = some (.error initial build)) : Atomic s (.named name)

namespace Setup

open Decoding (failure?)

variable {σ : Type} [TokenSource σ] {reg : Registry}

theorem direct_atomic {s : Setup} {t : Ty} (ht : s.schema.Atomic t) (n : Nat) :
    (s.direct n t).Atomic := by
  induction n generalizing t with
  | zero => exact fun _ _ => nofun
  | succ n ih =>
    unfold direct
    cases ht with
    | scalar k => exact .scalar k
    | errorValue => exact .error _ _
    | dynamic => exact .dynamic _ _
    | list item =>
      unfold Schema.plan
      dsimp only
      split
      · exact .bytes
      · exact .list _ _ item
    | sorted key value => exact .mapOf _ _ key value
    | hashed h =>
      unfold Schema.plan
      dsimp only
      rw [if_neg (by rwa [Ty.fillsInPlace_iff])]
      exact .mapOf _ _ _ _
    | option h => exact .option _ _ (ih h)
    | @box inner h =>
      show (Decoding.through (pure (s.direct n inner))).Atomic
      rw [Decoding.through_pure]
      exact ih h
    | named h =>
      unfold Schema.plan
      simp only [h]
      exact .error _ _

theorem direct_resets {s : Setup} {name : String} {members : List Member}
    {registrations : List (String × Target)} {own : Option Content}
    (hd : s.schema.find? name = some (.record members registrations own)) (n : Nat) (c : Content) :
    (s.direct n (.named name) c).Fails (Reset none c (s.schema.initial (.named name))) := by
  cases n with
  | zero => exact nofun
  | succ n =>
    unfold direct Schema.plan
    simp only [hd]
    exact Decoding.record_resets _ _ c

theorem decodeDirect_fails {s : Setup} {n : Nat} {t : Ty} {c : Content}
    {L : List Exchange → Content → Prop} (h : (s.direct n t c).Fails L) :
    (s.decodeDirect n t c).Fails L := by
  rw [decodeDirect_eq]
  exact h.ends (fun _ _ => ⟨(), rfl⟩) fun _ _ _ h => h

/-- **A failed decoding leaves no trace** in leaves, lists and most maps, and in what is optional or owned
of such a type: the destination is as it was, however much was decoded before. -/
theorem decode_atomic {s : Setup} {t : Ty} (ht : s.schema.Atomic t) (hr : reg.Reachable s.schema)
    (n : Nat) (dest : Content) (src : σ) :
    (∀ e c, ((s.decode n t dest).run s.schema src reg).answer = some ⟨.error e, c⟩ → c = dest) ∧
      ∀ p e x, (s.carry n 0 (.into t) ⟨dest, p⟩ src reg).answer = some ⟨.error e, x⟩ →
        x.state = dest := by
  have hfails := direct_atomic ht n dest
  constructor
  · intro e c hc
    rw [(s.decode_alike_direct hr.sound n t dest src).answer] at hc
    exact (decodeDirect_fails hfails).run s.schema src _ hc
  · intro p e x hx
    rw [(s.carry_alike hr.sound n 0 (.into t) ⟨dest, p⟩ src).answer] at hx
    exact (Decoding.into_fails p (L := fun _ c => c = dest) (fun _ _ _ => rfl) hfails).run s.schema src _ hx

/-- A list whose second element has the wrong kind, in an optional destination that is present. -/
theorem decode_atomic_present :
    let s := plain (Catalog.schema [])
    let t : Ty := .option (.list .i64)
    let dest : Content := .present (.list [.int 1, .int 2])
    let src : Script := ⟨[.value, .enter .array (some 2), .int 5, .next, .string "x".toUTF8]⟩
    let q := s.carry 9 0 (.into t) ⟨dest, some 0⟩ src (.empty true)
    s.schema.Atomic t ∧ (Registry.empty true).Reachable s.schema ∧
      (q.answer.map fun y => failure? y.result) = some (some (.typeConversion .string .int)) ∧
      ∀ e x, q.answer = some ⟨.error e, x⟩ → x.state = dest := by
  intro s t dest src q
  have ht : s.schema.Atomic t := .option (.list _)
  have hr : (Registry.empty true).Reachable s.schema := .empty true
  exact ⟨ht, hr, by decide +kernel, (decode_atomic ht hr 9 dest src).2 (some 0)⟩

/-- **A failed decoding puts a record back** once its tag was observed, whatever failed then. If the
source cannot announce the tag, or not move to the value before, the record is left as it was. -/
theorem decode_record_resets {s : Setup} {name : String} {members : List Member}
    {registrations : List (String × Target)} {own : Option Content}
    (hd : s.schema.find? name = some (.record members registrations own)) (hr : reg.Reachable s.schema)
    (n : Nat) (dest : Content) (src : σ) :
    let t : Ty := .named name
    let r := (s.decode n t dest).run s.schema src reg
    (∀ e c, r.answer = some ⟨.error e, c⟩ → Reset none dest (s.schema.initial t) r.exchanges c) ∧
      ∀ p, let q := s.carry n 0 (.into t) ⟨dest, p⟩ src reg
        ∀ e x, q.answer = some ⟨.error e, x⟩ →
          Reset p dest (s.schema.initial t) q.exchanges x.state := by
  intro t r
  have hfails := direct_resets hd n dest
  constructor
  · intro e c hc
    have ha := s.decode_alike_direct hr.sound n t dest src
    rw [ha.answer] at hc
    rw [ha.exchanges]
    exact (decodeDirect_fails hfails).run s.schema src _ hc
  · intro p q e x hx
    have ha := s.carry_alike hr.sound n 0 (.into t) ⟨dest, p⟩ src
    rw [ha.answer] at hx
    rw [ha.exchanges]
    refine (Decoding.into_fails p (L := Reset p dest (s.schema.initial t)) ?_ ?_).run s.schema src _ hx
    · rintro i e rfl
      exact .inr ⟨.move i e, rfl⟩
    · exact hfails.mono fun xs c h => h.moved p

/-- A point of which one member was decoded when the other was found to be text. -/
theorem decode_record_resets_point :
    let s := plain (Catalog.schema [])
    let dest : Content := .record [.int 1, .int 2]
    let src : Script := ⟨[.enter .map (some 2), .string "x".toUTF8, .value, .int 5, .next,
      .string "y".toUTF8, .value, .string "a".toUTF8]⟩
    let r := (s.decode 9 (.named "Point") dest).run s.schema src (.empty true)
    s.schema.find? "Point" = some (Catalog.record [Catalog.plain "x" (.int .i32),
        Catalog.plain "y" (.int .i32)]) ∧
      (Registry.empty true).Reachable s.schema ∧
      (r.answer.map fun y => failure? y.result) = some (some (.typeConversion .string .int)) ∧
      ∀ e c, r.answer = some ⟨.error e, c⟩ →
        Reset none dest (.record [.int 0, .int 0]) r.exchanges c := by
  intro s dest src r
  have hd : s.schema.find? "Point" = some (Catalog.record [Catalog.plain "x" (.int .i32),
    Catalog.plain "y" (.int .i32)]) := rfl
  have hr : (Registry.empty true).Reachable s.schema := .empty true
  exact ⟨hd, hr, by decide +kernel, (decode_record_resets hd hr 9 dest src).1⟩

/-- A point of which not even the tag could be had keeps what it held. -/
theorem decode_record_kept :
    let s := plain (Catalog.schema [])
    let t : Ty := .named "Point"
    let dest : Content := .record [.int 1, .int 2]
    let r := (s.decode 9 t dest).run s.schema (Script.mk []) (.empty true)
    s.schema.initial t = .record [.int 0, .int 0] ∧ r.answer = some ⟨.error .truncated, dest⟩ ∧
      s.schema.initial t ≠ dest := by
  refine ⟨rfl, rfl, ?_⟩
  intro h
  cases h

end Setup

end Decant
