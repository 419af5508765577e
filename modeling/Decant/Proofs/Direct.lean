import Decant.Proofs.Filling
import Decant.Proofs.Likeness
import Decant.Proofs.OneToken

/-!
# Decoding without a registry

* `Setup.direct` — the strategy of a type, read off its plan and the plans of the types it refers
  to; nothing is compiled.
* `Setup.decodeDirect` — decode the next value by it.
* `Decoding.performBy` — carry out a routine, with something done around its callbacks.
* `Setup.run_same` — a compiled type decodes alike, whatever it captured.
* `Setup.direct_same` — more steps change nothing, unless there were too few.

The plans are the same program with the strategies of other types put in, so it is enough that each
plan goes alike once those go alike (`Plan.run_same`).
-/

namespace Decant

/-- The strategy of a type without a registry. The number bounds how deep plans nest and how many
rounds a container is walked. -/
def Setup.direct (s : Setup) : Nat → Ty → Strategy
  | 0, _ => Decoding.exhausted
  | n + 1, t =>
    (s.schema.plan t).run s (fun u => pure (s.direct n u)) (fun u => pure (s.direct n u)) n t

namespace Decoding

variable {s : Schema} {short : Prop} {δ : Type} {n m : Nat}
  {resolve resolve' nested nested' : Ty → Decoding Content Strategy} {call call' : Ty → Strategy}

theorem same_takesOne {f : Strategy} (h : f.TakesOne) : Same s short f f := by
  intro d
  obtain ⟨next, hd, hf, ht⟩ := h d
  rw [hd]
  refine .ask .type ?_
  intro a
  cases a with
  | error e =>
    rw [hf]
    exact .done rfl
  | ok tag =>
    have := ht tag
    generalize next (.ok tag) = x at this
    cases this with
    | refuse e => exact .done rfl
    | take _ hf hr =>
      refine .ask _ ?_
      intro a
      cases a with
      | error e =>
        rw [hf]
        exact .done rfl
      | ok a =>
        obtain ⟨e, he, _⟩ := hr a
        rw [he]
        exact .done rfl

/-! ### Containers -/

theorem same_value {f f' : Strategy} (h : Same s short f f') :
    Same s short (value f : Decoding δ Value) (value f') :=
  (h.fresh _).bind fun _ => .pure _

theorem same_discard {f f' : Strategy} (h : Same s short f f') :
    Same s short (discard f : Decoding δ Unit) (discard f') :=
  (same_value h).bind fun _ => .pure _

theorem same_modify (f : δ → δ) : Same s short (modify f : Decoding δ Unit) (modify f) :=
  .done fun _ => ⟨_, rfl⟩

theorem same_item (schema : Schema) (t : Ty) {f f' : Strategy} (hf : Same s short f f') :
    Same s short (item schema t f) (item schema t f') :=
  (hf.fresh _).bind fun _ => same_modify _

theorem same_list (schema : Schema) (hn : ∀ t, SameGet s short (nested t) (nested' t))
    (hs : Steps short n m) (t : Ty) :
    Same s short (list schema nested n t) (list schema nested' m t) := by
  apply (hn t).bind
  intro f f' hf
  apply (Same.ask .type).bind
  intro tag
  refine ((same_walk .array tag hs fun i => ?_).fresh []).bind fun _ => .done fun _ => ⟨_, rfl⟩
  exact same_item schema t hf

theorem same_array (schema : Schema) (hr : ∀ t, SameGet s short (resolve t) (resolve' t))
    (hn : ∀ t, SameGet s short (nested t) (nested' t)) (hs : Steps short n m) (item : Ty)
    (length : Nat) : Same s short (array schema resolve nested n item length)
      (array schema resolve' nested' m item length) := by
  apply (hn item).bind
  intro f f' hf
  apply (Same.ask .type).bind
  intro tag
  refine Same.bind (.done fun _ => ⟨_, rfl⟩) fun _ => (same_walk .array tag hs fun i => ?_).bind ?_
  · split
    · exact (hf.focus _ _).bind fun _ => .pure _
    · exact same_discard (hr .dynamic).through
  · intro found
    split
    · exact Same.bind (.fail _) fun _ => .pure tag
    · exact .pure tag

theorem same_entry (schema : Schema) (key value : Ty) {kf kf' vf vf' : Strategy}
    (hk : Same s short kf kf') (hv : Same s short vf vf') (i : Nat) :
    Same s short (entry schema key value kf vf i : Decoding δ _)
      (entry schema key value kf' vf' i) :=
  (hk.fresh _).bind fun _ => (Same.ask _).bind fun _ => (hv.fresh _).bind fun _ => .pure _

theorem same_map (schema : Schema) (hn : ∀ t, SameGet s short (nested t) (nested' t))
    (hs : Steps short n m) (key value : Ty) :
    Same s short (map schema nested n key value) (map schema nested' m key value) := by
  apply (hn key).bind
  intro kf kf' hk
  apply (hn value).bind
  intro vf vf' hv
  apply (Same.ask .type).bind
  intro tag
  refine ((same_walk .map tag hs fun i => ?_).fresh _).bind fun _ => .done fun _ => ⟨_, rfl⟩
  exact (same_entry schema key value hk hv i).bind fun _ => same_modify _

theorem same_textMap (schema : Schema) (hr : ∀ t, SameGet s short (resolve t) (resolve' t))
    (hs : Steps short n m) (value : Ty) :
    Same s short (textMap schema resolve n value) (textMap schema resolve' m value) := by
  rw [textMap_eq, textMap_eq]
  apply (hr .text).bind
  intro kf kf' hk
  apply (hr value).bind
  intro vf vf' hv
  apply (Same.ask .type).bind
  intro tag
  apply Same.bind (.done fun _ => ⟨_, rfl⟩)
  intro _
  refine (same_walk .map tag hs fun i => ?_).bind fun _ => .pure tag
  exact (same_entry schema .text value hk hv i).bind fun _ => same_modify _

theorem same_optionAfresh (schema : Schema) (inner : Ty) {f f' : Strategy}
    (hf : Same s short f f') :
    Same s short (optionAfresh schema inner f) (optionAfresh schema inner f') := by
  apply (hf.fresh _).bind
  intro a
  dsimp only
  split <;> exact .done fun _ => ⟨_, rfl⟩

theorem same_option (schema : Schema) (hn : ∀ t, SameGet s short (nested t) (nested' t))
    (inner : Ty) :
    Same s short (option schema nested inner) (option schema nested' inner) := by
  apply (hn inner).bind
  intro f f' hf
  apply Same.bind (.done fun _ => ⟨_, rfl⟩)
  intro c
  cases c with
  | present c =>
    apply (hf.focus _ _).bind
    intro tag
    split <;> exact .done fun _ => ⟨_, rfl⟩
  | _ => exact same_optionAfresh schema inner hf

/-! ### Records -/

/-- Reading a leaf goes alike. -/
def leafSame (s : Schema) (short : Prop) (δ : Type) : LeafLaw δ where
  Holds m := Same s short m m
  pure := .pure
  fail := .fail
  ask c _ := .ask c
  bind h hf := h.bind hf

theorem same_intoSlot (hr : ∀ t, SameGet s short (resolve t) (resolve' t))
    (hn : ∀ t, SameGet s short (nested t) (nested' t)) (slot : Option Slot) :
    Same s short (intoSlot resolve nested slot) (intoSlot resolve' nested' slot) :=
  match slot with
  | some (.member _ t) => ((hn t).through.focus _ _).bind fun _ => .pure _
  | some (.unsupported _) => .fail _
  | none => same_discard (hr .dynamic).through

theorem same_field (hr : ∀ t, SameGet s short (resolve t) (resolve' t))
    (hn : ∀ t, SameGet s short (nested t) (nested' t)) (fields : Fields Slot) (i : Nat) :
    Same s short (field resolve nested fields i) (field resolve' nested' fields i) := by
  apply (Same.ask .type).bind
  intro tag
  apply ((leafSame s short _).readString tag .string).bind
  intro name
  have hslot : Same s short (ask (.toValue i) >>= fun _ => intoSlot resolve nested (fields.get? name))
      (ask (.toValue i) >>= fun _ => intoSlot resolve' nested' (fields.get? name)) :=
    (Same.ask _).bind fun _ => same_intoSlot hr hn _
  simp only
  split
  · exact (Same.note _).bind fun _ => hslot
  · exact hslot

theorem same_record (initial : Content) (hr : ∀ t, SameGet s short (resolve t) (resolve' t))
    (hn : ∀ t, SameGet s short (nested t) (nested' t)) (hs : Steps short n m)
    (fields : Fields Slot) :
    Same s short (record initial resolve nested n fields)
      (record initial resolve' nested' m fields) := by
  apply (Same.ask .type).bind
  intro tag
  apply (same_walk .map tag hs fun i => same_field hr hn fields i).attempt.bind
  intro r
  cases r with
  | error e => exact .done fun _ => ⟨_, rfl⟩
  | ok k =>
    simp only
    split <;> exact .done fun _ => ⟨_, rfl⟩

/-! ### Routines -/

theorem same_handshake : Same s short (handshake : Decoding (Hand δ) Unit) handshake := by
  apply Same.bind (.done fun _ => ⟨_, rfl⟩)
  intro h
  cases h.pending with
  | none => exact .pure ()
  | some i => exact Same.bind (.done fun _ => ⟨_, rfl⟩) fun _ => .ask _

theorem same_change (f : δ → δ) : Same s short (change f) (change f) := same_modify _

theorem same_decodeInto (hc : ∀ t, Same s short (call t) (call' t)) (t : Ty) (start : δ → Content)
    (finish : Content → Option Error → δ → δ) :
    Same s short (decodeInto call t start finish) (decodeInto call' t start finish) := by
  apply same_handshake.truncated.attempt.bind
  intro r
  cases r with
  | error e => exact (same_change _).bind fun _ => .fail e
  | ok u =>
    apply Same.bind (.done fun _ => ⟨_, rfl⟩)
    intro h
    apply ((hc t).truncated.isolate _).bind
    intro p
    apply (same_change _).bind
    intro _
    exact (Same.ofResult p.1).bind fun _ => .pure _

theorem same_goThrough (c : Container) (hs : Steps short n m)
    {body body' : Nat → Decoding (Hand δ) Unit} (hb : ∀ i, Same s short (body i) (body' i))
    (finish : Tag → Nat → δ → δ) :
    Same s short (goThrough c n body finish) (goThrough c m body' finish) := by
  apply (same_handshake.bind fun _ => Same.ask .type).truncated.bind
  intro tag
  exact (same_walk c tag hs hb).truncated.bind fun k => same_change _

/-- Carry out a routine, with something done around each of its callbacks. -/
def performBy (around : Decoding (Hand δ) Unit → Decoding (Hand δ) Unit) (call : Ty → Strategy)
    (rounds : Nat) : {h : Handle} → Nat → Routine δ h → Decoding (Hand δ) Unit
  | _, _, .skip => pure ()
  | _, _, .fail e => fail e
  | _, _, .update f => change f
  | _, i, .choose f => do
    let h ← get
    performBy around call rounds i (f h.state)
  | _, i, .seq a b => do
    performBy around call rounds i a
    performBy around call rounds i b
  | _, i, .attempt body finish => do
    let r ← attempt (performBy around call rounds i body)
    change (finish (failure? r))
  | _, _, .decode t start finish => decodeInto call t start finish
  | _, _, .array body finish =>
    goThrough .array rounds (fun n => around (performBy around call rounds n (body n))) finish
  | _, _, .map body finish =>
    goThrough .map rounds (fun n => around (performBy around call rounds n (body n))) finish
  | _, i, .key body => onChild none (performBy around call rounds i body)
  | _, i, .value body => onChild (some i) (performBy around call rounds i body)

theorem performBy_id (call : Ty → Strategy) (rounds : Nat) :
    ∀ {h : Handle} (i : Nat) (r : Routine δ h),
      performBy (fun m => m) call rounds i r = perform call rounds i r
  | _, _, .skip | _, _, .fail _ | _, _, .update _ | _, _, .decode _ _ _ => by
    rw [performBy, perform]
  | _, i, .choose f => by
    rw [performBy, perform]
    exact congrArg _ (funext fun h => performBy_id call rounds i (f h.state))
  | _, i, .seq a b => by
    rw [performBy, perform, performBy_id call rounds i a, performBy_id call rounds i b]
  | _, i, .attempt body finish => by
    rw [performBy, perform, performBy_id call rounds i body]
  | _, _, .array body finish => by
    rw [performBy, perform]
    have hbody := funext fun n => performBy_id call rounds n (body n)
    exact congrArg (goThrough .array rounds · finish) hbody
  | _, _, .map body finish => by
    rw [performBy, perform]
    have hbody := funext fun n => performBy_id call rounds n (body n)
    exact congrArg (goThrough .map rounds · finish) hbody
  | _, i, .key body => by rw [performBy, perform, performBy_id call rounds i body]
  | _, i, .value body => by rw [performBy, perform, performBy_id call rounds i body]

/-- Carrying out a routine goes alike whatever is done around its callbacks, if that goes as nothing
done. -/
theorem same_performBy {around : Decoding (Hand δ) Unit → Decoding (Hand δ) Unit}
    (ha : ∀ {m m' : Decoding (Hand δ) Unit}, Same s short m m' → Same s short (around m) m')
    (hc : ∀ t, Same s short (call t) (call' t)) (hs : Steps short n m) :
    ∀ {h : Handle} (i : Nat) (r : Routine δ h),
      Same s short (performBy around call n i r) (perform call' m i r)
  | _, _, .skip => .pure ()
  | _, _, .fail e => .fail e
  | _, _, .update f => same_change f
  | _, i, .choose f =>
    Same.bind (.done fun _ => ⟨_, rfl⟩) fun h => same_performBy ha hc hs i (f h.state)
  | _, i, .seq a b => (same_performBy ha hc hs i a).bind fun _ => same_performBy ha hc hs i b
  | _, i, .attempt body finish =>
    (same_performBy ha hc hs i body).attempt.bind fun r => same_change (finish (failure? r))
  | _, _, .decode t start finish => same_decodeInto hc t start finish
  | _, _, .array body finish =>
    same_goThrough .array hs (fun k => ha (same_performBy ha hc hs k (body k))) finish
  | _, _, .map body finish =>
    same_goThrough .map hs (fun k => ha (same_performBy ha hc hs k (body k))) finish
  | _, i, .key body => by
    simp only [performBy, perform]
    exact (same_performBy ha hc hs i body).focus _ _
  | _, i, .value body => by
    simp only [performBy, perform]
    exact (same_performBy ha hc hs i body).focus _ _

theorem same_perform (hc : ∀ t, Same s short (call t) (call' t)) (hs : Steps short n m)
    {h : Handle} (i : Nat) (r : Routine δ h) :
    Same s short (perform call n i r) (perform call' m i r) := by
  rw [← performBy_id]
  exact same_performBy (fun h => h) hc hs i r

theorem same_custom (hc : ∀ t, Same s short (call t) (call' t)) (hs : Steps short n m)
    (routine : Routine Work .decoder) :
    Same s short (custom call n routine) (custom call' m routine) :=
  ((same_perform hc hs 0 routine).focus _ _).bind fun _ => .pure _

/-! ### Values of no fixed type -/

theorem same_dynamicItems (hr : ∀ t, SameGet s short (resolve t) (resolve' t))
    (hs : Steps short n m) :
    Same s short (dynamicItems resolve n) (dynamicItems resolve' m) := by
  apply (hr .dynamic).bind
  intro f f' hf
  refine ((same_walk .array .array hs fun i => ?_).fresh _).bind fun _ => .pure _
  exact (same_value hf).bind fun _ => same_modify _

theorem same_dynamicEntry {f f' : Strategy} (hf : Same s short f f') (i : Nat) :
    Same s short (dynamicEntry f i : Decoding δ _) (dynamicEntry f' i) :=
  (same_value hf).bind fun _ => (Same.ask _).bind fun _ => (same_value hf).bind fun _ => .pure _

theorem same_dynamicEntries (entryRoutine : Option EntryRoutine)
    (hr : ∀ t, SameGet s short (resolve t) (resolve' t)) (hs : Steps short n m) :
    Same s short (dynamicEntries entryRoutine resolve n)
      (dynamicEntries entryRoutine resolve' m) := by
  cases entryRoutine with
  | some routine =>
    refine ((same_walk .map .map hs fun i => ?_).fresh _).bind fun _ => .pure _
    exact same_perform (fun t => (hr t).through) hs i (routine i)
  | none =>
    apply (hr .dynamic).bind
    intro f f' hf
    refine ((same_walk .map .map hs fun i => ?_).fresh _).bind fun _ => .pure _
    exact (same_dynamicEntry hf i).bind fun _ => same_modify _

theorem same_readDynamic (entryRoutine : Option EntryRoutine)
    (hr : ∀ t, SameGet s short (resolve t) (resolve' t)) (hs : Steps short n m) (tag : Tag) :
    Same s short (readDynamic entryRoutine resolve n tag)
      (readDynamic entryRoutine resolve' m tag) := by
  cases tag with
  | array => exact (same_dynamicItems hr hs).bind fun _ => .pure _
  | map => exact (same_dynamicEntries entryRoutine hr hs).bind fun _ => .pure _
  | string =>
    apply (Same.ask .string).bind
    intro b
    cases Utf8.read? b with
    | some s => exact .pure _
    | none => exact .pure _
  | unknown => exact .fail _
  | _ => exact (Same.ask _).bind fun _ => .pure _

theorem same_dynamic (entryRoutine : Option EntryRoutine)
    (hr : ∀ t, SameGet s short (resolve t) (resolve' t)) (hs : Steps short n m) :
    Same s short (dynamic entryRoutine resolve n) (dynamic entryRoutine resolve' m) :=
  (Same.ask .type).bind fun tag => (same_readDynamic entryRoutine hr hs tag).bind fun _ =>
    .done fun _ => ⟨_, rfl⟩

end Decoding

open Decoding

variable {short : Prop} {n m : Nat}

/-- A plan goes alike once the strategies of other types go alike. -/
theorem Plan.run_same (s : Setup) {resolve resolve' nested nested' : Ty → Decoding Content Strategy}
    (hr : ∀ t, SameGet s.schema short (resolve t) (resolve' t))
    (hn : ∀ t, SameGet s.schema short (nested t) (nested' t)) (hs : Steps short n m) (t : Ty)
    (p : Plan) : Same s.schema short (p.run s resolve nested n t) (p.run s resolve' nested' m t) := by
  cases p with
  | scalar k => exact same_takesOne (scalar_takesOne k)
  | byteList => exact same_takesOne bytes_takesOne
  | dynamic => exact same_dynamic s.entryRoutine hr hs
  | list item => exact same_list s.schema hn hs item
  | array item length => exact same_array s.schema hr hn hs item length
  | map key value => exact same_map s.schema hn hs key value
  | textMap value => exact same_textMap s.schema hr hs value
  | option inner => exact same_option s.schema hn inner
  | box inner => exact (hn inner).through
  | record fields _ => exact same_record (s.schema.initial t) hr hn hs fields
  | custom routine => exact same_custom (fun u => (hr u).through) hs routine
  | text accept => exact same_takesOne (text_takesOne accept)
  | error build => exact same_takesOne (error_takesOne _ build)
  | unsupported path => exact .fail _

namespace Setup

variable (s : Setup)

/-- More steps change nothing, unless there were too few. -/
theorem direct_same (hs : Steps short n m) (t : Ty) :
    Same s.schema short (s.direct n t) (s.direct m t) := by
  induction n generalizing m t with
  | zero => exact same_zero hs rfl fun h => by rw [h]; rfl
  | succ n ih =>
    obtain ⟨k, rfl, hk⟩ := hs.of_succ
    exact Plan.run_same s (fun u => .pure (ih hk u)) (fun u => .pure (ih hk u)) hk t _

/-- What the registry holds for a type is a way to get at its strategy. -/
theorem fetch_same {run : Ty → Compiled → Strategy} {direct : Ty → Strategy}
    (h : ∀ u f, Compiled.Of s.schema u f → Same s.schema short (run u f) (direct u)) (t : Ty) :
    SameGet s.schema short (fetch run t) (pure (direct t)) :=
  fun _ => .resolve t fun f hf => .done ⟨run t f, direct t, rfl, rfl, h t f hf⟩

/-- However a nested type is linked, it is a way to get at its strategy. -/
theorem reach_same {run : Ty → Compiled → Strategy} {direct : Ty → Strategy}
    (h : ∀ u f, Compiled.Of s.schema u f → Same s.schema short (run u f) (direct u)) {t : Ty}
    {f : Compiled} (hf : Compiled.Of s.schema t f) (u : Ty) :
    SameGet s.schema short (reach run f u) (pure (direct u)) := by
  unfold reach
  split
  · exact fetch_same s h u
  · exact .pure (fetch_same s h u).through
  · rename_i g hg
    exact .pure (h u g (hf.captured hg))

/-- **A compiled type decodes as its plan says**, whatever it captured and whatever it leaves to
the registry. -/
theorem run_same (n : Nat) (t : Ty) (f : Compiled) (hf : Compiled.Of s.schema t f) :
    Same s.schema short (s.run n t f) (s.direct n t) := by
  induction n generalizing t f with
  | zero => exact same_zero ⟨Nat.le_refl 0, .inr rfl⟩ rfl fun _ => rfl
  | succ n ih =>
    unfold run direct
    rw [hf.plan_eq]
    exact Plan.run_same s (fetch_same s ih) (reach_same s ih hf) ⟨Nat.le_refl n, .inr rfl⟩ t _

theorem call_same (n : Nat) (t : Ty) : Same s.schema short (s.call n t) (s.direct n t) :=
  (fetch_same s (fun u f hf => s.run_same n u f hf) t).through

/-- Decode the next value into a destination without a registry. -/
def decodeDirect (n : Nat) (t : Ty) : Decoding Content Unit :=
  truncated do
    let _ ← s.direct n t

/-- How decoding ends, given how the strategy of the type ended. -/
def shut {δ : Type} (e : Ending δ Tag) : Ending δ Unit :=
  ⟨(e.result.map fun _ => ()).mapError Error.truncate, e.dest⟩

theorem truncated_eq {δ : Type} (m : Decoding δ Tag) (dest : δ) :
    truncated (do let _ ← m) dest = (m dest).bind fun e => .done (shut e) := by
  refine (Dialogue.bind_bind _ _ _).trans (congrArg _ (funext fun ⟨result, c⟩ => ?_))
  cases result <;> rfl

theorem decodeDirect_eq (dest : Content) :
    s.decodeDirect n t dest = (s.direct n t dest).bind fun e => .done (shut e) :=
  truncated_eq _ dest

/-- Decoding goes as it does without a registry. -/
theorem decode_same (n : Nat) (t : Ty) :
    Same s.schema short (s.decode n t) (s.decodeDirect n t) :=
  ((s.call_same n t).bind fun _ => .pure ()).truncated

theorem decode_alike_direct {σ : Type} [TokenSource σ] {reg : Registry} (hr : reg.Sound s.schema)
    (n : Nat) (t : Ty) (dest : Content) (src : σ) :
    ((s.decode n t dest).run s.schema src reg).Alike
      ((s.decodeDirect n t dest).run s.schema src (.empty false)) :=
  (s.decode_same n t dest).alike src hr (.empty false)

/-- A decoding that did not fail leaves something in its destination. -/
theorem exists_ok {a : Option (Ending Content Unit)} (h : a.any (fun e => e.result.isOk) = true) :
    ∃ d, a = some ⟨.ok (), d⟩ := by
  match a, h with
  | some ⟨.ok (), d⟩, _ => exact ⟨d, rfl⟩

end Setup

end Decant
