import Decant.Proofs.Indifference
import Decant.Proofs.Moves

/-!
# What nil leaves

* `Ty.core` — what a chain of optional and owned types holds in the end.
* `Setup.direct_nil` — in front of nil, the strategy of a type asks for the tag and the token, and leaves
  the initial content. Types that decode by hand, or from a text, or not at all, are left out.
* `Setup.direct_observes` — a strategy answers the tag that it asked for first, unless the chain ends in a
  type that decodes by hand.
* `Setup.decode_nil` — so an optional content is absent afterwards exactly if nil was observed.
-/

namespace Decant

/-- What a chain of optional and owned types holds in the end. -/
def Ty.core : Ty → Ty
  | .option t | .box t => t.core
  | t => t

theorem Ty.core_unwrapped (t v : Ty) : t.core ≠ .option v ∧ t.core ≠ .box v := by
  induction t with
  | option t ih => exact ih
  | box t ih => exact ih
  | _ => exact ⟨nofun, nofun⟩

theorem Ty.size_pos (t : Ty) : 0 < t.size := by
  cases t <;> exact Nat.succ_pos _

/-- Whether a plan leaves everything to user code. -/
def Plan.ByHand : Plan → Prop
  | .custom _ => True
  | _ => False

/-- Whether a plan restores its destination when it finds nil. -/
def Plan.RestoredByNil : Plan → Prop
  | .custom _ | .text _ | .unsupported _ => False
  | _ => True

/-! ## In front of nil -/

/-- In front of nil, a dialogue asks for the tag and for the token, and then it is done. -/
def Dialogue.NilTo {α : Type} (x : Dialogue α) (a : α) : Prop :=
  ∃ next next', x = .ask .type next ∧ next (.ok .nil) = .ask .nil next' ∧ next' (.ok ()) = .done a

namespace Dialogue.NilTo

variable {α β : Type} {x : Dialogue α} {a : α} {b : β}

theorem bind (h : x.NilTo a) {f : α → Dialogue β} (hf : f a = .done b) : (x.bind f).NilTo b := by
  obtain ⟨next, next', rfl, hnext, hnext'⟩ := h
  refine ⟨fun t => (next t).bind f, fun u => (next' u).bind f, rfl, ?_, ?_⟩
  · exact congrArg (Dialogue.bind · f) hnext
  · exact (congrArg (Dialogue.bind · f) hnext').trans hf

theorem run {σ : Type} [TokenSource σ] (h : x.NilTo a) {src src₁ src₂ : σ}
    (htype : TokenSource.answer .type src = (.ok .nil, src₁))
    (hnil : TokenSource.answer .nil src₁ = (.ok (), src₂)) (s : Schema) (reg : Registry) :
    x.run s src reg = ⟨some a, src₂, reg, [⟨.type, .ok .nil⟩, ⟨.nil, .ok ()⟩], []⟩ := by
  obtain ⟨next, next', rfl, hnext, hnext'⟩ := h
  simp only [Dialogue.run, htype, hnext, hnil, hnext']

end Dialogue.NilTo

namespace Schema

theorem initial_box (s : Schema) (t : Ty) : s.initial (.box t) = s.initial t := by
  show s.initialAt (t.size + 1 + s.size) t = s.initialAt (t.size + s.size + 1) t
  rw [Nat.add_right_comm]

theorem initial_array (s : Schema) (t : Ty) (k : Nat) :
    s.initial (.array t k) = .list (List.replicate k (s.initial t)) := by
  show Content.list (List.replicate k (s.initialAt (t.size + 1 + s.size) t)) = _
  rw [Nat.add_right_comm]
  rfl

end Schema

namespace Setup

open Decoding

variable {s : Setup}

/-- **Nil restores** the initial content of every type but those that decode by hand, or from a text, or
not at all. -/
theorem direct_nil {t : Ty} (ht : (s.schema.plan t.core).RestoredByNil) {n : Nat} (hn : t.size ≤ n)
    {c : Content} (hc : t.Admits c) : (s.direct n t c).NilTo ⟨.ok .nil, s.schema.initial t⟩ := by
  induction n generalizing t c with
  | zero => exact absurd hn (Nat.not_le.2 t.size_pos)
  | succ m ih =>
    cases t with
    | option t =>
      show (option s.schema (fun u => pure (s.direct m u)) t c).NilTo _
      rw [option_apply]
      refine (ih (t := t) ht (Nat.le_of_succ_le_succ hn) (admits_start hc)).bind ?_
      rw [optionEnd_of_admits hc]
      rfl
    | box t =>
      show (through (pure (s.direct m t)) c).NilTo _
      rw [through_pure, Schema.initial_box]
      exact ih (t := t) ht (Nat.le_of_succ_le_succ hn) hc
    | array t k =>
      rw [Schema.initial_array]
      exact ⟨_, _, rfl, rfl, rfl⟩
    | unsupported name path => exact absurd ht id
    | list t =>
      unfold direct Schema.plan Schema.initial Schema.initialAt
      dsimp only
      split
      · exact ⟨_, _, rfl, rfl, rfl⟩
      · exact ⟨_, _, rfl, rfl, rfl⟩
    | map kind k v =>
      cases kind with
      | sorted => exact ⟨_, _, rfl, rfl, rfl⟩
      | hashed =>
        unfold direct Schema.plan
        dsimp only
        split
        · exact ⟨_, _, rfl, rfl, rfl⟩
        · exact ⟨_, _, rfl, rfl, rfl⟩
    | named name =>
      have ht : (s.schema.plan (.named name)).RestoredByNil := ht
      unfold direct
      unfold Schema.plan at ht ⊢
      dsimp only at ht ⊢
      cases hd : s.schema.find? name with
      | none =>
        rw [hd] at ht
        exact absurd ht id
      | some d =>
        rw [hd] at ht
        cases d with
        | record members registrations own => exact ⟨_, _, rfl, rfl, rfl⟩
        | error initial build => exact ⟨_, _, rfl, rfl, rfl⟩
        | custom initial uses routine => exact absurd ht id
        | text initial accept => exact absurd ht id
    | _ => exact ⟨_, _, rfl, rfl, rfl⟩

end Setup

/-! ## The tag that was observed -/

namespace Decoding

open Dialogue (Says)

variable {Q : List Exchange → Tag → Prop} {α : Type} {n : Nat}

/-- From any destination, the exchanges and the tag of a strategy that succeeds meet a condition. -/
def Reports (Q : List Exchange → Tag → Prop) (f : Strategy) : Prop :=
  ∀ c, (f c).Says fun xs e => ∀ tag d, e = some ⟨.ok tag, d⟩ → Q xs tag

/-- The first call asked for the tag. -/
def Observed (xs : List Exchange) (tag : Tag) : Prop := ∃ ys, xs = ⟨.type, .ok tag⟩ :: ys

/-- Whatever succeeds answers this tag. -/
def Returns (tag : Tag) (f : Strategy) : Prop := Reports (fun _ a => a = tag) f

namespace Reports

theorem fail (err : Error) : Reports Q (fail err) := fun _ => nofun

theorem exhausted : Reports Q exhausted := fun _ => nofun

/-- An optional type answers the tag of what it holds. -/
theorem option (s : Schema) {nested : Ty → Strategy} {inner : Ty} (h : Reports Q (nested inner)) :
    Reports Q (option s (fun u => pure (nested u)) inner) := by
  intro c
  rw [option_apply]
  refine (h _).bind (fun _ _ => nofun) ?_
  rintro xs ⟨result, d⟩ he tag d' hd
  cases hd
  rw [List.append_nil]
  exact he tag d rfl

end Reports

namespace Returns

variable {tag : Tag}

theorem done : Returns tag (Pure.pure tag) := by
  rintro c a d he
  cases he
  rfl

/-- What is done before does not count. -/
theorem after {m : Decoding Content α} {f : α → Strategy} (h : ∀ a, Returns tag (f a)) :
    Returns tag (m >>= f) := by
  intro c
  refine Says.after (fun _ => nofun) ?_
  rintro xs ⟨result, d⟩
  cases result with
  | ok a => exact h a d
  | error err => exact nofun

end Returns

theorem Reports.ask {f : Tag → Strategy} (h : ∀ tag, Returns tag (f tag)) :
    Reports Observed (ask .type >>= f) := by
  intro c a
  cases a with
  | error err => exact nofun
  | ok tag =>
    refine (h tag c).mono fun xs e he a d hd => ?_
    obtain rfl := he a d hd
    exact ⟨xs, rfl⟩

section observed

variable (g : Ty → Strategy)

theorem scalar_observes {times : TimeFormat} (k : Scalar) : Reports Observed (scalar times k) := by
  apply Reports.ask
  intro tag
  dsimp only
  split
  · exact .after fun _ => .after fun _ => .done
  · exact .after fun _ => .after fun _ => .done

theorem bytes_observes : Reports Observed bytes :=
  .ask fun _ => .after fun _ => .after fun _ => .done

theorem dynamic_observes (r : Option EntryRoutine) :
    Reports Observed (dynamic r (fun u => pure (g u)) n) :=
  .ask fun _ => .after fun _ => .after fun _ => .done

theorem list_observes (s : Schema) (t : Ty) : Reports Observed (list s (fun u => pure (g u)) n t) := by
  unfold list
  rw [pure_bind]
  exact .ask fun _ => .after fun _ => .after fun _ => .done

theorem array_observes (s : Schema) (t : Ty) (length : Nat) :
    Reports Observed (array s (fun u => pure (g u)) (fun u => pure (g u)) n t length) := by
  unfold array
  rw [pure_bind]
  refine .ask fun tag => .after fun _ => .after fun found => ?_
  split
  · exact .after fun _ => .done
  · exact .done

theorem map_observes (s : Schema) (key value : Ty) :
    Reports Observed (map s (fun u => pure (g u)) n key value) := by
  unfold map
  rw [pure_bind, pure_bind]
  exact .ask fun _ => .after fun _ => .after fun _ => .done

theorem textMap_observes (s : Schema) (value : Ty) :
    Reports Observed (textMap s (fun u => pure (g u)) n value) := by
  unfold textMap
  rw [pure_bind, pure_bind]
  exact .ask fun _ => .after fun _ => .after fun _ => .done

theorem record_observes (initial : Content) (fields : Fields Slot) :
    Reports Observed (record initial (fun u => pure (g u)) (fun u => pure (g u)) n fields) := by
  refine .ask fun tag => .after fun r => ?_
  cases r with
  | error err => exact .after fun _ => .fail err
  | ok k =>
    dsimp only
    split
    · exact .after fun _ => .done
    · exact .done

theorem text_observes (accept : Content → ByteArray → Content × Option Error) :
    Reports Observed (text accept) := by
  refine .ask fun tag => .after fun b => .after fun c => .after fun _ => ?_
  cases (accept c b).2 with
  | none => exact .done
  | some e => exact .fail e

theorem error_observes (initial : Content) (build : ErrorValue → Content) :
    Reports Observed (error initial build) := by
  apply Reports.ask
  intro tag
  cases tag with
  | nil => exact .after fun _ => .after fun _ => .done
  | error => exact .after fun _ => .after fun _ => .done
  | string => exact .after fun _ => .after fun _ => .done
  | bytes => exact .after fun _ => .after fun _ => .done
  | _ => exact .after fun _ => .done

end observed

end Decoding

namespace Setup

open Decoding

/-- A strategy tells what the strategy of the type at the end of its chain tells. -/
theorem direct_reports {s : Setup} {Q : List Exchange → Tag → Prop} {t : Ty}
    (h : ∀ n, Reports Q (s.direct n t.core)) (n : Nat) : Reports Q (s.direct n t) := by
  induction n generalizing t with
  | zero => exact .exhausted
  | succ m ih =>
    cases t with
    | option t => exact Reports.option s.schema (ih (t := t) h)
    | box t =>
      show Reports Q (through (pure (s.direct m t)))
      rw [through_pure]
      exact ih (t := t) h
    | _ => exact h (m + 1)

/-- **A strategy answers the tag that it asked for first**, unless the chain of optional and owned types
ends in a type that decodes by hand. -/
theorem direct_observes {s : Setup} {t : Ty} (ht : ¬ (s.schema.plan t.core).ByHand) (n : Nat) :
    Reports Observed (s.direct n t) := by
  refine direct_reports (fun n => ?_) n
  have hcore := t.core_unwrapped
  generalize t.core = u at ht hcore
  cases n with
  | zero => exact .exhausted
  | succ m =>
    unfold direct
    cases u with
    | option v => exact absurd rfl (hcore v).1
    | box v => exact absurd rfl (hcore v).2
    | scalar k => exact scalar_observes k
    | errorValue => exact error_observes _ _
    | dynamic => exact dynamic_observes _ _
    | unsupported name path => exact .fail _
    | list v =>
      unfold Schema.plan
      dsimp only
      split
      · exact bytes_observes
      · exact list_observes _ _ v
    | array v k => exact array_observes _ _ v k
    | map kind k v =>
      cases kind with
      | sorted => exact map_observes _ _ k v
      | hashed =>
        unfold Schema.plan
        dsimp only
        split
        · exact textMap_observes _ _ v
        · exact map_observes _ _ k v
    | named name =>
      unfold Schema.plan at ht ⊢
      dsimp only at ht ⊢
      cases hd : s.schema.find? name with
      | none => exact .fail _
      | some d =>
        rw [hd] at ht
        cases d with
        | record members registrations own => exact record_observes _ _ _
        | custom initial uses routine => exact absurd trivial ht
        | text initial accept => exact text_observes accept
        | error initial build => exact error_observes _ build

/-- A type that decodes by hand never answers nil. -/
theorem direct_byHand {s : Setup} {t : Ty} (ht : (s.schema.plan t.core).ByHand) (n : Nat) :
    Reports (fun _ tag => tag ≠ .nil) (s.direct n t) := by
  refine direct_reports (fun n => ?_) n
  cases n with
  | zero => exact .exhausted
  | succ m =>
    unfold direct
    cases hp : s.schema.plan t.core with
    | custom routine =>
      intro c
      show (Decoding.custom _ m routine c).Says _
      rw [custom_apply]
      apply Dialogue.Says.after
      · intro xs tag d hd
        cases hd
      · rintro xs ⟨result, y⟩ tag d hd
        cases result with
        | ok u =>
          cases hd
          simp
        | error err => cases hd
    | _ =>
      rw [hp] at ht
      exact absurd ht id

variable {σ : Type} [TokenSource σ] {reg : Registry}

/-- What an optional content is afterwards. -/
theorem decodeDirect_option {s : Setup} {Q : List Exchange → Tag → Prop} {n : Nat} {t : Ty}
    (h : ∀ n, Reports Q (s.direct n t)) {dest : Content} (hc : (Ty.option t).Admits dest) :
    (s.decodeDirect n (.option t) dest).Says fun xs e => ∀ d, e = some ⟨.ok (), d⟩ →
      ∃ tag c, Q xs tag ∧ d = if tag = .nil then .absent else .present c := by
  rw [decodeDirect_eq]
  cases n with
  | zero => exact nofun
  | succ m =>
    show ((option s.schema (fun u => pure (s.direct m u)) t dest).bind _).Says _
    rw [option_apply, Dialogue.bind_bind]
    refine (h m _).bind (fun _ _ => nofun) ?_
    rintro xs ⟨result, c⟩ he d hd
    cases result with
    | error err => cases hd
    | ok tag =>
      cases hd
      rw [List.append_nil]
      exact ⟨tag, c, he tag c rfl, optionEnd_of_admits hc tag c⟩

/-- **The law of nil.** If a chain of optional and owned types does not end in a type that decodes by hand,
or from a text, or not at all, then in front of nil decoding succeeds, asks for the tag and the token and
for nothing else, and leaves the initial content, whatever the destination held. And if an optional
content was decoded, of a type whose chain does not end in one that decodes by hand, then it is absent
exactly if the tag observed was nil; at the end of a chain, a type that decodes by hand always makes it
present. -/
theorem decode_nil (s : Setup) (hr : reg.Reachable s.schema) (t : Ty) (n : Nat) (dest : Content)
    (src : σ) :
    ((s.schema.plan t.core).RestoredByNil → t.Admits dest → t.size ≤ n → ∀ src₁ src₂ : σ,
      TokenSource.answer .type src = (.ok .nil, src₁) →
      TokenSource.answer .nil src₁ = (.ok (), src₂) →
      let r := (s.decode n t dest).run s.schema src reg
      r.answer = some ⟨.ok (), s.schema.initial t⟩ ∧
        r.exchanges = [⟨.type, .ok .nil⟩, ⟨.nil, .ok ()⟩] ∧ r.source = src₂ ∧ r.notes = []) ∧
    ((Ty.option t).Admits dest →
      let r := (s.decode n (.option t) dest).run s.schema src reg
      ∀ d, r.answer = some ⟨.ok (), d⟩ →
        (¬ (s.schema.plan t.core).ByHand → ∃ tag xs, r.exchanges = ⟨.type, .ok tag⟩ :: xs ∧
          (d = .absent ↔ tag = .nil) ∧ (tag ≠ .nil → ∃ c, d = .present c)) ∧
        ((s.schema.plan t.core).ByHand → ∃ c, d = .present c)) := by
  refine ⟨fun ht hc hn src₁ src₂ htype hnil => ?_, fun hc => ?_⟩
  · intro r
    have ha := s.decode_alike_direct hr.sound n t dest src
    have hrun : (s.decodeDirect n t dest).NilTo ⟨.ok (), s.schema.initial t⟩ := by
      rw [decodeDirect_eq]
      exact (direct_nil ht hn hc).bind rfl
    rw [hrun.run htype hnil] at ha
    exact ⟨ha.answer, ha.exchanges, ha.source, ha.notes⟩
  · intro r d hd
    have ha := s.decode_alike_direct hr.sound n (.option t) dest src
    have hanswer := ha.answer.symm.trans hd
    rw [show r.exchanges = _ from ha.exchanges]
    constructor
    · intro ht
      obtain ⟨tag, c, ⟨xs, hxs⟩, rfl⟩ :=
        (decodeDirect_option (direct_observes ht) hc).run s.schema src (.empty false) d hanswer
      refine ⟨tag, xs, hxs, ?_, fun hne => ⟨c, if_neg hne⟩⟩
      by_cases hnil : tag = .nil
      · rw [if_pos hnil]
        exact ⟨fun _ => hnil, fun _ => rfl⟩
      · rw [if_neg hnil]
        exact ⟨nofun, fun h => absurd h hnil⟩
    · intro ht
      obtain ⟨tag, c, hne, rfl⟩ :=
        (decodeDirect_option (direct_byHand ht) hc).run s.schema src (.empty false) d hanswer
      exact ⟨c, if_neg hne⟩

/-- In front of nil, a point that is present behind an owned indirection becomes absent, and a range, which
decodes by hand, becomes present. -/
theorem decode_nil_point :
    let s := plain (Catalog.schema [])
    let t : Ty := .option (.box (.named "Point"))
    let dest : Content := .present (.record [.int 1, .int 2])
    let src : Script := ⟨[.nil]⟩
    let r := (s.decode 3 t dest).run s.schema src (.empty true)
    let q := (s.decode 3 (.option (.named "Range")) .absent).run s.schema src (.empty true)
    (Registry.empty true).Reachable s.schema ∧ (s.schema.plan t.core).RestoredByNil ∧ t.Admits dest ∧
      t.size ≤ 3 ∧ r.answer = some ⟨.ok (), .absent⟩ ∧
      r.exchanges = [⟨.type, .ok .nil⟩, ⟨.nil, .ok ()⟩] ∧ ∃ c, q.answer = some ⟨.ok (), .present c⟩ := by
  intro s t dest src r q
  have hr : (Registry.empty true).Reachable s.schema := .empty true
  have ht : (s.schema.plan t.core).RestoredByNil := trivial
  have hc : t.Admits dest := trivial
  obtain ⟨hanswer, hexchanges, -, -⟩ :=
    (decode_nil s hr t 3 dest src).1 ht hc (by decide) src ⟨[]⟩ rfl rfl
  obtain ⟨d, hd⟩ : ∃ d, q.answer = some ⟨.ok (), d⟩ := exists_ok (by decide +kernel)
  obtain ⟨c, rfl⟩ := ((decode_nil s hr (.named "Range") 3 .absent src).2 trivial d hd).2 trivial
  exact ⟨hr, ht, hc, by decide, hanswer, hexchanges, c, hd⟩

end Setup

end Decant
