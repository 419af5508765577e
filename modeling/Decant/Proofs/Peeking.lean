import Decant.Catalog.Unruly
import Decant.Proofs.CatalogContract
import Decant.Proofs.Nil
import Decant.Proofs.Sameness
import Decant.Proofs.Turns
import Decant.Source.Peeked
import Decant.Source.Recorded

/-!
# A tag taken off in advance

* `Dialogue.TypeFirst` — a dialogue that asks for a type before anything else. Led with a source whose
  tag was taken off and is served again, it goes as with the source itself (`TypeFirst.run_peeked`), and so
  does the dialogue to which the tag was told in advance (`TypeFirst.run_serving`).
* `Setup.Inquires` — decoding a value of a type does not end before the source was asked for something.
  `Setup.direct_inquires` says which types do so, and all that decode by hand in the catalog are among
  them (`Setup.inquires_catalog`).
* `Setup.decode_peeked` — so a peeked source is transparent, and the only element of a stream that is not
  an array is decoded as a value on its own, if anything was asked. A type that asks for nothing leaves the
  tag to be served (`Setup.quiet_leaves_tag`).
-/

namespace Decant

variable {σ α β : Type}

/-- The run with a peeked source whose tag was served, by that with the source beneath. -/
def Run.peeked (r : Run σ α) : Run (Peeked σ) α :=
  { r with source := ⟨none, r.source⟩ }

namespace Dialogue

/-- The first that is asked of the source, if anything is, is a type. -/
inductive TypeFirst : Dialogue α → Prop
  | done (a : α) : TypeFirst (.done a)
  | exhausted : TypeFirst .exhausted
  | ask (next : Answer .type → Dialogue α) : TypeFirst (.ask .type next)
  | resolve (t : Ty) {next : Compiled → Dialogue α} (h : ∀ f, TypeFirst (next f)) :
      TypeFirst (.resolve t next)
  | note (n : Note) {rest : Dialogue α} (h : TypeFirst rest) : TypeFirst (.note n rest)

/-- It is enough to look at the courses that a dialogue can take. -/
theorem TypeFirst.of_typed {d : Dialogue α} (h : d.Says fun xs _ => Typed xs) : d.TypeFirst := by
  induction d with
  | done a => exact .done a
  | exhausted => exact .exhausted
  | ask c next _ =>
    obtain ⟨xs, r, ht⟩ := Says.exists_course (h (.error .ended))
    obtain rfl : c = .type := ht _ rfl
    exact .ask next
  | resolve t next ih => exact .resolve t fun f => ih f (h f)
  | note n rest ih => exact .note n (ih h)

variable [TokenSource σ] {s : Schema} {d : Dialogue α} {tag : Tag} {src src₁ : σ}

/-- Once its tag was served, a peeked source goes as the source beneath. -/
theorem run_forwarded (d : Dialogue α) (src : σ) (reg : Registry) :
    d.run s (⟨none, src⟩ : Peeked σ) reg = (d.run s src reg).peeked := by
  induction d generalizing src reg with
  | done a => rfl
  | exhausted => rfl
  | ask c next ih =>
    have hforward : TokenSource.answer c (⟨none, src⟩ : Peeked σ) =
        ((TokenSource.answer c src).1, ⟨none, (TokenSource.answer c src).2⟩) := by
      cases c <;> rfl
    simp only [run, hforward, ih]
    rfl
  | resolve t next ih => exact ih _ _ _
  | note n rest ih =>
    simp only [run, ih]
    rfl

/-- A dialogue that asks for nothing goes the same whatever the source, and leaves it as it is. -/
theorem TypeFirst.run_silent (h : d.TypeFirst) (y : Peeked σ) {reg : Registry}
    (hx : (d.run s src reg).exchanges = []) :
    let r := d.run s src reg
    let p := d.run s y reg
    p.answer = r.answer ∧ p.exchanges = [] ∧ p.notes = r.notes ∧ p.source = y ∧ r.source = src := by
  induction h generalizing reg with
  | done a => exact ⟨rfl, rfl, rfl, rfl, rfl⟩
  | exhausted => exact ⟨rfl, rfl, rfl, rfl, rfl⟩
  | ask next => cases hx
  | resolve t _ ih => exact ih _ hx
  | note n _ ih =>
    obtain ⟨hanswer, hexchanges, hnotes, hsources⟩ := ih hx
    exact ⟨hanswer, hexchanges, congrArg (n :: ·) hnotes, hsources⟩

/-- **A peeked source is transparent** to a dialogue that asks it for something, and first for a type. -/
theorem TypeFirst.run_peeked (h : d.TypeFirst) (htype : TokenSource.answer .type src = (.ok tag, src₁))
    {reg : Registry} (hx : (d.run s src reg).exchanges ≠ []) :
    d.run s (⟨some tag, src₁⟩ : Peeked σ) reg = (d.run s src reg).peeked := by
  induction h generalizing reg with
  | done a => exact absurd rfl hx
  | exhausted => exact absurd rfl hx
  | ask next =>
    have hserved : TokenSource.answer .type (⟨some tag, src₁⟩ : Peeked σ) = (.ok tag, ⟨none, src₁⟩) := rfl
    simp only [run, htype, hserved, run_forwarded]
    rfl
  | resolve t _ ih => exact ih _ hx
  | note n _ ih =>
    simp only [run, ih hx]
    rfl

/-- Telling a dialogue the tag in advance spares it the first call, and nothing else. -/
theorem TypeFirst.run_serving (h : d.TypeFirst) (htype : TokenSource.answer .type src = (.ok tag, src₁))
    {reg : Registry} (hx : (d.run s src reg).exchanges ≠ []) :
    d.run s src reg = ((d.serving tag).run s src₁ reg).after [⟨.type, .ok tag⟩] := by
  induction h generalizing reg with
  | done a => exact absurd rfl hx
  | exhausted => exact absurd rfl hx
  | ask next =>
    simp only [run, htype]
    rfl
  | resolve t _ ih => exact ih _ hx
  | note n _ ih =>
    simp only [run, serving, ih hx]
    rfl

end Dialogue

namespace Decoding

open Dialogue (Says)

/-- Decoding does not end before the source was asked for something. -/
def Inquires (f : Strategy) : Prop := ∀ c, (f c).Says fun xs e => xs = [] → e = none

theorem inquires_of_type {f : Strategy} (h : ∀ c, ∃ next, f c = .ask .type next) : Inquires f := by
  intro c
  obtain ⟨next, hn⟩ := h c
  rw [hn]
  exact fun a => .of_forall (fun xs e hx => nomatch hx) _

/-- What is done at the end does not count. -/
theorem inquires_ends {x : Dialogue α} (h : x.Says fun xs e => xs = [] → e = none) (f : α → β) :
    (x.bind fun y => .done (f y)).Says fun xs e => xs = [] → e = none := by
  refine h.bind (fun _ _ _ => rfl) fun xs y hy hx => ?_
  rw [List.append_nil] at hx
  cases hy hx

end Decoding

/-- What a stream does after the element was decoded changes neither the result nor the source. -/
theorem Stream.andRun_settled [TokenSource σ] (s : Schema) (r : Run σ (Ending Content Tag))
    (served : Option Tag) (st : Stream) :
    let q := Dialogue.andRun s r (settled served st)
    q.answer.map (fun e => (e.result, e.dest.dest)) =
        r.answer.map (fun e => (e.result.map fun _ => (), e.dest)) ∧
      q.source = r.source ∧ q.exchanges = r.exchanges := by
  obtain ⟨answer, src, reg, xs, notes⟩ := r
  cases answer with
  | none => exact ⟨rfl, rfl, rfl⟩
  | some e =>
    obtain ⟨result, d⟩ := e
    cases result with
    | error err => exact ⟨rfl, rfl, List.append_nil xs⟩
    | ok t => exact ⟨rfl, rfl, List.append_nil xs⟩

/-- Whether a plan can be carried out at all. -/
def Plan.Supported : Plan → Prop
  | .unsupported _ => False
  | _ => True

/-- Only options and boxes are decoded as such. -/
theorem Schema.plan_wraps {s : Schema} {t v : Ty} (h : s.plan t = .option v ∨ s.plan t = .box v) :
    t = .option v ∨ t = .box v := by
  unfold Schema.plan at h
  split at h
  case h_9 inner =>
    rcases h with h | h
    · cases h
      exact .inl rfl
    · cases h
  case h_10 inner =>
    rcases h with h | h
    · cases h
    · cases h
      exact .inr rfl
  case h_11 name =>
    split at h
    · rename_i d _
      cases d <;> rcases h with h | h <;> cases h
    · rcases h with h | h <;> cases h
  all_goals first | (rcases h with h | h <;> cases h) | (split at h <;> rcases h with h | h <;> cases h)

namespace Setup

open Decoding

variable [TokenSource σ] {s : Setup} {t : Ty} {reg : Registry} {tag : Tag} {src src₁ : σ}

/-- Decoding a value of a type does not end before the source was asked for something. -/
def Inquires (s : Setup) (t : Ty) : Prop := ∀ n, Decoding.Inquires (s.direct n t)

/-- A chain of optional and owned types asks for something if the type at its end does. -/
theorem inquires_chain (h : s.Inquires t.core) : s.Inquires t := by
  intro n
  induction n generalizing t with
  | zero => exact fun _ _ => rfl
  | succ m ih =>
    cases t with
    | option t =>
      intro c
      show (option s.schema (fun u => pure (s.direct m u)) t c).Says _
      rw [option_apply]
      exact inquires_ends (ih (t := t) h _) _
    | box t =>
      show Decoding.Inquires (through (pure (s.direct m t)))
      rw [through_pure]
      exact ih (t := t) h
    | _ => exact h (m + 1)

/-- **Every type asks for something**, unless the chain of optional and owned types ends in one that
cannot be decoded, or in one that decodes by hand and ends without it. -/
theorem direct_inquires (ht : (s.schema.plan t.core).Supported)
    (hc : (s.schema.plan t.core).ByHand → s.Inquires t.core) : s.Inquires t := by
  refine inquires_chain ?_
  have hcore := t.core_unwrapped
  generalize t.core = u at ht hc hcore
  intro n
  cases n with
  | zero => exact fun _ _ => rfl
  | succ m =>
    unfold direct
    cases hp : s.schema.plan u with
    | option v =>
      rcases Schema.plan_wraps (.inl hp) with rfl | rfl
      · exact absurd rfl (hcore v).1
      · exact absurd rfl (hcore v).2
    | box v =>
      rcases Schema.plan_wraps (.inr hp) with rfl | rfl
      · exact absurd rfl (hcore v).1
      · exact absurd rfl (hcore v).2
    | unsupported path =>
      rw [hp] at ht
      exact absurd ht id
    | custom routine =>
      rw [hp] at hc
      have h := hc trivial (m + 1)
      unfold direct at h
      rwa [hp] at h
    | _ => exact inquires_of_type fun c => ⟨_, rfl⟩

/-- Decoding shows what the strategy shows that needs no registry. -/
theorem decode_shows (hr : reg.Sound s.schema) (n : Nat) (t : Ty) (dest : Content) (src : σ) :
    let r := (s.decode n t dest).run s.schema src reg
    let d := (s.direct n t dest).run s.schema src (.empty false)
    r.answer = d.answer.map shut ∧ r.source = d.source ∧ r.exchanges = d.exchanges ∧
      r.notes = d.notes := by
  intro r d
  have ha := s.decode_alike_direct hr n t dest src
  rw [decodeDirect_eq, Dialogue.run_map] at ha
  exact ⟨ha.answer, ha.source, ha.exchanges, ha.notes⟩

/-- The first call of a stream whose source announces no array decodes the value that was announced. -/
theorem next_start (hr : reg.Sound s.schema) (n : Nat) (t : Ty) (dest : Content)
    (htype : TokenSource.answer .type src = (.ok tag, src₁)) (ha : tag ≠ .array) :
    let q := (Stream.next s n t ⟨.start, dest⟩).run s.schema src reg
    let d := ((s.direct n t dest).serving tag).run s.schema src₁ (.empty false)
    q.answer.map (fun e => (e.result, e.dest.dest)) =
        d.answer.map (fun e => ((shut e).result, (shut e).dest)) ∧
      q.source = d.source ∧ q.exchanges = ⟨.type, .ok tag⟩ :: d.exchanges := by
  intro q d
  let u : Stream.Turn σ := ⟨⟨n, t, dest⟩, .start, src, reg⟩
  have hlead : u.lead s = ⟨some ⟨.ok (some tag), ⟨tag, 0, some 1, none⟩, dest⟩, src₁, reg,
      [⟨.type, .ok tag⟩], []⟩ := by
    unfold Stream.Turn.lead
    rw [Stream.lead_start]
    simp only [Dialogue.run, u, htype, if_neg ha]
  have hq : q = _ := Stream.Turn.run_led (u := u) rfl hlead
  have hsame : Same s.schema False (truncated (Stream.told (some tag) (s.call n t)))
      (truncated (Stream.told (some tag) (s.direct n t))) :=
    (Stream.same_told (some tag) (s.call_same n t)).truncated
  have helement := (hsame dest).alike src₁ hr (.empty false)
  have htold : truncated (Stream.told (some tag) (s.direct n t)) dest =
      ((s.direct n t dest).serving tag).bind fun e =>
        .done ⟨e.result.mapError Error.truncate, e.dest⟩ := rfl
  rw [htold, Dialogue.run_map] at helement
  obtain ⟨hanswer, hsource, hexchanges⟩ := Stream.andRun_settled s.schema
    ((truncated (Stream.told (some tag) (s.call n t)) dest).run s.schema src₁ reg) (some tag)
    ⟨tag, 0, some 1, none⟩
  rw [hq]
  refine ⟨hanswer.trans ?_, hsource.trans helement.source,
    congrArg ((⟨.type, .ok tag⟩ : Exchange) :: ·) (hexchanges.trans helement.exchanges)⟩
  rw [helement.answer, Option.map_map]
  refine congrArg (Option.map · _) (funext fun e => ?_)
  obtain ⟨result, c⟩ := e
  cases result <;> rfl

/-- **A peeked source is transparent.** Take off the tag of the next value and serve it again: then a value
of any type is decoded as from the source itself. The result or the error, the destination, the calls and
the notes are the same, and if anything was asked, then the source beneath is left as the source itself
would be, and the first element of a stream comes to the same, unless the tag is that of an array; if
nothing was asked, the tag is still there to be served, and the source was not touched. Every decoding that
comes to an end has asked for something, unless the chain of optional and owned types ends in one that
cannot be decoded, or in one that decodes by hand and may end without it. -/
theorem decode_peeked (s : Setup) (hr : reg.Reachable s.schema) (n : Nat) (t : Ty) (dest : Content)
    (htype : TokenSource.answer .type src = (.ok tag, src₁)) :
    let r := (s.decode n t dest).run s.schema src reg
    let p := (s.decode n t dest).run s.schema (⟨some tag, src₁⟩ : Peeked σ) reg
    let q := (Stream.next s n t ⟨.start, dest⟩).run s.schema src reg
    p.answer = r.answer ∧ p.exchanges = r.exchanges ∧ p.notes = r.notes ∧
      (r.exchanges ≠ [] → p.source = ⟨none, r.source⟩ ∧
        (tag ≠ .array → q.answer.map (fun e => (e.result, e.dest.dest)) =
            r.answer.map (fun e => (e.result, e.dest)) ∧
          q.source = r.source ∧ q.exchanges = r.exchanges)) ∧
      (r.exchanges = [] → p.source = ⟨some tag, src₁⟩ ∧ r.source = src) ∧
      ((s.schema.plan t.core).Supported → ((s.schema.plan t.core).ByHand → s.Inquires t.core) →
        r.answer ≠ none → r.exchanges ≠ []) := by
  intro r p q
  have hfirst : (s.direct n t dest).TypeFirst :=
    .of_typed ((s.direct_calls n t dest).mono fun _ _ h => h.typed)
  let d := (s.direct n t dest).run s.schema src (.empty false)
  let b := (s.direct n t dest).run s.schema (⟨some tag, src₁⟩ : Peeked σ) (.empty false)
  obtain ⟨hra, hrs, hrx, hrn⟩ : r.answer = d.answer.map shut ∧ r.source = d.source ∧
    r.exchanges = d.exchanges ∧ r.notes = d.notes := decode_shows hr.sound n t dest src
  obtain ⟨hpa, hps, hpx, hpn⟩ : p.answer = b.answer.map shut ∧ p.source = b.source ∧
    p.exchanges = b.exchanges ∧ p.notes = b.notes := decode_shows hr.sound n t dest _
  have hinquires : (s.schema.plan t.core).Supported → ((s.schema.plan t.core).ByHand → s.Inquires t.core) →
      r.answer ≠ none → r.exchanges ≠ [] := by
    intro ht hc ha hx
    have hd : d.answer = none :=
      (direct_inquires ht hc n dest).run s.schema src (.empty false) (hrx.symm.trans hx)
    rw [hra, hd] at ha
    exact ha rfl
  rw [hpa, hps, hpx, hpn, hra, hrs, hrx, hrn]
  rw [hra, hrx] at hinquires
  by_cases hx : d.exchanges = []
  · obtain ⟨hanswer, hexchanges, hnotes, hsources⟩ := hfirst.run_silent ⟨some tag, src₁⟩ hx
    exact ⟨congrArg _ hanswer, hexchanges.trans hx.symm, hnotes, fun h => absurd hx h, fun _ => hsources,
      hinquires⟩
  · have hpeeked : b = d.peeked := hfirst.run_peeked htype hx
    rw [hpeeked]
    refine ⟨rfl, rfl, rfl, fun _ => ⟨rfl, fun ha => ?_⟩, fun h => absurd h hx, hinquires⟩
    obtain ⟨hqa, hqs, hqx⟩ := next_start (s := s) hr.sound n t dest htype ha
    have hserving : d = _ := hfirst.run_serving htype hx
    rw [hserving]
    exact ⟨hqa.trans (Option.map_map (fun e => (e.result, e.dest)) shut _).symm, hqs, hqx⟩

/-- The types of the catalog that decode by hand ask for something. -/
theorem inquires_catalog (types : List Ty) (entry : Option EntryRoutine) {t : Ty}
    (ht : ((Catalog.schema types).plan t).ByHand) : Setup.Inquires ⟨Catalog.schema types, entry⟩ t := by
  intro n
  cases n with
  | zero => exact fun _ _ => rfl
  | succ m =>
    unfold direct
    cases hp : (Catalog.schema types).plan t with
    | custom routine =>
      obtain ⟨name, initial, uses, -, hd⟩ := Schema.plan_custom hp
      rcases Catalog.schema_custom types hd with h | h | h | h <;> cases h
      · exact inquires_of_type fun c => ⟨_, rfl⟩
      · exact inquires_of_type fun c => ⟨_, rfl⟩
      · cases m with
        | zero => exact fun _ _ => rfl
        | succ m => exact inquires_of_type fun c => ⟨_, rfl⟩
      · cases m with
        | zero => exact fun _ _ => rfl
        | succ m => exact inquires_of_type fun c => ⟨_, rfl⟩
    | _ =>
      rw [hp] at ht
      exact absurd ht id

/-- A map that is decoded by hand, from a source that keeps a record of the calls that reach it. -/
theorem decode_peeked_pairs :
    let s := plain (Catalog.schema [])
    let t : Ty := .option (.named "Pairs")
    let src : Recorded Script := .ofSource
      ⟨[.enter .map none, .next, .string "a".toUTF8, .value, .int 1, .stop, .close, .int 2]⟩
    let src₁ := (TokenSource.answer .type src).2
    let r := (s.decode 9 t .absent).run s.schema src (.empty true)
    let p := (s.decode 9 t .absent).run s.schema (⟨some .map, src₁⟩ : Peeked (Recorded Script)) (.empty true)
    let q := (Stream.next s 9 t ⟨.start, .absent⟩).run s.schema src (.empty true)
    (Registry.empty true).Reachable s.schema ∧ (s.schema.plan t.core).Supported ∧ s.Inquires t.core ∧
      TokenSource.answer .type src = (.ok .map, src₁) ∧
      p.answer = some ⟨.ok (), .present (.list [.list [.text "a", .int 1]])⟩ ∧
      p.source = ⟨none, r.source⟩ ∧ r.source.calls = [.type, .enter .map, .next .map 0, .type, .string,
        .toValue 0, .type, .int, .next .map 1, .leave .map 1] ∧
      q.source = r.source ∧ q.exchanges = r.exchanges := by
  intro s t src src₁ r p q
  have hr : (Registry.empty true).Reachable s.schema := .empty true
  have ht : (s.schema.plan t.core).Supported := trivial
  have hc : s.Inquires t.core := inquires_catalog [] none trivial
  have htype : TokenSource.answer .type src = (.ok .map, src₁) := rfl
  have hanswer : r.answer = some ⟨.ok (), .present (.list [.list [.text "a", .int 1]])⟩ :=
    eq_some_of_same (by decide +kernel)
  obtain ⟨ha, -, -, h, -, hinquires⟩ := s.decode_peeked hr 9 t .absent htype
  have hx : r.exchanges ≠ [] := hinquires ht (fun _ => hc) (by rw [hanswer]; exact Option.some_ne_none _)
  obtain ⟨hsource, hstream⟩ := h hx
  obtain ⟨-, hqs, hqx⟩ := hstream (by decide)
  exact ⟨hr, ht, hc, htype, ha.trans hanswer, hsource, by decide +kernel, hqs, hqx⟩

/-- A type that asks for nothing leaves a source as it is, but not one whose tag was taken off before, as the
first call of a stream does. -/
theorem quiet_leaves_tag :
    let s := plain ⟨[("Quiet", Catalog.quiet)]⟩
    let t : Ty := .named "Quiet"
    let src : Recorded Script := .ofSource ⟨[.int 5]⟩
    let src₁ := (TokenSource.answer .type src).2
    let r := (s.decode 9 t .unit).run s.schema src (.empty true)
    let p := (s.decode 9 t .unit).run s.schema (⟨some .int, src₁⟩ : Peeked (Recorded Script)) (.empty true)
    let q := (Stream.next s 9 t ⟨.start, .unit⟩).run s.schema src (.empty true)
    (Registry.empty true).Reachable s.schema ∧ (s.schema.plan t.core).Supported ∧
      TokenSource.answer .type src = (.ok .int, src₁) ∧ r.answer = some ⟨.ok (), .unit⟩ ∧
      p.answer = some ⟨.ok (), .unit⟩ ∧ r.source.calls = [] ∧ p.source.inner.calls = [.type] ∧
      q.source.calls = [.type] :=
  ⟨.empty true, trivial, rfl, rfl, rfl, rfl, rfl, rfl⟩

end Setup

end Decant
