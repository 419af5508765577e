import Decant.Catalog.Unruly
import Decant.Proofs.Blind
import Decant.Proofs.EitherWay
import Decant.Proofs.Sameness

/-!
# Decoding in two stages

* `Plan.run_retells` — a plan goes either way once the strategies of other types do.
* `Setup.direct_retells` — so the strategy of every type goes either way.
* `Setup.decode_two_stages` — what is decoded from a source is what is decoded from a value that was
  decoded from it first. After a failure over a string that is no text, a type that keeps the wording of
  failures holds another one (`Setup.reporting_tells_stages`).
-/

namespace Decant

/-- A schema of one definition has no other. -/
theorem Schema.find?_single {name name' : String} {d d' : Definition}
    (h : Schema.find? ⟨[(name, d)]⟩ name' = some d') : d' = d := by
  obtain ⟨entry, he, rfl⟩ := Option.map_eq_some_iff.1 h
  rw [List.mem_singleton.1 (List.mem_of_find?_eq_some he)]

variable {raw fair : Prop}

/-- A plan goes either way once the strategies of other types do. -/
theorem Plan.run_retells (s : Schema) {p : Plan} {f : Ty → Strategy}
    (hone : ∀ routine, p = .custom routine → routine.DecodesOne)
    (hblind : fair → raw → ∀ routine, p = .custom routine → routine.Blind)
    (hf : ∀ u, (f u).Retells raw fair) (n : Nat) (t : Ty) :
    Strategy.Retells raw fair
      (p.run (Setup.plain s) (fun u => pure (f u)) (fun u => pure (f u)) n t) := by
  cases p with
  | scalar c => exact Decoding.scalar_retells c
  | byteList => exact Decoding.bytes_retells
  | dynamic => exact Decoding.dynamic_retells (hf .dynamic)
  | list item => exact Decoding.list_retells s (hf item)
  | array item length => exact Decoding.array_retells s length (hf item) (hf .dynamic)
  | map key value => exact Decoding.map_retells s (hf key) (hf value)
  | textMap value => exact Decoding.textMap_retells s (hf .text) (hf value)
  | option inner => exact Decoding.option_retells s (hf inner)
  | box inner =>
    show Strategy.Retells raw fair (Decoding.through (pure (f inner)))
    rw [Decoding.through_pure]
    exact hf inner
  | record fields types => exact Decoding.record_retells _ (hf .dynamic) fun _ _ t _ => hf t
  | custom routine =>
    show Strategy.Retells raw fair
      (Decoding.custom (fun u => Decoding.through (pure (f u))) n routine)
    simp only [Decoding.through_pure]
    exact Decoding.custom_retells (hone routine rfl) (fun hr hw => hblind hr hw routine rfl) hf
  | text accept => exact Decoding.text_retells accept
  | error build => exact Decoding.error_retells _ build
  | unsupported path => exact fun _ _ => Decoding.Tallies.fail (.refl _)

namespace Setup

open Decoding
open Error (Near)

variable {s : Schema}

/-- The strategy of every type makes the same of a walk and of its retelling. -/
theorem direct_retells (hs : s.DecodesOne) (hb : fair → raw → s.Blind) (n : Nat) (t : Ty) :
    ((plain s).direct n t).Retells raw fair := by
  induction n generalizing t with
  | zero => exact fun _ _ _ _ _ => .exhausted
  | succ n ih =>
    refine Plan.run_retells s (fun routine h => ?_) (fun hf hr routine h => ?_) ih n t
    · obtain ⟨name, initial, uses, rfl, hd⟩ := Schema.plan_custom h
      exact hs name initial uses routine hd
    · obtain ⟨name, initial, uses, rfl, hd⟩ := Schema.plan_custom h
      exact hb hf hr name initial uses routine hd

theorem decodeDirect_tallies (hs : s.DecodesOne) (hb : fair → raw → s.Blind) (n : Nat) (t : Ty)
    {w : Walk} (hw : w.Clear ∨ raw) :
    Tallies raw fair (fun _ _ => True) w.exchanges w.retold.exchanges ((plain s).decodeDirect n t)
      ((plain s).decodeDirect n t) :=
  ((direct_retells hs hb n t w hw).andThen fun _ _ _ => .pure trivial).truncated

end Setup

/-! ## The catalog -/

namespace Catalog

/-- In the catalog only types that decode by hand lie in front of others, and not of each other. -/
theorem schema_grounded (types : List Ty) : (schema types).Grounded := by
  refine ⟨fun _ => 1, fun name initial uses routine h => ?_⟩
  rcases schema_custom types h with h | h | h | h
  · cases h
    refine ⟨trivial, fun _ => List.mem_cons_self, fun w => ?_, trivial⟩
    dsimp only
    split <;> trivial
  · cases h
    have hvalue : Ty.i64 ∈ [Ty.text, .i64] := by simp
    exact fun _ => ⟨trivial, List.mem_cons_self, hvalue, trivial, trivial⟩
  · cases h
    exact ⟨List.mem_cons_self, Nat.one_pos⟩
  · cases h
    refine ⟨⟨List.mem_cons_self, Nat.one_pos⟩, fun w => ?_, trivial⟩
    dsimp only
    split
    · split <;> trivial
    · trivial

/-- The types of the catalog that decode by hand do not look at what was found. -/
theorem schema_blind (types : List Ty) : (schema types).Blind := by
  intro name initial uses routine h
  rcases schema_custom types h with h | h | h | h
  · cases h
    refine ⟨trivial, fun _ _ _ _ => rfl, fun w => ?_, trivial⟩
    dsimp only
    split <;> trivial
  · cases h
    exact fun _ => ⟨trivial, fun _ _ _ => rfl, fun _ _ _ => rfl, trivial, trivial⟩
  · cases h
    exact fun _ _ _ => rfl
  · cases h
    refine ⟨fun _ _ _ => rfl, fun w => ?_, trivial⟩
    dsimp only
    split
    · split <;> trivial
    · trivial

/-- A streamed array with one string that is no text. -/
def oneRaw : Script :=
  ⟨[.enter .array none, .next, .string ⟨#[0xFF]⟩, .stop, .close]⟩

end Catalog

/-! ## Runs that compare -/

/-- Two runs of decoding leave the same notes and end alike: both are short of steps, both succeed
with the same destination, or both fail. They fail with the same error if every string was text; if
not, a string may have been found by the one and bytes by the other, and the destination is the same
unless a type that decodes by hand looked at that. -/
structure Run.Echoes {σ τ : Type} (text blind : Prop) (p : Run σ (Ending Content Unit))
    (q : Run τ (Ending Content Unit)) : Prop where
  notes : p.notes = q.notes
  short : p.answer = none ↔ q.answer = none
  success : ∀ d, p.answer = some ⟨.ok (), d⟩ ↔ q.answer = some ⟨.ok (), d⟩
  failure : ∀ e d e' d', p.answer = some ⟨.error e, d⟩ → q.answer = some ⟨.error e', d'⟩ →
    (text → e = e') ∧ (text ∨ blind → Error.Near (¬ text) e e' ∧ d = d')

theorem Run.Echoes.of_alike {σ τ : Type} {text blind : Prop} {p p' : Run σ (Ending Content Unit)}
    {q q' : Run τ (Ending Content Unit)} (hp : p.Alike p') (hq : q.Alike q')
    (h : p'.Echoes text blind q') : p.Echoes text blind q := by
  obtain ⟨hn, hs, hok, hf⟩ := h
  rw [← hp.answer, ← hq.answer] at hs
  rw [← hp.notes, ← hq.notes] at hn
  refine ⟨hn, hs, fun d => ?_, fun e d e' d' he he' => ?_⟩
  · rw [hp.answer, hq.answer]
    exact hok d
  · exact hf e d e' d' (hp.answer.symm.trans he) (hq.answer.symm.trans he')

/-- Led along a walk and along its retelling, decodings that tally compare. -/
theorem Decoding.Tallies.echoes {σ τ : Type} [TokenSource σ] [TokenSource τ] {text blind : Prop}
    {us vs : List Exchange} {m : Decoding Content Unit}
    (h : Decoding.Tallies (¬ text) (text ∨ blind) (fun _ _ => True) us vs m m) (s : Schema)
    {src src' : σ} {tgt tgt' : τ} (hs : Tells src us src') (ht : Tells tgt vs tgt')
    (dest : Content) :
    let p := (m dest).run s src (.empty false)
    p.Echoes text blind ((m dest).run s tgt (.empty false)) ∧
      (p.answer = none → p.exchanges.length ≤ us.length) := by
  have ha := h dest [] []
  rw [List.append_nil, List.append_nil] at ha
  obtain ⟨hn, hr⟩ := ha.run s (.empty false) (.empty false) hs ht
  intro p
  rcases hr with ⟨hp, hq, hl⟩ | ⟨e, us', e', vs', hp, hq, hb⟩
  · refine ⟨⟨hn, ?_, fun d => ?_, fun e d e' d' he => ?_⟩, fun _ => hl⟩
    · rw [hp, hq]
    · rw [hp, hq]
    · rw [hp] at he
      cases he
  · cases hb with
    | @ok _ _ d _ =>
      refine ⟨⟨hn, ?_, fun d => ?_, fun e d e' d' he => ?_⟩, fun h => ?_⟩
      · rw [hp, hq]
      · rw [hp, hq]
      · rw [hp] at he
        cases he
      · rw [hp] at h
        cases h
    | @error e e' d d' _ _ hf =>
      refine ⟨⟨hn, ?_, fun d => ?_, fun x c x' c' hx hx' => ?_⟩, fun h => ?_⟩
      · rw [hp, hq]
        exact ⟨nofun, nofun⟩
      · rw [hp, hq]
        exact ⟨nofun, nofun⟩
      · rw [hp] at hx
        rw [hq] at hx'
        cases hx
        cases hx'
        exact ⟨fun ht => (hf (.inl ht)).1.eq (not_not_intro ht), hf⟩
      · rw [hp] at h
        cases h

namespace Setup

open Decoding

variable {s : Schema} {σ : Type} [TokenSource σ]

/-- **Decoding in two stages is decoding directly.** If a value of no fixed type was decoded from a
source, then decoding any type from that source and decoding it from the value compare, however many
steps are allowed; and both come to an end, unless types that decode by hand go round in circles. -/
theorem decode_two_stages (hs : s.DecodesOne) {reg : Registry} (hr : reg.Reachable s) (n : Nat)
    (start : Content) (v : Value) (src : σ) :
    let r := ((plain s).decode n .dynamic start).run s src reg
    r.answer = some ⟨.ok (), .dynamic v⟩ →
      ∀ (t : Ty) (dest : Content) (reg₁ reg₂ : Registry), reg₁.Reachable s → reg₂.Reachable s →
        (∀ m, (((plain s).decode m t dest).run s src reg₁).Echoes (WellFormed r.exchanges) s.Blind
          (((plain s).decode m t dest).run s (Cursor.ofValue v) reg₂)) ∧
        (s.Grounded → ∃ p q, (plain s).Ends t dest src reg₁ p ∧
          (plain s).Ends t dest (Cursor.ofValue v) reg₂ q ∧
            p.Echoes (WellFormed r.exchanges) s.Blind q) := by
  intro r hv t dest reg₁ reg₂ hr₁ hr₂
  obtain ⟨w, hw⟩ := decode_walk hs hr.sound hv
  have ht : Tells src w.exchanges r.source := hw ▸ Dialogue.run_tells s _ src reg
  -- The value is the one that the walk hands out, so a cursor on it offers the walk retold.
  obtain rfl : v = w.value := by
    have hread : Reads ((plain s).decodeDirect n .dynamic) w.exchanges start () (.dynamic w.value) :=
      ((direct_reads n w start).andThen rfl).truncated
    have ht' : Tells src (w.exchanges ++ []) r.source := by rwa [List.append_nil]
    obtain ⟨_, -, hanswer⟩ := (hread []).run s (.empty false) ht'
    have halike := (plain s).decode_alike_direct hr.sound n .dynamic start src
    have := (hanswer _ (halike.answer.symm.trans hv)).1
    cases this
    rfl
  have hc : Tells (Cursor.ofValue w.value) w.retold.exchanges ⟨none, none, []⟩ :=
    Cursor.tells_retold w none []
  have hclear : w.Clear ∨ ¬ WellFormed r.exchanges := by
    by_cases h : WellFormed r.exchanges
    · exact .inl (Walk.clear_of_wellFormed (hw ▸ h))
    · exact .inr h
  have hb : WellFormed r.exchanges ∨ s.Blind → ¬ WellFormed r.exchanges → s.Blind :=
    fun h hn => h.resolve_left hn
  have hdirect := fun m =>
    (decodeDirect_tallies hs hb m t hclear).echoes s ht hc dest
  constructor
  · intro m
    exact .of_alike ((plain s).decode_alike_direct hr₁.sound m t dest src)
      ((plain s).decode_alike_direct hr₂.sound m t dest _) (hdirect m).1
  · intro hg
    obtain ⟨m, hm⟩ := direct_enough hs hg t (w.exchanges.length + 1)
    obtain ⟨hecho, hlen⟩ := hdirect m
    -- The budget lasts for one call more than the walk makes.
    have hanswer : (((plain s).decodeDirect m t dest).run s src (.empty false)).answer ≠ none := by
      intro hnone
      obtain ⟨_, -, -, hlast⟩ := (decodeDirect_meets hm dest []).run s src (.empty false)
      have hlong := hlast hnone
      have hshort := hlen hnone
      omega
    exact ⟨_, _, ends_of_answer hr₁.sound hanswer,
      ends_of_answer hr₂.sound fun h => hanswer (hecho.short.2 h), hecho⟩

/-- A string that is no text, where an integer should be: both stages fail, and the destination is the
same. -/
theorem decode_two_stages_range :
    let s := Catalog.schema []
    let v := Value.array [.bytes ⟨#[0xFF]⟩]
    let r := ((plain s).decode 9 .dynamic (.dynamic .nil)).run s Catalog.oneRaw (.empty true)
    s.DecodesOne ∧ (Registry.empty true).Reachable s ∧ (Registry.empty false).Reachable s ∧
      s.Grounded ∧ s.Blind ∧ r.answer = some ⟨.ok (), .dynamic v⟩ ∧
      ∃ p q, (plain s).Ends (.named "Range") (.list []) Catalog.oneRaw (.empty true) p ∧
        (plain s).Ends (.named "Range") (.list []) (Cursor.ofValue v) (.empty false) q ∧
          p.Echoes (WellFormed r.exchanges) s.Blind q := by
  have hs := Catalog.schema_decodesOne []
  have hr : (Registry.empty true).Reachable (Catalog.schema []) := .empty true
  have hr' : (Registry.empty false).Reachable (Catalog.schema []) := .empty false
  have hg := Catalog.schema_grounded []
  have hd : (((plain (Catalog.schema [])).decode 9 .dynamic (.dynamic .nil)).run
    (Catalog.schema []) Catalog.oneRaw (.empty true)).answer =
      some ⟨.ok (), .dynamic (.array [.bytes ⟨#[0xFF]⟩])⟩ := by rfl
  have h := decode_two_stages hs hr 9 (.dynamic .nil) _ Catalog.oneRaw hd (.named "Range")
    (.list []) (.empty true) (.empty false) hr hr'
  exact ⟨hs, hr, hr', hg, Catalog.schema_blind [], hd, h.2 hg⟩

/-- A type that decodes one value and keeps the wording of the failure, if it is passed on: found as a string by
the one and as bytes by the other, what is no text leaves different contents. -/
theorem reporting_tells_stages :
    let s : Schema := ⟨[("Reporting", Catalog.reporting)]⟩
    let t : Ty := .named "Reporting"
    let src : Script := ⟨[.string ⟨#[0xFF]⟩]⟩
    let v : Value := .bytes ⟨#[0xFF]⟩
    let r := ((plain s).decode 9 .dynamic (.dynamic .nil)).run s src (.empty true)
    let p := ((plain s).decode 9 t (.text "")).run s src (.empty true)
    let q := ((plain s).decode 9 t (.text "")).run s (Cursor.ofValue v) (.empty true)
    s.DecodesOne ∧ (Registry.empty true).Reachable s ∧ r.answer = some ⟨.ok (), .dynamic v⟩ ∧
      p.answer = some ⟨.error (.typeConversion .string .int),
        .text "Cannot convert a value of type string to int."⟩ ∧
      q.answer = some ⟨.error (.typeConversion .bytes .int),
        .text "Cannot convert a value of type bytes to int."⟩ := by
  intro s t src v r p q
  have hs : s.DecodesOne := by
    intro name initial uses routine h
    cases Schema.find?_single h
    exact fun c => ⟨rfl, fun _ => ⟨fun _ => rfl, fun e => nofun⟩⟩
  exact ⟨hs, .empty true, eq_some_of_same (by decide +kernel), eq_some_of_same (by decide +kernel),
    eq_some_of_same (by decide +kernel)⟩

end Setup

end Decant
