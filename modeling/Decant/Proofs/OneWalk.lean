import Decant.Catalog.Unruly
import Decant.Proofs.CatalogContract
import Decant.Proofs.Direct

/-!
# Every strategy takes one walk

* `Plan.Decodes` — the types that a plan decodes where it stands, and those that it decodes once the
  source was asked for a tag.
* `Plan.run_obeys` — a plan obeys the protocol once the strategies of these types do.
* `Setup.direct_obeys` — so the strategy of every type obeys.
* `Setup.decode_keeps_protocol` — decoding makes no call but the ones that the protocol prescribes,
  and a success is one complete walk, if types that decode by hand decode one value. One that asks for
  nothing does not (`Setup.quiet_takes_no_walk`).
-/

namespace Decant

/-- The types that a plan decodes before the source was asked for anything, and those that it decodes
only then. -/
def Plan.Decodes (here inside : Ty → Prop) : Plan → Prop
  | .scalar _ | .byteList | .text _ | .error _ | .unsupported _ => True
  | .dynamic => inside .dynamic
  | .list item => inside item
  | .array item _ => inside item ∧ inside .dynamic
  | .map key value => inside key ∧ inside value
  | .textMap value => inside .text ∧ inside value
  | .option inner | .box inner => here inner
  | .record fields _ =>
    inside .dynamic ∧ ∀ name n t, fields.get? name = some (.member n t) → inside t
  | .custom routine => routine.Decodes here inside

namespace Decoding

open Strategy (Obeys)

variable {δ α β : Type} {k n : Nat} {ds : List Due} {fs : β → List Due} {f g : Strategy}

/-- What settles one thing may stand before what settles the rest. -/
theorem Meets.before {x : Due} {m : Decoding δ α} {h : α → Decoding δ β}
    (hm : Meets k [x] m fun _ => []) (hh : ∀ a, Meets k ds (h a) fs) :
    Meets k (x :: ds) (m >>= h) fs := by
  intro d rest
  apply obeys_bind (hm d (ds ++ rest))
  intro a p d' hp
  subst hp
  exact hh a d' rest

theorem due_of_token {tag : Tag} {c : Call} (hc : tag.token? = some c) : tag.due = .call c := by
  cases tag <;> cases hc <;> rfl

theorem after_token {tag : Tag} {c : Call} (hc : tag.token? = some c) (a : c.Reply) :
    (Due.call c).after ⟨c, .ok a⟩ = [] := by
  cases tag <;> cases hc <;> rfl

theorem obeys_takesOne (h : f.TakesOne) : f.Obeys k := by
  intro d rest
  obtain ⟨next, hd, hf, ht⟩ := h d
  rw [hd]
  refine .ask rfl ?_
  intro a
  cases a with
  | error e =>
    rw [hf]
    exact .done trivial
  | ok tag =>
    have htag := ht tag
    generalize next (.ok tag) = x at htag
    cases htag with
    | refuse e => exact .done trivial
    | take hc hf hr =>
      show Dialogue.Obeys _ (tag.due :: rest) _ _
      rw [due_of_token hc]
      refine .ask rfl ?_
      intro a
      cases a with
      | error e =>
        rw [hf]
        exact .done trivial
      | ok a =>
        obtain ⟨⟨result, dest⟩, he, _⟩ := hr a
        rw [he, after_token hc]
        cases result <;> exact .done (by trivial)

/-! ### Containers -/

theorem meets_value (hf : f.Obeys k) :
    Meets k [.value] (value f : Decoding δ Value) fun _ => [] :=
  (Meets.fresh _ hf).bind fun _ => .pure rfl

theorem meets_discard (hf : f.Obeys k) :
    Meets k [.value] (discard f : Decoding δ Unit) fun _ => [] :=
  (meets_value hf).bind fun _ => .pure rfl

theorem meets_modify (f : δ → δ) : Meets k ds (modify f : Decoding δ Unit) fun _ => ds :=
  .done fun _ => ⟨_, rfl, fun _ _ => rfl⟩

theorem meets_set (x : δ) : Meets k ds (set x : Decoding δ Unit) fun _ => ds :=
  .done fun _ => ⟨_, rfl, fun _ _ => rfl⟩

theorem meets_get : Meets k ds (get : Decoding δ δ) fun _ => ds :=
  .done fun _ => ⟨_, rfl, fun _ _ => rfl⟩

theorem meets_item (s : Schema) (t : Ty) (hf : f.Obeys k) :
    Meets k [.value] (item s t f) fun _ => [] :=
  (Meets.fresh _ hf).bind fun _ => meets_modify _

theorem list_obeys (s : Schema) {t : Ty} {nested : Ty → Strategy}
    (hf : (nested t).Obeys (k - 1)) (hk : k ≤ n) :
    Obeys k (list s (fun u => pure (nested u)) n t) := by
  unfold list
  rw [pure_bind]
  apply Meets.ask rfl
  intro tag
  refine ((Meets.walk (fun i => ?_) (by omega) tag).fresh []).bind fun _ => ?_
  · exact meets_item s t (hf.anti (Nat.sub_le _ 1))
  · exact (meets_set _).bind fun _ => .pure rfl

theorem array_obeys (s : Schema) {item : Ty} {nested : Ty → Strategy} (length : Nat)
    (hf : (nested item).Obeys (k - 1)) (hd : (nested .dynamic).Obeys (k - 1)) (hk : k ≤ n) :
    Obeys k (array s (fun u => pure (nested u)) (fun u => pure (nested u)) n item length) := by
  unfold array
  rw [pure_bind]
  apply Meets.ask rfl
  intro tag
  apply (meets_set _).bind
  intro _
  refine (Meets.walk (fun i => ?_) (by omega) tag).bind fun found => ?_
  · split
    · exact ((hf.anti (Nat.sub_le _ 1)).focus _ _).bind fun _ => .pure rfl
    · exact meets_discard (hd.anti (Nat.sub_le _ 1))
  · split
    · exact (Meets.fail _).bind fun _ => .pure rfl
    · exact .pure rfl

theorem meets_entry (s : Schema) (key value : Ty) {kf vf : Strategy} (hk : kf.Obeys k)
    (hv : vf.Obeys k) (i : Nat) :
    Meets k (Container.map.element i) (entry s key value kf vf i : Decoding δ (Content × Content))
      fun _ => [] := by
  apply Meets.before (hk.fresh _)
  intro _
  apply Meets.ask rfl
  intro _
  exact ((hv.anti (Nat.sub_le k 1)).fresh _).bind fun _ => .pure rfl

theorem map_obeys (s : Schema) {key value : Ty} {nested : Ty → Strategy}
    (hkey : (nested key).Obeys (k - 1)) (hvalue : (nested value).Obeys (k - 1)) (hk : k ≤ n) :
    Obeys k (map s (fun u => pure (nested u)) n key value) := by
  unfold map
  rw [pure_bind, pure_bind]
  apply Meets.ask rfl
  intro tag
  refine ((Meets.walk (fun i => ?_) (by omega) tag).fresh _).bind fun _ => ?_
  · have hentry : Meets _ _ (entry s key value _ _ i : Decoding Content _) _ :=
      meets_entry s key value (hkey.anti (Nat.sub_le _ 1)) (hvalue.anti (Nat.sub_le _ 1)) i
    exact hentry.bind fun _ => meets_modify _
  · exact (meets_set _).bind fun _ => .pure rfl

theorem textMap_obeys (s : Schema) {value : Ty} {nested : Ty → Strategy}
    (hkey : (nested .text).Obeys (k - 1)) (hvalue : (nested value).Obeys (k - 1)) (hk : k ≤ n) :
    Obeys k (textMap s (fun u => pure (nested u)) n value) := by
  rw [textMap_eq]
  unfold refill
  rw [pure_bind, pure_bind]
  apply Meets.ask rfl
  intro tag
  apply (meets_set _).bind
  intro _
  refine (Meets.walk (fun i => ?_) (by omega) tag).bind fun _ => .pure rfl
  have hentry : Meets _ _ (entry s .text value _ _ i : Decoding Content _) _ :=
    meets_entry s .text value (hkey.anti (Nat.sub_le _ 1)) (hvalue.anti (Nat.sub_le _ 1)) i
  exact hentry.bind fun _ => meets_modify _

theorem optionAfresh_obeys (s : Schema) (inner : Ty) (hf : f.Obeys k) :
    Obeys k (optionAfresh s inner f) := by
  apply (Meets.fresh _ hf).bind
  intro a
  dsimp only
  split
  · exact (meets_set _).bind fun _ => .pure rfl
  · exact .pure rfl

theorem option_obeys (s : Schema) {inner : Ty} {nested : Ty → Strategy}
    (hf : (nested inner).Obeys k) : Obeys k (option s (fun u => pure (nested u)) inner) := by
  unfold option
  rw [pure_bind]
  apply meets_get.bind
  intro c
  cases c with
  | present c =>
    apply (hf.focus _ _).bind
    intro tag
    split
    · exact (meets_set _).bind fun _ => .pure rfl
    · exact .pure rfl
  | _ => exact optionAfresh_obeys s inner hf

/-! ### Records -/

theorem meets_readText (tag expected : Tag) :
    Meets k [tag.due] (readText tag expected : Decoding δ ByteArray) fun _ => [] := by
  have htake : ∀ {c : Call}, (∀ a : c.Reply, (Due.call c).after ⟨c, .ok a⟩ = []) →
      Meets k [.call c] (ask c : Decoding δ c.Reply) fun _ => [] := by
    intro c hc
    rw [← bind_pure (ask c : Decoding δ c.Reply)]
    exact Meets.ask rfl fun a => .pure (by rw [hc]; rfl)
  cases tag with
  | nil => exact (htake fun _ => rfl).bind fun _ => .pure rfl
  | string => exact htake fun _ => rfl
  | bytes => exact htake fun _ => rfl
  | _ => exact .fail _

theorem meets_readString (tag expected : Tag) :
    Meets k [tag.due] (readString tag expected : Decoding δ String) fun _ => [] := by
  apply (meets_readText tag expected).bind
  intro b
  cases Utf8.read b with
  | ok s => exact .pure rfl
  | error fault => exact .fail _

theorem meets_intoSlot {nested : Ty → Strategy} (hd : (nested .dynamic).Obeys k) :
    ∀ {slot : Option Slot}, (∀ n t, slot = some (.member n t) → (nested t).Obeys k) →
      Meets k [.value] (intoSlot (fun u => pure (nested u)) (fun u => pure (nested u)) slot)
        fun _ => []
  | some (.member n t), h => ((h n t rfl).focus _ _).bind fun _ => .pure rfl
  | some (.unsupported _), _ => .fail _
  | none, _ => meets_discard hd

theorem meets_field {nested : Ty → Strategy} {fields : Fields Slot}
    (hd : (nested .dynamic).Obeys k)
    (hm : ∀ name n t, fields.get? name = some (.member n t) → (nested t).Obeys k) (i : Nat) :
    Meets k (Container.map.element i)
      (field (fun u => pure (nested u)) (fun u => pure (nested u)) fields i) fun _ => [] := by
  apply Meets.ask rfl
  intro tag
  apply Meets.before (meets_readString tag .string)
  intro name
  have hslot : Meets (k - 1) [.call (.toValue i), .value] (do
      let _ ← ask (.toValue i)
      intoSlot (fun u => pure (nested u)) (fun u => pure (nested u)) (fields.get? name)) fun _ => [] :=
    Meets.ask rfl fun _ => meets_intoSlot (hd.anti (by omega)) fun n t h =>
      (hm name n t h).anti (by omega)
  simp only
  split
  · exact Meets.note hslot
  · exact hslot

theorem record_obeys (initial : Content) {nested : Ty → Strategy} {fields : Fields Slot}
    (hd : (nested .dynamic).Obeys (k - 1))
    (hm : ∀ name n t, fields.get? name = some (.member n t) → (nested t).Obeys (k - 1))
    (hk : k ≤ n) :
    Obeys k (record initial (fun u => pure (nested u)) (fun u => pure (nested u)) n fields) := by
  apply Meets.ask rfl
  intro tag
  refine Meets.recover (Meets.walk (fun i => ?_) (by omega) tag) (fun found => ?_)
    fun e d => ⟨e, initial, rfl⟩
  · exact meets_field (hd.anti (Nat.sub_le _ 1)) (fun name n t h => (hm name n t h).anti
      (Nat.sub_le _ 1)) i
  · simp only
    split
    · exact (meets_set _).bind fun _ => .pure rfl
    · exact .pure rfl

/-! ### Values of no fixed type -/

theorem meets_dynamicItems {nested : Ty → Strategy} (hd : (nested .dynamic).Obeys k) (hk : k ≤ n) :
    Meets k [Tag.array.due] (dynamicItems (fun u => pure (nested u)) n) fun _ => [] := by
  unfold dynamicItems
  rw [pure_bind]
  refine ((Meets.walk (fun i => ?_) hk .array).fresh _).bind fun _ => .pure rfl
  exact (meets_value (hd.anti (Nat.sub_le k 1))).bind fun _ => meets_modify _

theorem meets_dynamicEntry (hf : f.Obeys k) (i : Nat) :
    Meets k (Container.map.element i) (dynamicEntry f i : Decoding δ (Value × Value)) fun _ => [] := by
  apply Meets.before (meets_value hf)
  intro _
  apply Meets.ask rfl
  intro _
  exact (meets_value (hf.anti (Nat.sub_le k 1))).bind fun _ => .pure rfl

theorem meets_dynamicEntries {nested : Ty → Strategy} (hd : (nested .dynamic).Obeys k)
    (hk : k ≤ n) :
    Meets k [Tag.map.due] (dynamicEntries none (fun u => pure (nested u)) n) fun _ => [] := by
  unfold dynamicEntries
  rw [pure_bind]
  refine ((Meets.walk (fun i => ?_) hk .map).fresh _).bind fun _ => .pure rfl
  exact (meets_dynamicEntry (hd.anti (Nat.sub_le k 1)) i).bind fun _ => meets_modify _

theorem meets_readDynamic {nested : Ty → Strategy} (hd : (nested .dynamic).Obeys k) (hk : k ≤ n)
    (tag : Tag) :
    Meets k [tag.due] (readDynamic none (fun u => pure (nested u)) n tag) fun _ => [] := by
  cases tag with
  | array => exact (meets_dynamicItems hd hk).bind fun _ => .pure rfl
  | map => exact (meets_dynamicEntries hd hk).bind fun _ => .pure rfl
  | string =>
    apply Meets.ask rfl
    intro b
    cases Utf8.read? b with
    | some s => exact .pure rfl
    | none => exact .pure rfl
  | unknown => exact .fail _
  | _ => exact Meets.ask rfl fun _ => .pure rfl

theorem dynamic_obeys {nested : Ty → Strategy} (hd : (nested .dynamic).Obeys (k - 1))
    (hk : k ≤ n) : Obeys k (dynamic none (fun u => pure (nested u)) n) := by
  apply Meets.ask rfl
  intro tag
  exact (meets_readDynamic hd (by omega) tag).bind fun v => (meets_set _).bind fun _ => .pure rfl

theorem through_pure (f : Strategy) : through (pure f) = f := pure_bind f _

end Decoding

theorem Plan.decodes_of_forall {here inside : Ty → Prop} (hh : ∀ t, here t) (hi : ∀ t, inside t)
    (p : Plan) : p.Decodes here inside := by
  cases p with
  | list item => exact hi item
  | array item n => exact ⟨hi item, hi .dynamic⟩
  | map key value => exact ⟨hi key, hi value⟩
  | textMap value => exact ⟨hi .text, hi value⟩
  | dynamic => exact hi .dynamic
  | option inner => exact hh inner
  | box inner => exact hh inner
  | record fields types => exact ⟨hi .dynamic, fun _ _ t _ => hi t⟩
  | custom routine => exact Routine.decodes_of_forall hh hi routine
  | _ => trivial

theorem Plan.Decodes.mono {here here' inside inside' : Ty → Prop} {p : Plan}
    (h : p.Decodes here inside) (hh : ∀ t, here t → here' t) (hi : ∀ t, inside t → inside' t) :
    p.Decodes here' inside' := by
  cases p with
  | list item => exact hi item h
  | array item n => exact ⟨hi item h.1, hi .dynamic h.2⟩
  | map key value => exact ⟨hi key h.1, hi value h.2⟩
  | textMap value => exact ⟨hi .text h.1, hi value h.2⟩
  | dynamic => exact hi .dynamic h
  | option inner => exact hh inner h
  | box inner => exact hh inner h
  | record fields types =>
    exact ⟨hi .dynamic h.1, fun name n t ht => hi t (h.2 name n t ht)⟩
  | custom routine => exact Routine.Decodes.mono h hh hi
  | _ => trivial

/-- A plan obeys the protocol once the strategies of the types that it decodes do. -/
theorem Plan.run_obeys (s : Schema) {p : Plan} {f : Ty → Strategy} {k n : Nat}
    (hone : ∀ routine, p = .custom routine → routine.DecodesOne)
    (hp : p.Decodes (fun u => (f u).Obeys k) fun u => (f u).Obeys (k - 1)) (hk : k ≤ n) (t : Ty) :
    Strategy.Obeys k
      (p.run (Setup.plain s) (fun u => pure (f u)) (fun u => pure (f u)) n t) := by
  cases p with
  | scalar c => exact Decoding.obeys_takesOne (Decoding.scalar_takesOne c)
  | byteList => exact Decoding.obeys_takesOne Decoding.bytes_takesOne
  | dynamic => exact Decoding.dynamic_obeys hp hk
  | list item => exact Decoding.list_obeys s hp hk
  | array item length => exact Decoding.array_obeys s length hp.1 hp.2 hk
  | map key value => exact Decoding.map_obeys s hp.1 hp.2 hk
  | textMap value => exact Decoding.textMap_obeys s hp.1 hp.2 hk
  | option inner => exact Decoding.option_obeys s hp
  | box inner =>
    show Strategy.Obeys k (Decoding.through (pure (f inner)))
    rw [Decoding.through_pure]
    exact hp
  | record fields types => exact Decoding.record_obeys _ hp.1 hp.2 hk
  | custom routine =>
    show Strategy.Obeys k (Decoding.custom (fun u => Decoding.through (pure (f u))) n routine)
    simp only [Decoding.through_pure]
    exact Decoding.custom_obeys (hone routine rfl) hk hp
  | text accept => exact Decoding.obeys_takesOne (Decoding.text_takesOne accept)
  | error build => exact Decoding.obeys_takesOne (Decoding.error_takesOne _ build)
  | unsupported path => exact Decoding.Meets.fail _

/-- A plan that carries out a routine is the one of a type that is defined so. -/
theorem Schema.plan_custom {s : Schema} {t : Ty} {routine : Routine Work .decoder}
    (h : s.plan t = .custom routine) :
    ∃ name initial uses, t = .named name ∧ s.find? name = some (.custom initial uses routine) := by
  unfold Schema.plan at h
  split at h
  case h_11 name =>
    split at h
    · rename_i d hd
      cases d with
      | custom initial uses r =>
        cases h
        exact ⟨name, initial, uses, rfl, hd⟩
      | _ => cases h
    · cases h
  all_goals first | cases h | (split at h <;> cases h)

namespace Setup

open Decoding

variable {s : Schema}

/-- The strategy of every type obeys the protocol. -/
theorem direct_obeys (hs : s.DecodesOne) (n : Nat) (t : Ty) :
    ((plain s).direct n t).Obeys 0 := by
  induction n generalizing t with
  | zero => exact fun _ _ => .exhausted
  | succ n ih =>
    refine Plan.run_obeys s (fun routine h => ?_) (Plan.decodes_of_forall ih ih _) n.zero_le t
    obtain ⟨name, initial, uses, rfl, hd⟩ := Schema.plan_custom h
    exact hs name initial uses routine hd

theorem decodeDirect_meets {k n : Nat} {t : Ty} (h : ((plain s).direct n t).Obeys k) :
    Meets k [.value] ((plain s).decodeDirect n t) fun _ => [] :=
  (h.bind fun _ => .pure rfl).truncated

variable {σ : Type} [TokenSource σ] {reg : Registry}

/-- The calls lead on from one value that is due, and if decoding succeeds, nothing is due any more. -/
theorem decode_leads (hs : s.DecodesOne) (hr : reg.Sound s) (n : Nat) (t : Ty) (dest : Content)
    (src : σ) :
    let r := ((plain s).decode n t dest).run s src reg
    ∃ ds, Leads [.value] r.exchanges ds ∧ ∀ d, r.answer = some ⟨.ok (), d⟩ → ds = [] := by
  intro r
  have ha := (plain s).decode_alike_direct hr n t dest src
  have hm := decodeDirect_meets (direct_obeys hs n t) dest []
  obtain ⟨ds, hl, hp, -⟩ := hm.run s src (.empty false)
  exact ⟨ds, ha.exchanges ▸ hl, fun d hd => hp ⟨.ok (), d⟩ (ha.answer.symm.trans hd)⟩

/-- A decoding that succeeds walks through one value. -/
theorem decode_walk (hs : s.DecodesOne) (hr : reg.Sound s) {n : Nat} {t : Ty} {dest d : Content}
    {src : σ} (hd : (((plain s).decode n t dest).run s src reg).answer = some ⟨.ok (), d⟩) :
    ∃ w : Walk, (((plain s).decode n t dest).run s src reg).exchanges = w.exchanges := by
  obtain ⟨ds, hl, hp⟩ := decode_leads hs hr n t dest src
  obtain rfl : ds = [] := hp d hd
  exact hl.walk

/-- **Decoding keeps to the protocol.** Every call is the one prescribed after those made before it
and their answers, and if decoding succeeds, the calls are one complete walk of one value. -/
theorem decode_keeps_protocol (hs : s.DecodesOne) (hr : reg.Reachable s) (n : Nat) (t : Ty)
    (dest : Content) (src : σ) :
    let r := ((plain s).decode n t dest).run s src reg
    (∀ pre x post, r.exchanges = pre ++ x :: post → prescribed? pre = some x.call) ∧
      ∀ d, r.answer = some ⟨.ok (), d⟩ → ∃ w : Walk, r.exchanges = w.exchanges := by
  intro r
  obtain ⟨ds, hl, -⟩ := decode_leads hs hr.sound n t dest src
  constructor
  · intro pre x post hx
    exact hl.prescribed hx
  · intro d hd
    exact decode_walk hs hr.sound hd

/-- A streamed map with one entry, decoded by hand. -/
theorem decode_keeps_protocol_pairs :
    let s := Catalog.schema []
    let r := ((plain s).decode 9 (.named "Pairs") (.list [])).run s Catalog.onePair (.empty true)
    s.DecodesOne ∧ (Registry.empty true).Reachable s ∧
      (∀ pre x post, r.exchanges = pre ++ x :: post → prescribed? pre = some x.call) ∧
        r.answer = some ⟨.ok (), .list [.list [.text "a", .int 1]]⟩ ∧
          ∃ w : Walk, r.exchanges = w.exchanges := by
  have hs := Catalog.schema_decodesOne []
  have hr : (Registry.empty true).Reachable (Catalog.schema []) := .empty true
  have hd : (((plain (Catalog.schema [])).decode 9 (.named "Pairs") (.list [])).run
    (Catalog.schema []) Catalog.onePair (.empty true)).answer =
      some ⟨.ok (), .list [.list [.text "a", .int 1]]⟩ := by rfl
  have h := decode_keeps_protocol hs hr 9 (.named "Pairs") (.list []) Catalog.onePair
  exact ⟨hs, hr, h.1, hd, h.2 _ hd⟩

/-- A type that asks for nothing is decoded with success, without a walk. -/
theorem quiet_takes_no_walk :
    let s : Schema := ⟨[("Quiet", Catalog.quiet)]⟩
    let r := ((plain s).decode 9 (.named "Quiet") .unit).run s (⟨[.int 5]⟩ : Script) (.empty true)
    (Registry.empty true).Reachable s ∧ r.answer = some ⟨.ok (), .unit⟩ ∧ r.source = ⟨[.int 5]⟩ ∧
      ∀ w : Walk, r.exchanges ≠ w.exchanges := by
  intro s r
  have hx : r.exchanges = [] := rfl
  refine ⟨.empty true, rfl, rfl, fun w hw => ?_⟩
  cases w <;> cases hx.symm.trans hw

end Setup

end Decant
