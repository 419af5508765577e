import Mathlib.Order.Filter.AtTopBot.Basic
import Mathlib.Order.Filter.Finite
import Decant.Proofs.RoundTrip.Records

/-!
# Decoding what was encoded

* `Schema.EncodesOver` — the value of a content of a type, where a record keeps some members of another
  content. The entries of maps and records come in any order.
* `Schema.Encodes` — the same over the initial content of the type: what is not registered is as it is by
  default.
* `Setup.decode_encoded` — decoding the value of a content gives the content, and takes the whole value.
-/

namespace Decant

/-! ## Values of no fixed type -/

namespace Decoding

variable {nested : Ty → Strategy} {f : Strategy} {prior : Content} {n : Nat}

theorem value_gives {δ : Type} {v : Value} (h : f.Takes (.dynamic .nil) (.dynamic v) v)
    (stack : List Frame) (d : δ) :
    Gives (value f : Decoding δ Value) (⟨some v, none, stack⟩ : Cursor) d v d ⟨none, none, stack⟩ :=
  ((h none stack).fresh d).bind (.pure _ _ _)

theorem dynamicItems_gives {vs : List Value}
    (h : ∀ v ∈ vs, (nested .dynamic).Takes (.dynamic .nil) (.dynamic v) v) (hn : vs.length < n)
    (stack : List Frame) (d : Content) :
    Gives (dynamicItems (fun u => pure (nested u)) n) (⟨none, some (.array vs), stack⟩ : Cursor) d vs d
      ⟨none, none, stack⟩ := by
  let f := Frame.array vs
  have hb : ∀ i < f.length, Gives (do
        let v ← value (nested .dynamic)
        modify (· ++ [v]))
      (⟨f.head? i, none, f :: stack⟩ : Cursor) (vs.take i) () (vs.take (i + 1))
      ⟨none, none, f :: stack⟩ := by
    intro i hi
    have hi : i < vs.length := hi
    have hhead : f.head? i = some vs[i] := List.getElem?_eq_getElem hi
    rw [hhead, ← List.take_append_getElem hi]
    exact (value_gives (h vs[i] (List.getElem_mem hi)) _ _).bind (.modify _ _ _)
  have hw := walk_gives stack (c := .array) (v := .array vs) (n := n) rfl rfl hn hb
  rw [show f.length = vs.length from rfl, List.take_length] at hw
  exact (hw.fresh d).bind (.pure _ _ _)

theorem dynamicEntries_gives {es : List (Value × Value)}
    (hk : ∀ e ∈ es, (nested .dynamic).Takes (.dynamic .nil) (.dynamic e.1) e.1)
    (hv : ∀ e ∈ es, (nested .dynamic).Takes (.dynamic .nil) (.dynamic e.2) e.2) (hn : es.length < n)
    (stack : List Frame) (d : Content) :
    Gives (dynamicEntries none (fun u => pure (nested u)) n) (⟨none, some (.map es), stack⟩ : Cursor) d
      es d ⟨none, none, stack⟩ := by
  let f := Frame.map es
  have hb : ∀ i < f.length, Gives (do
        let entry ← dynamicEntry (nested .dynamic) i
        modify (· ++ [entry]))
      (⟨f.head? i, none, f :: stack⟩ : Cursor) (es.take i) () (es.take (i + 1))
      ⟨none, none, f :: stack⟩ := by
    intro i hi
    have hi : i < es.length := hi
    have hmem := List.getElem_mem hi
    have hhead : f.head? i = some es[i].1 := by simp [f, Frame.head?, hi]
    have hvalue : f.value? i = some es[i].2 := by simp [f, Frame.value?, hi]
    have hentry : Gives (dynamicEntry (nested .dynamic) i : Decoding (List (Value × Value)) _)
        (⟨some es[i].1, none, f :: stack⟩ : Cursor) (es.take i) es[i] (es.take i)
        ⟨none, none, f :: stack⟩ := by
      refine (value_gives (hk _ hmem) _ _).bind ?_
      refine Gives.ask (c := .toValue i) (Cursor.answer_toValue none rfl hvalue) ?_
      exact (value_gives (hv _ hmem) _ _).bind (.pure _ _ _)
    rw [hhead, ← List.take_append_getElem hi]
    exact hentry.bind (.modify _ _ _)
  have hw := walk_gives stack (c := .map) (v := .map es) (n := n) rfl rfl hn hb
  rw [show f.length = es.length from rfl, List.take_length] at hw
  exact (hw.fresh d).bind (.pure _ _ _)

theorem dynamic_gives {v : Value} {resolve : Ty → Decoding Content Strategy}
    (h : ∀ stack, Gives (readDynamic none resolve n v.tag) (⟨none, some v, stack⟩ : Cursor) prior v prior
      ⟨none, none, stack⟩) : (dynamic none resolve n).Takes prior (.dynamic v) v := by
  intro cur stack
  refine Gives.ask (c := .type) (a := v.tag) rfl ?_
  exact (h stack).bind (.bind (.set _ _ _) (.pure _ _ _))

end Decoding

open Decoding Filter

/-! ## Enough steps -/

namespace Setup

variable {s : Schema}

/-- Once there are enough steps, decoding a type from a content makes another one out of a value, and
takes nothing but that off a cursor. -/
def Takes (s : Schema) (t : Ty) (prior content : Content) (v : Value) : Prop :=
  ∀ᶠ n in atTop, ((plain s).direct n t).Takes prior content v

/-- The plan of a type is carried out with one step less. -/
theorem takes_of_plan {t : Ty} {prior content : Content} {v : Value}
    (h : ∀ᶠ n in atTop, ((s.plan t).run (plain s) (fun u => pure ((plain s).direct n u))
      (fun u => pure ((plain s).direct n u)) n t).Takes prior content v) : Takes s t prior content v := by
  rw [Takes, ← map_add_atTop_eq_nat 1, eventually_map]
  exact h

theorem eventually_mem {α : Type} {P : Nat → α → Prop} {xs : List α}
    (h : ∀ x ∈ xs, ∀ᶠ n in atTop, P n x) : ∀ᶠ n in atTop, ∀ x ∈ xs, P n x :=
  (eventually_all_finite (List.finite_toSet xs)).2 h

theorem sizeOf_entry_lt {es : List (Value × Value)} {e : Value × Value} (he : e ∈ es) :
    sizeOf e.1 < 1 + sizeOf es ∧ sizeOf e.2 < 1 + sizeOf es := by
  have hlt := List.sizeOf_lt_of_mem he
  obtain ⟨k, v⟩ := e
  simp only [Prod.mk.sizeOf_spec] at hlt ⊢
  omega

theorem takes_dynamic (v : Value) (prior : Content) : Takes s .dynamic prior (.dynamic v) v := by
  apply takes_of_plan
  match v with
  | .array vs =>
    have hitems : ∀ᶠ n in atTop, ∀ v ∈ vs,
        ((plain s).direct n .dynamic).Takes (.dynamic .nil) (.dynamic v) v :=
      eventually_mem fun v _ => takes_dynamic v (.dynamic .nil)
    filter_upwards [hitems, eventually_gt_atTop vs.length] with n h hn
    exact dynamic_gives fun stack => (dynamicItems_gives h hn stack prior).bind (.pure _ _ _)
  | .map es =>
    have hkeys : ∀ᶠ n in atTop, ∀ e ∈ es,
        ((plain s).direct n .dynamic).Takes (.dynamic .nil) (.dynamic e.1) e.1 :=
      eventually_mem fun e he =>
        have := sizeOf_entry_lt he
        takes_dynamic e.1 (.dynamic .nil)
    have hvalues : ∀ᶠ n in atTop, ∀ e ∈ es,
        ((plain s).direct n .dynamic).Takes (.dynamic .nil) (.dynamic e.2) e.2 :=
      eventually_mem fun e he =>
        have := sizeOf_entry_lt he
        takes_dynamic e.2 (.dynamic .nil)
    filter_upwards [hkeys, hvalues, eventually_gt_atTop es.length] with n hk hv hn
    exact dynamic_gives fun stack => (dynamicEntries_gives hk hv hn stack prior).bind (.pure _ _ _)
  | .string text =>
    refine .of_forall fun n => dynamic_gives fun stack => ?_
    refine Gives.ask (c := .string) (a := text.toUTF8) rfl ?_
    rw [Utf8.read?_toUTF8]
    exact .pure _ _ _
  | .nil | .bool _ | .int _ | .uint _ | .float _ | .bytes _ | .time _ | .duration _ | .error _ =>
    exact .of_forall fun n => dynamic_gives fun stack => Dialogue.Gives.ask rfl (.done _ _)
termination_by sizeOf v

end Setup

/-! ## Nil -/

/-- The types of which nil makes an empty content: all but those that decode by hand, from a text or from
an error, or not at all. -/
def Schema.TakesNil (s : Schema) : Ty → Prop
  | .unsupported _ _ => False
  | .option t | .box t => s.TakesNil t
  | .named name => ∃ members registrations own,
      s.find? name = some (.record members registrations own)
  | _ => True

namespace Decoding

variable {nested : Ty → Strategy} {prior x : Content} {n : Nat}

theorem list_takes_nil (s : Schema) (t : Ty) :
    (list s (fun u => pure (nested u)) n t).Takes prior (.list []) .nil := by
  intro cur stack
  refine Gives.ask (c := .type) (a := .nil) rfl ?_
  exact ((walk_gives_nil .array _ stack []).fresh prior).bind (.bind (.set _ _ _) (.pure _ _ _))

theorem array_takes_nil (s : Schema) (t : Ty) (length : Nat) :
    (array s (fun u => pure (nested u)) (fun u => pure (nested u)) n t length).Takes prior
      (.list (List.replicate length (s.initial t))) .nil := by
  intro cur stack
  refine Gives.ask (c := .type) (a := .nil) rfl ?_
  refine Gives.bind (.set _ _ _) ((walk_gives_nil .array _ stack _).bind ?_)
  rw [if_neg (by simp)]
  exact .pure _ _ _

theorem map_takes_nil (s : Schema) (key value : Ty) :
    (map s (fun u => pure (nested u)) n key value).Takes prior (.map []) .nil := by
  intro cur stack
  refine Gives.ask (c := .type) (a := .nil) rfl ?_
  exact ((walk_gives_nil .map _ stack _).fresh prior).bind (.bind (.set _ _ _) (.pure _ _ _))

theorem textMap_takes_nil (s : Schema) (value : Ty) :
    (textMap s (fun u => pure (nested u)) n value).Takes prior (.map []) .nil := by
  rw [textMap_eq]
  intro cur stack
  refine Gives.ask (c := .type) (a := .nil) rfl ?_
  exact Gives.bind (.set _ _ _) ((walk_gives_nil .map _ stack _).bind (.pure _ _ _))

theorem record_takes_nil (initial : Content) (fields : Fields Slot) :
    (record initial (fun u => pure (nested u)) (fun u => pure (nested u)) n fields).Takes prior initial
      .nil := by
  intro cur stack
  refine Gives.ask (c := .type) (a := .nil) rfl ?_
  exact (walk_gives_nil .map _ stack prior).attempt.bind (.bind (.set _ _ _) (.pure _ _ _))

end Decoding

namespace Setup

variable {s : Schema}

theorem takes_nil {t : Ty} (ht : s.TakesNil t) (prior : Content) : ∃ c, Takes s t prior c .nil := by
  induction t generalizing prior with
  | scalar k => exact ⟨_, takes_of_plan (.of_forall fun n => scalar_takes_nil k)⟩
  | errorValue => exact ⟨_, takes_of_plan (.of_forall fun n => error_takes_nil _)⟩
  | dynamic => exact ⟨_, takes_dynamic .nil prior⟩
  | unsupported name path => exact ht.elim
  | list t _ =>
    by_cases hu : t = .u8
    · subst hu
      exact ⟨_, takes_of_plan (.of_forall fun n => bytes_takes_nil)⟩
    · refine ⟨.list [], takes_of_plan ?_⟩
      rw [Schema.plan, if_neg hu]
      exact .of_forall fun n => list_takes_nil s t
  | array t length _ => exact ⟨_, takes_of_plan (.of_forall fun n => array_takes_nil s t length)⟩
  | map kind key value _ _ =>
    refine ⟨.map [], takes_of_plan ?_⟩
    cases kind with
    | sorted => exact .of_forall fun n => map_takes_nil s key value
    | hashed =>
      rw [Schema.plan]
      split
      · exact .of_forall fun n => textMap_takes_nil s value
      · exact .of_forall fun n => map_takes_nil s key value
  | option t ih =>
    by_cases hp : ∃ c, prior = .present c
    · obtain ⟨c, rfl⟩ := hp
      obtain ⟨_, hc⟩ := ih ht c
      exact ⟨_, takes_of_plan (hc.mono fun n h => option_takes_nil_present s h)⟩
    · obtain ⟨_, hc⟩ := ih ht (s.initial t)
      have hp : ∀ c, prior ≠ .present c := fun c hc => hp ⟨c, hc⟩
      exact ⟨_, takes_of_plan (hc.mono fun n h => option_takes_nil s hp h)⟩
  | box t ih =>
    obtain ⟨c, hc⟩ := ih ht prior
    exact ⟨c, takes_of_plan hc⟩
  | named name =>
    obtain ⟨members, registrations, own, hd⟩ := ht
    refine ⟨s.initial (.named name), takes_of_plan ?_⟩
    rw [Schema.plan, hd]
    exact .of_forall fun n => record_takes_nil _ _

end Setup

/-! ## Encoding -/

/-- The value of a content of a type: each container as such, an optional content as what it holds and nil
if it is absent, a record as a map from the names of its registered members. Members that are not
registered are those of a given content. -/
inductive Schema.EncodesOver (s : Schema) : Ty → (prior content : Content) → Value → Prop
  | scalar {k : Scalar} {prior x : Content} {v : Value} (h : k.Encodes x v) :
      EncodesOver s (.scalar k) prior x v
  | errorValue {prior : Content} (e : ErrorValue) :
      EncodesOver s .errorValue prior (.error e) (.error e)
  | dynamic {prior : Content} (v : Value) : EncodesOver s .dynamic prior (.dynamic v) v
  | bytes {prior : Content} (b : ByteArray) : EncodesOver s (.list .u8) prior (.blob b) (.bytes b)
  | list {t : Ty} {prior : Content} (es : List (Content × Value)) (ht : t ≠ .u8)
      (h : ∀ e ∈ es, EncodesOver s t (s.initial t) e.1 e.2) :
      EncodesOver s (.list t) prior (.list (es.map (·.1))) (.array (es.map (·.2)))
  | array {t : Ty} {prior : Content} (es : List (Content × Value))
      (h : ∀ e ∈ es, EncodesOver s t (s.initial t) e.1 e.2) :
      EncodesOver s (.array t es.length) prior (.list (es.map (·.1))) (.array (es.map (·.2)))
  /-- The entries may come in any order. -/
  | map {kind : MapKind} {key value : Ty} {prior : Content} {entries : List (Content × Content)}
      (es : List Mapping) (ha : Content.Ascending entries) (hp : (es.map Mapping.made).Perm entries)
      (hk : ∀ e ∈ es, EncodesOver s key (s.initial key) e.key e.keyValue)
      (hv : ∀ e ∈ es, EncodesOver s value (s.initial value) e.content e.value) :
      EncodesOver s (.map kind key value) prior (.map entries) (.map (es.map Mapping.encoded))
  | box {t : Ty} {prior x : Content} {v : Value} (h : EncodesOver s t prior x v) :
      EncodesOver s (.box t) prior x v
  | absent {t : Ty} (ht : s.TakesNil t) : EncodesOver s (.option t) .absent .absent .nil
  /-- Nil would be taken for an absent content. -/
  | present {t : Ty} {x : Content} {v : Value} (hv : v ≠ .nil)
      (h : EncodesOver s t (s.initial t) x v) : EncodesOver s (.option t) .absent (.present x) v
  | record {name : String} {members : List Member} {registrations : List (String × Target)}
      {own : Option Content} {priors contents : List Content} (ps : List Piece)
      (hd : s.find? name = some (.record members registrations own))
      (hp : Pieces members registrations priors contents ps)
      (h : ∀ p ∈ ps, EncodesOver s p.ty p.prior p.content p.value) :
      EncodesOver s (.named name) (.record priors) (.record contents) (.map (ps.map Piece.encoded))

/-- The value of a content of a type whose members that are not registered are as they are by default. -/
def Schema.Encodes (s : Schema) (t : Ty) (content : Content) (v : Value) : Prop :=
  s.EncodesOver t (s.initial t) content v

/-- The types no value of which is nil. -/
def Ty.NeverNil : Ty → Prop
  | .dynamic | .option _ => False
  | .box t => t.NeverNil
  | _ => True

namespace Schema

variable {s : Schema} {t : Ty} {prior x : Content} {v : Value}

theorem EncodesOver.ne_nil (ht : t.NeverNil) (h : s.EncodesOver t prior x v) : v ≠ .nil := by
  induction h with
  | scalar h => cases h <;> simp
  | dynamic v => exact ht.elim
  | box _ ih => exact ih ht
  | absent _ => exact ht.elim
  | present hv _ _ => exact hv
  | _ => simp

/-- Where no value is nil, everything may be present. -/
theorem EncodesOver.some (ht : t.NeverNil) (h : s.Encodes t x v) :
    s.EncodesOver (.option t) .absent (.present x) v := .present (EncodesOver.ne_nil ht h) h

end Schema

/-! ## Decoding -/

namespace Setup

variable {s : Schema}

/-- **A value that encodes a content is taken for that content.** -/
theorem takes_encoded {t : Ty} {prior x : Content} {v : Value} (h : s.EncodesOver t prior x v) :
    Takes s t prior x v := by
  induction h with
  | scalar h => exact takes_of_plan (.of_forall fun n => scalar_takes h)
  | errorValue e => exact takes_of_plan (.of_forall fun n => error_takes _ e)
  | @dynamic prior v => exact takes_dynamic v prior
  | bytes b => exact takes_of_plan (.of_forall fun n => bytes_takes b)
  | @list t prior es ht _ ih =>
    apply takes_of_plan
    rw [Schema.plan, if_neg ht]
    filter_upwards [eventually_mem ih, eventually_gt_atTop es.length] with n h hn
    exact list_takes s h hn
  | @array t prior es _ ih =>
    apply takes_of_plan
    filter_upwards [eventually_mem ih, eventually_gt_atTop es.length] with n h hn
    exact array_takes s h hn
  | @map kind key value prior entries es ha hp _ _ ihk ihv =>
    apply takes_of_plan
    filter_upwards [eventually_mem ihk, eventually_mem ihv, eventually_gt_atTop es.length] with n hk hv hn
    cases kind with
    | sorted => exact map_takes s hk hv ha hp hn
    | hashed =>
      rw [Schema.plan]
      split
      · rename_i htext
        obtain rfl := htext.1
        exact textMap_takes s hk hv ha hp hn
      · exact map_takes s hk hv ha hp hn
  | box _ ih => exact takes_of_plan ih
  | @absent t ht =>
    obtain ⟨c, hc⟩ := takes_nil ht (s.initial t)
    exact takes_of_plan (hc.mono fun n h => option_takes_nil s absent_ne_present h)
  | present hv _ ih => exact takes_of_plan (ih.mono fun n h => option_takes_present s absent_ne_present hv h)
  | @record name members registrations own priors contents ps hd hp _ ih =>
    apply takes_of_plan
    rw [Schema.plan, hd]
    filter_upwards [eventually_mem ih, eventually_gt_atTop ps.length] with n h hn
    exact record_takes _ hp h hn

/-- **Decoding the value of a content gives the content**, and nothing is left of the value. -/
theorem decode_encoded {t : Ty} {x : Content} {v : Value} (h : s.Encodes t x v) {reg : Registry}
    (hr : reg.Reachable s) :
    ∃ r, (plain s).Ends t (s.initial t) (Cursor.ofValue v) reg r ∧ r.answer = some ⟨.ok (), x⟩ ∧
      TokenSource.answer .type r.source = (.error .ended, r.source) := by
  obtain ⟨n, hn⟩ := (takes_encoded h).exists
  have hgives : Gives ((plain s).decodeDirect n t) (Cursor.ofValue v) (s.initial t) () x
      ⟨none, none, []⟩ := ((hn none []).bind (.pure () _ _)).truncated
  let r := ((plain s).decodeDirect n t (s.initial t)).run s (Cursor.ofValue v) (.empty false)
  obtain ⟨hanswer, hsource⟩ : r.answer = some ⟨.ok (), x⟩ ∧ r.source = ⟨none, none, []⟩ :=
    hgives.run s (.empty false)
  have hne : r.answer ≠ none := by
    simp [hanswer]
  refine ⟨r, ends_of_answer hr.sound hne, hanswer, ?_⟩
  rw [hsource]
  rfl

/-- Two shapes under lists of flags, the second of which is absent. The value holds the entries in
another order than the map, and the members of the shape in another order than the record. -/
theorem decode_encoded_shapes :
    let s := Catalog.schema []
    let t : Ty := .map .hashed (.list .bool) (.option (.named "Shape"))
    let origin : Content := .present (.record [.int (-5), .int 2147483647])
    let shape : Content := .record [.text "box", origin, .list [.text "a"], .int 0]
    let x : Content := .map [(.list [], .present shape), (.list [.bool true], .absent)]
    let v : Value := .map [(.array [.bool true], .nil),
      (.array [], .map [(.string "tags", .array [.string "a"]), (.string "kind", .string "box"),
        (.string "origin", .map [(.string "x", .int (-5)), (.string "y", .int 2147483647)])])]
    s.Encodes t x v ∧ (Registry.empty true).Reachable s ∧
      ∃ r, (plain s).Ends t (s.initial t) (Cursor.ofValue v) (.empty true) r ∧
        r.answer = some ⟨.ok (), x⟩ ∧ TokenSource.answer .type r.source = (.error .ended, r.source) := by
  intro s t origin shape x v
  have hpoint : s.Encodes (.named "Point") (.record [.int (-5), .int 2147483647])
      (.map [(.string "x", .int (-5)), (.string "y", .int 2147483647)]) := by
    show s.EncodesOver _ (.record [.int 0, .int 0]) _ _
    refine .record [⟨"x", 0, .int .i32, .int 0, .int (-5), .int (-5)⟩,
        ⟨"y", 1, .int .i32, .int 0, .int 2147483647, .int 2147483647⟩] rfl ?_ ?_
    · exact {
        unique := by decide
        apart := by decide
        registered := by decide
        ty := by simp [Catalog.plain]
        prior := by simp
        content := by simp
        kept := fun i hi => by
          match i with
          | 0 => exact absurd rfl (hi _ (.head _))
          | 1 => exact absurd rfl (hi _ (.tail _ (.head _)))
          | i + 2 => rfl }
    · rw [List.forall_mem_cons, List.forall_mem_singleton]
      exact ⟨.scalar (.signed rfl rfl), .scalar (.signed rfl rfl)⟩
  have htags : s.Encodes (.list .text) (.list [.text "a"]) (.array [.string "a"]) := by
    refine .list [(.text "a", .string "a")] (by decide) ?_
    rw [List.forall_mem_singleton]
    exact .scalar (.text "a")
  have hshape : s.Encodes (.named "Shape") shape (.map [(.string "tags", .array [.string "a"]),
      (.string "kind", .string "box"),
      (.string "origin", .map [(.string "x", .int (-5)), (.string "y", .int 2147483647)])]) := by
    show s.EncodesOver _ (.record [.text "", .absent, .list [], .int 0]) _ _
    refine .record [⟨"tags", 2, .list .text, .list [], .list [.text "a"], .array [.string "a"]⟩,
        ⟨"kind", 0, .text, .text "", .text "box", .string "box"⟩,
        ⟨"origin", 1, .option (.named "Point"), .absent, origin,
          .map [(.string "x", .int (-5)), (.string "y", .int 2147483647)]⟩] rfl ?_ ?_
    · exact {
        unique := by decide
        apart := by decide
        registered := by decide
        ty := by simp [Catalog.plain, Catalog.renamed]
        prior := by simp
        content := by simp
        kept := fun i hi => by
          match i with
          | 0 => exact absurd rfl (hi _ (.tail _ (.head _)))
          | 1 => exact absurd rfl (hi _ (.tail _ (.tail _ (.head _))))
          | 2 => exact absurd rfl (hi _ (.head _))
          | i + 3 => rfl }
    · rw [List.forall_mem_cons, List.forall_mem_cons, List.forall_mem_singleton]
      exact ⟨htags, .scalar (.text "box"), .some trivial hpoint⟩
  have hx : s.Encodes t x v := by
    refine .map [⟨.list [.bool true], .array [.bool true], .absent, .nil⟩,
      ⟨.list [], .array [], .present shape, _⟩] ?_ (.swap _ _ _) ?_ ?_
    · exact List.pairwise_pair.2 rfl
    · rw [List.forall_mem_cons, List.forall_mem_singleton]
      refine ⟨.list [(.bool true, .bool true)] (by decide) ?_, .list [] (by decide) (by simp)⟩
      rw [List.forall_mem_singleton]
      exact .scalar (.bool true)
    · rw [List.forall_mem_cons, List.forall_mem_singleton]
      exact ⟨.absent ⟨_, _, _, rfl⟩, .some trivial hshape⟩
  have hr : (Registry.empty true).Reachable s := .empty true
  exact ⟨hx, hr, decode_encoded hx hr⟩

end Setup

end Decant
