import Decant.Catalog.Unruly
import Decant.Proofs.SameData.Routines
import Decant.Proofs.TwoStages

/-!
# Which token carried the data

* `Schema.Mentions` — the types that a type is made of, and those that its definition mentions.
* `Schema.Exact` — a type that mentions neither values of no fixed type nor floats, and no user code for
  which a failure that it caught counts.
* `Setup.direct_steady` — the strategy of such a type does not tell tokens with the same data apart.
* `Setup.decode_akin` — values with the same data decode to the same content of such a type.

A failure names the tag that was found, so user code that makes something of one tells them apart after all
(`Setup.keeping_tells_tokens`).
-/

namespace Decant

/-! ## Types that a type mentions -/

namespace Schema

/-- The types that a type is put together from, or that its definition mentions. -/
def parts (s : Schema) : Ty → List Ty
  | .list t | .array t _ | .option t | .box t => [t]
  | .map _ k v => [k, v]
  | .named name => ((s.find? name).map Definition.types).getD []
  | _ => []

/-- A type mentions itself, its parts, and what these mention. -/
inductive Mentions (s : Schema) : Ty → Ty → Prop
  | refl (t : Ty) : Mentions s t t
  | part {t u v : Ty} (h : u ∈ s.parts t) (hv : Mentions s u v) : Mentions s t v

variable {s : Schema} {F : Ty → Prop} {t u : Ty}

/-- What a type mentions is in every list that it is in, if the list has the parts of its types. -/
theorem Mentions.mem {ts : List Ty} (h : s.Mentions t u) (hts : ∀ t ∈ ts, ∀ u ∈ s.parts t, u ∈ ts)
    (ht : t ∈ ts) : u ∈ ts := by
  induction h with
  | refl => exact ht
  | part h _ ih => exact ih (hts _ ht _ h)

/-- A type that mentions neither values of no fixed type nor floats, where the types that decode by hand
decode nothing but what they list, and do not let a failure that they caught count. Of the failures of types
in `F` it is known that they are alike; those of any other type may say what they like. -/
structure Exact (s : Schema) (F : Ty → Prop) (t : Ty) : Prop where
  dynamic : ¬ s.Mentions t .dynamic
  single : ¬ s.Mentions t (.scalar .single)
  double : ¬ s.Mentions t (.scalar .double)
  byHand : ∀ name initial uses routine, s.Mentions t (.named name) →
    s.find? name = some (.custom initial uses routine) → routine.Impartial (· ∈ uses) F (F (.named name))
  /-- What fails inside of a type fails it, unless it decodes by hand. -/
  inside : ∀ u v, s.Mentions t u → v ∈ s.parts u → F u →
    (∃ name initial uses routine, u = .named name ∧ s.find? name = some (.custom initial uses routine)) ∨ F v

theorem Exact.part (ht : s.Exact F t) (hu : u ∈ s.parts t) : s.Exact F u :=
  ⟨fun h => ht.dynamic (.part hu h), fun h => ht.single (.part hu h), fun h => ht.double (.part hu h),
    fun name initial uses routine h => ht.byHand name initial uses routine (.part hu h),
    fun u v h => ht.inside u v (.part hu h)⟩

/-- A type is exact if it is in a list of types that has the parts of its types, and neither values of no fixed
type nor floats. -/
theorem Exact.of_mem (ts : List Ty) (ht : t ∈ ts) (hts : ∀ t ∈ ts, ∀ u ∈ s.parts t, u ∈ ts)
    (hdyn : Ty.dynamic ∉ ts) (hsingle : Ty.scalar .single ∉ ts) (hdouble : Ty.scalar .double ∉ ts)
    (hhand : ∀ name initial uses routine, s.find? name = some (.custom initial uses routine) →
      routine.Impartial (· ∈ uses) F (F (.named name)))
    (hinside : ∀ u v, v ∈ s.parts u → F u → F v) : s.Exact F t where
  dynamic h := hdyn (h.mem hts ht)
  single h := hsingle (h.mem hts ht)
  double h := hdouble (h.mem hts ht)
  byHand name initial uses routine _ := hhand name initial uses routine
  inside u v _ hv hu := .inr (hinside u v hv hu)

/-- A type that mentions none that decodes by hand. -/
def Automatic (s : Schema) (t : Ty) : Prop :=
  ∀ name initial uses routine, s.Mentions t (.named name) →
    s.find? name ≠ some (.custom initial uses routine)

end Schema

namespace Catalog

/-- The types of the catalog that decode by hand let every failure through. -/
theorem schema_exact (types ts : List Ty) (ht : t ∈ ts)
    (hts : ∀ t ∈ ts, ∀ u ∈ (schema types).parts t, u ∈ ts) (hdyn : Ty.dynamic ∉ ts)
    (hsingle : Ty.scalar .single ∉ ts) (hdouble : Ty.scalar .double ∉ ts) :
    (schema types).Exact (schema types).Automatic t := by
  refine .of_mem ts ht hts hdyn hsingle hdouble ?_ ?_
  · intro name initial uses routine h
    obtain ⟨rank, hrank⟩ := schema_grounded types
    have hdecodes : routine.Decodes (· ∈ uses) (· ∈ uses) :=
      (hrank name initial uses routine h).mono (fun _ hu => hu.1) fun _ hu => hu
    exact (schema_careful types h).impartial hdecodes fun hauto => hauto name initial uses routine (.refl _) h
  · intro u v hv hauto name initial uses routine h
    exact hauto name initial uses routine (.part hv h)

/-- How a failure is worded does not count, since the type fails whatever it says. -/
theorem rewording_impartial {F : Ty → Prop} {initial : Content} {uses : List Ty} {routine : Routine Work .decoder}
    (h : rewording = .custom initial uses routine) : routine.Impartial (· ∈ uses) F False := by
  cases h
  intro c
  -- Either nothing failed, or both times there is some wording.
  let R (o : Option (Error × Error)) (x y : Work) : Prop := o = none →
    (x = y ∧ x.scratch = .absent) ∨
      (∃ s, x.scratch = .present (.text s)) ∧ ∃ s, y.scratch = .present (.text s)
  have hfirst : Routine.Paired (· ∈ [.i64]) F (inPlace .i64) (inPlace .i64)
      (fun o x y => o = none → x = y) ⟨c, .unit⟩ ⟨c, .unit⟩ :=
    .decode List.mem_cons_self rfl (fun _ _ => rfl) fun _ _ _ _ _ => nofun
  refine .seq (R := R) (.attempt hfirst fun e x y hxy _ => ?_) (fun x y hxy => ?_) fun _ _ _ _ => False.elim
  · cases e with
    | none => exact .inl ⟨congrArg (fun w : Work => { w with scratch := .absent }) (hxy rfl), rfl⟩
    | some e => exact .inr ⟨⟨_, rfl⟩, ⟨_, rfl⟩⟩
  · refine .seq (R := fun o x y => o = none → x.dest = y.dest) (.choose ?_) (fun x y hxy => .skip (hxy rfl))
      fun _ _ _ _ => False.elim
    obtain ⟨rfl, hx⟩ | ⟨⟨s, hx⟩, s', hy⟩ := hxy rfl
    · simp only [hx]
      exact .skip fun _ => rfl
    · simp only [hx, hy]
      exact .fail nofun

theorem rewording_exact :
    Schema.Exact ⟨[("Rewording", rewording)]⟩ (fun _ => False) (.list (.named "Rewording")) :=
  .of_mem [.list (.named "Rewording"), .named "Rewording", .i64] List.mem_cons_self (by decide +kernel)
    (by decide) (by decide) (by decide) (fun _ _ _ _ h => rewording_impartial (Schema.find?_single h).symm)
    fun _ _ _ => False.elim

end Catalog

/-! ## Plans -/

open Decoding
open Strategy (Steady Loose)

variable {s : Schema} {F : Ty → Prop} {t : Ty} {f : Ty → Strategy}

/-- What a type is made of is as steady as the type has to be, unless the type decodes by hand. -/
theorem Schema.Exact.steady_part {u : Ty} (ht : s.Exact F t) (hu : u ∈ s.parts t) (hf : Steady (F u) (f u))
    (hhand : ∀ name initial uses routine, t = .named name →
      s.find? name ≠ some (.custom initial uses routine)) : Steady (F t) (f u) := by
  refine InStep.uncounted hf fun hF => ?_
  rcases ht.inside t u (.refl t) hu hF with ⟨name, initial, uses, routine, hname, hfind⟩ | hF
  · exact absurd hfind (hhand name initial uses routine hname)
  · exact hF

/-- The plan of a defined type is steady once the strategies of the types that it mentions are. -/
theorem Definition.plan_steady {d : Definition} {name : String} (hd : s.find? name = some d)
    (ht : s.Exact F (.named name)) (hf : ∀ u ∈ d.types, Steady (F u) (f u)) (hdyn : Loose (f .dynamic))
    (n : Nat) : Steady (F (.named name))
      (d.plan.run (Setup.plain s) (fun u => pure (f u)) (fun u => pure (f u)) n (.named name)) := by
  cases d with
  | record members registrations own =>
    refine record_steady _ (fun key i u hu => ?_) hdyn
    have hmem : u ∈ (Definition.record members registrations own).types := Schema.mem_types_of_slot hu
    apply ht.steady_part (by rwa [Schema.parts, hd]) (hf u hmem)
    rintro _ _ _ _ ⟨⟩
    rw [hd]
    exact nofun
  | custom initial uses routine =>
    show Steady _ (Decoding.custom (fun u => through (pure (f u))) n routine)
    simp only [through_pure]
    exact custom_steady hf (ht.byHand name initial uses routine (.refl _) hd)
  | text initial accept => exact text_steady accept
  | error initial build => exact error_steady _ build

/-- The plan of a type is steady once the strategies of its parts are, and what is dropped has a loose
one. -/
theorem Schema.plan_steady (ht : s.Exact F t) (hf : ∀ u ∈ s.parts t, Steady (F u) (f u))
    (hd : Loose (f .dynamic)) (n : Nat) : Steady (F t)
      ((s.plan t).run (Setup.plain s) (fun u => pure (f u)) (fun u => pure (f u)) n t) := by
  cases t with
  | scalar k =>
    exact scalar_steady ⟨fun h => ht.single (h ▸ .refl _), fun h => ht.double (h ▸ .refl _)⟩
  | errorValue => exact error_steady _ _
  | dynamic => exact absurd (.refl _) ht.dynamic
  | unsupported name path => exact .fail (.refl _)
  | list item =>
    have hitem : item ∈ s.parts (.list item) := List.mem_cons_self
    simp only [plan]
    split
    · exact bytes_steady
    · exact list_steady s (ht.steady_part hitem (hf item hitem) (by simp))
  | array item length =>
    have hitem : item ∈ s.parts (.array item length) := List.mem_cons_self
    exact array_steady s length (ht.steady_part hitem (hf item hitem) (by simp)) hd
  | map kind key value =>
    have hkey : key ∈ s.parts (.map kind key value) := List.mem_cons_self
    have hvalue : value ∈ s.parts (.map kind key value) := List.mem_cons_of_mem _ List.mem_cons_self
    have hk := ht.steady_part hkey (hf key hkey) (by simp)
    have hv := ht.steady_part hvalue (hf value hvalue) (by simp)
    cases kind with
    | sorted => exact map_steady s hk hv
    | hashed =>
      simp only [plan]
      split
      · rename_i h
        exact textMap_steady s (h.1 ▸ hk) hv
      · exact map_steady s hk hv
  | option inner =>
    have hinner : inner ∈ s.parts (.option inner) := List.mem_cons_self
    exact option_steady s (ht.steady_part hinner (hf inner hinner) (by simp))
  | box inner =>
    have hinner : inner ∈ s.parts (.box inner) := List.mem_cons_self
    show Steady _ (through (pure (f inner)))
    rw [through_pure]
    exact ht.steady_part hinner (hf inner hinner) (by simp)
  | named name =>
    simp only [plan, parts] at hf ⊢
    split
    · rename_i d hname
      rw [hname] at hf
      exact d.plan_steady hname ht hf hd n
    · exact .fail (.refl _)

namespace Setup

/-- Values of no fixed type with the same data are taken off alike. -/
theorem direct_dynamic_loose (s : Schema) (n : Nat) : Loose ((plain s).direct n .dynamic) := by
  induction n with
  | zero => exact fun _ _ _ _ _ _ => .exhausted
  | succ n ih => exact dynamic_loose ih

/-- The strategy of an exact type does not tell tokens with the same data apart. -/
theorem direct_steady (n : Nat) (ht : s.Exact F t) : Steady (F t) ((plain s).direct n t) := by
  induction n generalizing t with
  | zero => exact fun _ _ _ _ _ _ => .exhausted
  | succ n ih => exact s.plan_steady ht (fun u hu => ih (ht.part hu)) (direct_dynamic_loose s n) n

theorem decodeDirect_inStep (n : Nat) (ht : s.Exact F t) :
    InStep (.same (F t)) Eq ((plain s).decodeDirect n t) ((plain s).decodeDirect n t) :=
  (InStep.map (direct_steady n ht) fun _ _ _ => rfl).truncated

/-- What two decodings answer that both ran out of steps, or came to ends that belong together. -/
theorem answers_of_joint {counts : Prop} {p q : Option (Ending Content Unit)} {c d : Cursor}
    (h : p = none ∧ q = none ∨ ∃ a b, p = some a ∧ q = some b ∧ Linked (.same counts) Eq a c b d) :
    (p = none ↔ q = none) ∧ (∀ x, p = some ⟨.ok (), x⟩ ↔ q = some ⟨.ok (), x⟩) ∧
      ∀ e x e' x', p = some ⟨.error e, x⟩ → q = some ⟨.error e', x'⟩ → counts → e.Akin e' ∧ x = x' := by
  obtain ⟨rfl, rfl⟩ | ⟨a, b, rfl, rfl, hab⟩ := h
  · exact ⟨Iff.rfl, fun _ => Iff.rfl, fun _ _ _ _ h => nomatch h⟩
  · cases hab with
    | ok h _ =>
      obtain ⟨-, rfl⟩ := h
      exact ⟨⟨nofun, nofun⟩, fun _ => Iff.rfl, fun _ _ _ _ h => nomatch h⟩
    | error h _ =>
      refine ⟨⟨nofun, nofun⟩, fun _ => ⟨nofun, nofun⟩, ?_⟩
      rintro e x e' x' ⟨⟩ ⟨⟩
      exact h

/-- **It does not matter which token carried the data.** From values that carry the same data, a type that
mentions neither values of no fixed type nor floats decodes to the same content, whatever its destination
held, or both times it fails. User code may catch failures, as long as these do not count for what it leaves. If
what it makes of its own failures does not tell them apart either, the errors are the same but for the tag that
was found, and the destination is left the same. -/
theorem decode_akin (ht : s.Exact F t) {v w : Value} (h : v.Akin w) {reg reg' : Registry}
    (hr : reg.Reachable s) (hr' : reg'.Reachable s) (n : Nat) (dest : Content) :
    let r := ((plain s).decode n t dest).run s (Cursor.ofValue v) reg
    let q := ((plain s).decode n t dest).run s (Cursor.ofValue w) reg'
    r.notes = q.notes ∧ (r.answer = none ↔ q.answer = none) ∧
      (∀ x, r.answer = some ⟨.ok (), x⟩ ↔ q.answer = some ⟨.ok (), x⟩) ∧
      ∀ e x e' x', r.answer = some ⟨.error e, x⟩ → q.answer = some ⟨.error e', x'⟩ → F t →
        e.Akin e' ∧ x = x' := by
  intro r q
  have htandem := decodeDirect_inStep n ht dest dest _ _ rfl (Cursor.akin_ofValue h)
  obtain ⟨hnotes, hanswer⟩ := htandem.run s (.empty false) (.empty false)
  have hv : r.Alike (((plain s).decodeDirect n t dest).run s (Cursor.ofValue v) (.empty false)) :=
    (plain s).decode_alike_direct hr.sound n t dest (Cursor.ofValue v)
  have hw : q.Alike (((plain s).decodeDirect n t dest).run s (Cursor.ofValue w) (.empty false)) :=
    (plain s).decode_alike_direct hr'.sound n t dest (Cursor.ofValue w)
  rw [← hv.answer, ← hw.answer] at hanswer
  exact ⟨(hv.notes.trans hnotes).trans hw.notes.symm, answers_of_joint hanswer⟩

/-- A query whose field names, texts and numbers came as other tokens, with a field that is not known; a list
of integers that came as other tokens, and of something else; and a list of integers that each catch
a failure and make another one of it. -/
theorem decode_akin_query :
    let s := Catalog.schema []
    let v := Value.map [(.string "range", .array [.int 1, .uint 2]), (.string "code", .string "ab"),
      (.string "other", .array [.int 3]), (.string "remote", .string "gone")]
    let w := Value.map [(.bytes "range".toUTF8, .array [.uint 1, .int 2]),
      (.bytes "code".toUTF8, .bytes "ab".toUTF8), (.bytes "other".toUTF8, .array [.uint 3]),
      (.string "remote", .bytes "gone".toUTF8)]
    let start := Content.record [.list [.int 5, .int 6], .text "z", .text ""]
    let r := ((plain s).decode 9 (.named "Query") start).run s (Cursor.ofValue v) (.empty true)
    let q := ((plain s).decode 9 (.named "Query") start).run s (Cursor.ofValue w) (.empty false)
    let items := Value.array [.int 1, .string "x"]
    let others := Value.array [.uint 1, .bytes "x".toUTF8]
    let m := ((plain s).decode 9 (.list .i64) (.list [])).run s (Cursor.ofValue items) (.empty true)
    let k := ((plain s).decode 9 (.list .i64) (.list [])).run s (Cursor.ofValue others) (.empty false)
    let own : Schema := ⟨[("Rewording", Catalog.rewording)]⟩
    let t : Ty := .list (.named "Rewording")
    let numbers := Value.array [.int 1, .uint 2]
    let same := Value.array [.uint 1, .int 2]
    let a := ((plain own).decode 9 t (.list [])).run own (Cursor.ofValue numbers) (.empty true)
    let b := ((plain own).decode 9 t (.list [])).run own (Cursor.ofValue same) (.empty false)
    (s.Exact s.Automatic (.named "Query") ∧ v.Akin w ∧ (Registry.empty true).Reachable s ∧
      (Registry.empty false).Reachable s ∧
      ∃ x, r.answer = some ⟨.ok (), x⟩ ∧ q.answer = some ⟨.ok (), x⟩) ∧
    (s.Exact s.Automatic (.list .i64) ∧ s.Automatic (.list .i64) ∧ items.Akin others ∧
      ∃ e x e' x', m.answer = some ⟨.error e, x⟩ ∧ k.answer = some ⟨.error e', x'⟩ ∧ e ≠ e' ∧ e.Akin e' ∧
        x = x') ∧
    own.Exact (fun _ => False) t ∧ numbers.Akin same ∧ (Registry.empty true).Reachable own ∧
      (Registry.empty false).Reachable own ∧
      ∃ x, a.answer = some ⟨.ok (), x⟩ ∧ b.answer = some ⟨.ok (), x⟩ := by
  intro s v w start r q items others m k own t numbers same a b
  have hquery : s.Exact s.Automatic (.named "Query") :=
    Catalog.schema_exact [] [.named "Query", .named "Range", .named "Code", .named "RemoteError", .i64]
      List.mem_cons_self (by decide +kernel) (by decide) (by decide) (by decide)
  have hvw : v.Akin w := by
    refine .mapOf (.cons ⟨.stringBytes _, .arrayOf ?_⟩ (.cons ⟨.stringBytes _, .stringBytes _⟩
      (.cons ⟨.stringBytes _, .arrayOf ?_⟩ (.cons ⟨.refl _, .stringBytes _⟩ .nil))))
    · exact .cons (.intUint rfl) (.cons (.uintInt rfl) .nil)
    · exact .cons (.intUint rfl) .nil
  have hr : (Registry.empty true).Reachable s := .empty true
  have hq : (Registry.empty false).Reachable s := .empty false
  obtain ⟨x, hx⟩ : ∃ x, r.answer = some ⟨.ok (), x⟩ := exists_ok (by decide +kernel)
  have hlist : s.Exact s.Automatic (.list .i64) :=
    Catalog.schema_exact [] [.list .i64, .i64] List.mem_cons_self (by decide) (by decide) (by decide) (by decide)
  have hmentions : ∀ u, s.Mentions (.list .i64) u → u ∈ [.list .i64, .i64] :=
    fun _ h => h.mem (by decide) List.mem_cons_self
  have hauto : s.Automatic (.list .i64) := fun name _ _ _ h => absurd (hmentions _ h) (by simp)
  have hitems : items.Akin others := .arrayOf (.cons (.intUint rfl) (.cons (.stringBytes _) .nil))
  have hm : m.answer = some ⟨.error (.typeConversion .string .int), .list []⟩ :=
    eq_some_of_same (by decide +kernel)
  have hk : k.answer = some ⟨.error (.typeConversion .bytes .int), .list []⟩ :=
    eq_some_of_same (by decide +kernel)
  have hfail := (decode_akin hlist hitems hr hq 9 (.list [])).2.2.2 _ _ _ _ hm hk hauto
  have hown : own.Exact (fun _ => False) t := Catalog.rewording_exact
  have hnumbers : numbers.Akin same := .arrayOf (.cons (.intUint rfl) (.cons (.uintInt rfl) .nil))
  have ha : (Registry.empty true).Reachable own := .empty true
  have hb : (Registry.empty false).Reachable own := .empty false
  obtain ⟨y, hy⟩ : ∃ x, a.answer = some ⟨.ok (), x⟩ := exists_ok (by decide +kernel)
  exact ⟨⟨hquery, hvw, hr, hq, x, hx, ((decode_akin hquery hvw hr hq 9 start).2.2.1 x).1 hx⟩,
    ⟨hlist, hauto, hitems, _, _, _, _, hm, hk, by decide, hfail⟩,
    hown, hnumbers, ha, hb, y, hy, ((decode_akin hown hnumbers ha hb 9 (.list [])).2.2.1 y).1 hy⟩

/-- What keeps the wording of a failure that it caught ends with another content if bytes were found in place of
the string that they are the text of. -/
theorem keeping_tells_tokens :
    let s : Schema := ⟨[("Keeping", Catalog.keeping)]⟩
    let t : Ty := .named "Keeping"
    (Value.string "a").Akin (.bytes "a".toUTF8) ∧ (Registry.empty true).Reachable s ∧
      (((plain s).decode 9 t (.text "")).run s (Cursor.ofValue (.string "a")) (.empty true)).answer =
        some ⟨.ok (), .text "Cannot convert a value of type string to int."⟩ ∧
      (((plain s).decode 9 t (.text "")).run s (Cursor.ofValue (.bytes "a".toUTF8)) (.empty true)).answer =
        some ⟨.ok (), .text "Cannot convert a value of type bytes to int."⟩ :=
  ⟨.stringBytes "a", .empty true, eq_some_of_same (by decide +kernel), eq_some_of_same (by decide +kernel)⟩

end Setup

end Decant
