import Decant.Catalog.EntryRoutines
import Decant.Proofs.Direct
import Decant.Proofs.KeyLaws
import Decant.Proofs.Remains
import Decant.Proofs.Sameness

/-!
# Maps of either kind

* `Content.Holds` — a map that holds what entries put into it: under each key, what came last under it.
* `Setup.entriesOf` — a decoder that does nothing with the entries of a map but keep those that were
  completed, in the order they came.
* `Decoding.OfEntries` — a decoding of a map that goes as that one does, from wherever it is started, and
  leaves something made of the entries.
* `Setup.decode_maps_agree` — both kinds of maps go as the decoder of the entries goes, and hold the entries
  afterwards; a map that is filled in place does so even if it failed.
-/

namespace Decant

/-- A map that holds what entries put into it: it is in the order of its keys, no two of which are equal,
and what it has under a key is what the last entry under that key has. -/
def Content.Holds (c : Content) (made : List (Content × Content)) : Prop :=
  ∃ entries, c = .map entries ∧ Ascending entries ∧ ∀ key, under? key entries = under? key made.reverse

theorem Content.holds_putAll (made : List (Content × Content)) : Holds (.map (putAll made)) made :=
  ⟨_, rfl, ascending_putAll made, fun key => under?_putAll key made⟩

namespace Decoding

variable {δ : Type} {R E : δ → δ → Prop}

/-! ## The entries of a map -/

/-- Decode the entries of a map and keep those that were completed, in the order they come. -/
def gather (s : Schema) (f : Ty → Strategy) (rounds : Nat) (key value : Ty) (tag : Tag) :
    Decoding (List (Content × Content)) Nat :=
  walk .map rounds tag fun i => do
    let e ← entry s key value (f key) (f value) i
    modify (· ++ [e])

/-- Decode a map for its entries only. -/
def entries (s : Schema) (f : Ty → Strategy) (rounds : Nat) (key value : Ty) :
    Decoding (List (Content × Content)) Tag := do
  let tag : Tag ← ask .type
  let _ ← gather s f rounds key value tag
  return tag

/-- A map that entries are put into follows the list that they are added to. -/
theorem gather_follows (s : Schema) (f : Ty → Strategy) (rounds : Nat) (key value : Ty) (tag : Tag) :
    Follows (fun c made => c = .map (Content.putAll made)) (fun c made => c = .map (Content.putAll made))
      (walk .map rounds tag fun i => do
        let (k, v) ← entry s key value (f key) (f value) i
        modify (Content.putEntry k v))
      (gather s f rounds key value tag) := by
  have himp : ∀ (c : Content) made, c = .map (Content.putAll made) → c = .map (Content.putAll made) :=
    fun _ _ h => h
  refine .walk himp .map rounds tag fun i => .bind ?_ fun e => ?_
  · refine .bind (.fresh himp _ _) fun k => .bind (.ask himp _) fun _ => ?_
    exact .bind (.fresh himp _ _) fun v => .pure _
  · refine .modify ?_
    rintro _ made rfl
    rw [Content.putAll_append]
    rfl

/-- A decoding of a map that goes as gathering its entries does, and leaves something made of them. It
leaves its destination alone if the tag cannot be had. -/
def OfEntries (m : Dialogue (Ending δ Tag)) (g : Tag → Dialogue (Ending (List (Content × Content)) Nat))
    (start : δ) (finish : Ending (List (Content × Content)) Nat → δ) : Prop :=
  m = .ask .type fun
    | .error err => .done ⟨.error err, start⟩
    | .ok tag => (g tag).bind fun e => .done ⟨e.result.map fun _ => tag, finish e⟩

section

variable (s : Schema) (f : Ty → Strategy) (rounds : Nat) (key value : Ty)

theorem entries_ofEntries : OfEntries (entries s f rounds key value []) (gather s f rounds key value · [])
    [] (·.dest) := by
  refine congrArg (Dialogue.ask .type) (funext fun a => ?_)
  cases a with
  | error err => rfl
  | ok tag =>
    refine congrArg (gather s f rounds key value tag []).bind (funext fun e => ?_)
    obtain ⟨result, made⟩ := e
    cases result <;> rfl

/-- A map that is built apart changes its destination only if it succeeds. -/
theorem map_ofEntries (start : Content) :
    OfEntries (map s (fun u => pure (f u)) rounds key value start) (gather s f rounds key value · []) start
      (fun e => if e.result.isOk then .map (Content.putAll e.dest) else start) := by
  refine congrArg (Dialogue.ask .type) (funext fun a => ?_)
  cases a with
  | error err => rfl
  | ok tag =>
    refine (bind_apply _ _ _).trans ?_
    rw [fresh_apply, Dialogue.bind_bind]
    refine gather_follows s f rounds key value tag _ [] rfl _ _ ?_ ?_
    · rintro _ c made rfl
      rfl
    · rintro _ c made rfl
      rfl

/-- A map that is filled in place holds the entries that were completed, even if it fails. -/
theorem textMap_ofEntries (start : Content) :
    OfEntries (textMap s (fun u => pure (f u)) rounds value start) (gather s f rounds .text value · [])
      start (fun e => .map (Content.putAll e.dest)) := by
  rw [textMap_eq]
  refine congrArg (Dialogue.ask .type) (funext fun a => ?_)
  cases a with
  | error err => rfl
  | ok tag =>
    refine gather_follows s f rounds .text value tag _ [] rfl _ _ ?_ ?_
    · rintro _ c made rfl
      rfl
    · rintro _ c made rfl
      rfl

end

variable {g : Tag → Dialogue (Ending (List (Content × Content)) Nat)} {γ : Type}
  {m : Dialogue (Ending δ Tag)} {m' : Dialogue (Ending γ Tag)} {start : δ} {start' : γ}
  {finish : Ending (List (Content × Content)) Nat → δ} {finish' : Ending (List (Content × Content)) Nat → γ}

/-- How decoding the entries ends, with what is made of them. -/
def settled (finish : Ending (List (Content × Content)) Nat → δ)
    (e : Ending (List (Content × Content)) Nat) : Ending δ Unit :=
  ⟨(e.result.map fun _ => ()).mapError Error.truncate, finish e⟩

theorem OfEntries.run_eq {σ : Type} [TokenSource σ] (h : OfEntries m g start finish) (s : Schema)
    (src : σ) (reg : Registry) :
    (m.bind fun e => .done (Setup.shut e)).run s src reg =
      match TokenSource.answer .type src with
      | (.error err, src) => ⟨some ⟨.error err.truncate, start⟩, src, reg, [⟨.type, .error err⟩], []⟩
      | (.ok tag, src) =>
        let p := (g tag).run s src reg
        ⟨p.answer.map (settled finish), p.source, p.registry, ⟨.type, .ok tag⟩ :: p.exchanges, p.notes⟩ := by
  obtain ⟨a, src', ha⟩ : ∃ a src', TokenSource.answer .type src = (a, src') := ⟨_, _, rfl⟩
  rw [OfEntries] at h
  subst h
  simp only [Dialogue.bind, Dialogue.run, ha]
  cases a with
  | error err => rfl
  | ok tag =>
    have hend : (fun e : Ending (List (Content × Content)) Nat =>
        (Dialogue.done ⟨e.result.map fun _ => tag, finish e⟩ : Dialogue (Ending δ Tag)).bind
          fun e => .done (Setup.shut e)) = fun e => .done (settled finish e) := by
      funext e
      obtain ⟨result, made⟩ := e
      cases result <;> rfl
    simp only [Dialogue.bind_bind, hend, Dialogue.run_map]

/-- Led with the same source, two decodings of the same entries show the same, up to what they make of the
entries. They get as far as the entries if the tag can be had. -/
theorem OfEntries.run {σ : Type} [TokenSource σ] (h : OfEntries m g start finish)
    (h' : OfEntries m' g start' finish') (s : Schema) (src : σ) (reg : Registry) :
    let r := (m.bind fun e => .done (Setup.shut e)).run s src reg
    let q := (m'.bind fun e => .done (Setup.shut e)).run s src reg
    (r.source = q.source ∧ r.exchanges = q.exchanges ∧ r.notes = q.notes) ∧
      ((¬ Tagged q.exchanges ∧
          ∃ err, r.answer = some ⟨.error err, start⟩ ∧ q.answer = some ⟨.error err, start'⟩) ∨
        (Tagged q.exchanges ∧
          ∃ e, r.answer = Option.map (settled finish) e ∧ q.answer = Option.map (settled finish') e)) := by
  intro r q
  have hr := h.run_eq s src reg
  have hq := h'.run_eq s src reg
  obtain ⟨a, src', ha⟩ : ∃ a src', TokenSource.answer .type src = (a, src') := ⟨_, _, rfl⟩
  rw [ha] at hr hq
  cases a with
  | error err =>
    refine ⟨by simp [r, q, hr, hq], .inl ⟨?_, err.truncate, congrArg Run.answer hr, congrArg Run.answer hq⟩⟩
    simp only [q, hq]
    rintro ⟨tag, htag⟩
    cases List.mem_singleton.1 htag
  | ok tag =>
    refine ⟨by simp [r, q, hr, hq], .inr ⟨?_, _, congrArg Run.answer hr, congrArg Run.answer hq⟩⟩
    simp only [q, hq]
    exact ⟨tag, List.mem_cons_self⟩

end Decoding

namespace Setup

open Decoding

variable (s : Setup) (n : Nat) (key value : Ty)

/-- Decode a map for its entries only: nothing is done with those that were completed but to keep them, in
the order they come. -/
def entriesOf (s : Setup) : Nat → Ty → Ty → Decoding (List (Content × Content)) Tag
  | 0, _, _ => Decoding.exhausted
  | n + 1, key, value => entries s.schema (s.direct n) n key value

/-- The same, with end signals shut in. -/
def decodeEntries : Decoding (List (Content × Content)) Unit :=
  truncated do
    let _ ← s.entriesOf n key value

/-- Both kinds of maps are made of their entries. What is filled in place holds them even after a failure. -/
theorem direct_ofEntries (kind : MapKind) (start : Content) :
    ∃ finish, OfEntries (s.direct (n + 1) (.map kind key value) start)
        (gather s.schema (s.direct n) n key value · []) start finish ∧
      (∀ k made, finish ⟨.ok k, made⟩ = .map (Content.putAll made)) ∧
      (kind = .hashed → key = .text → value = .dynamic ∨ value = .text →
        ∀ e, finish e = .map (Content.putAll e.dest)) := by
  by_cases h : kind = .hashed ∧ key = .text ∧ (value = .dynamic ∨ value = .text)
  · obtain ⟨rfl, rfl, hv⟩ := h
    refine ⟨fun e => .map (Content.putAll e.dest), ?_, fun _ _ => rfl, fun _ _ _ _ => rfl⟩
    simp only [direct, Schema.plan, Ty.fillsInPlace_iff, hv, and_self, if_true]
    exact textMap_ofEntries s.schema (s.direct n) n value start
  · refine ⟨fun e => if e.result.isOk then .map (Content.putAll e.dest) else start, ?_, fun _ _ => rfl,
      fun hk hkey hv => absurd ⟨hk, hkey, hv⟩ h⟩
    have hplan : s.schema.plan (.map kind key value) = .map key value := by
      cases kind with
      | sorted => rfl
      | hashed =>
        have hplain : ¬ (key = .text ∧ value.fillsInPlace = true) :=
          fun hv => h ⟨rfl, hv.1, Ty.fillsInPlace_iff.1 hv.2⟩
        simp only [Schema.plan, if_neg hplain]
    simp only [direct, hplan]
    exact map_ofEntries s.schema (s.direct n) n key value start

variable {σ : Type} [TokenSource σ] {s} {reg reg' : Registry}

/-- Decoding a map of some kind goes as decoding its entries. -/
theorem decode_map_entries (hr : reg.Sound s.schema) (n : Nat) (kind : MapKind) (key value : Ty)
    (start : Content) (src : σ) :
    let r := (s.decode n (.map kind key value) start).run s.schema src reg
    let g := (s.decodeEntries n key value []).run s.schema src (.empty false)
    (r.source = g.source ∧ r.exchanges = g.exchanges ∧ r.notes = g.notes) ∧
      r.answer.map (·.result) = g.answer.map (·.result) ∧
      (∀ c, r.answer = some ⟨.ok (), c⟩ →
        ∃ made, g.answer = some ⟨.ok (), made⟩ ∧ c = .map (Content.putAll made)) ∧
      (kind = .hashed → key = .text → value = .dynamic ∨ value = .text →
        ∀ err c, r.answer = some ⟨.error err, c⟩ →
          (Tagged r.exchanges → ∃ made, g.answer = some ⟨.error err, made⟩ ∧
            c = .map (Content.putAll made)) ∧
          (¬ Tagged r.exchanges → c = start)) := by
  intro r g
  obtain ⟨hanswer, hsource, hexchanges, hnotes⟩ :=
    s.decode_alike_direct hr n (.map kind key value) start src
  cases n with
  | zero =>
    have ha : r.answer = none := hanswer
    have hg : g.answer = none := rfl
    simp only [ha, hg]
    exact ⟨⟨hsource, hexchanges, hnotes⟩, rfl, nofun, fun _ _ _ => nofun⟩
  | succ n =>
    obtain ⟨finish, hmap, hok, hinPlace⟩ := s.direct_ofEntries n key value kind start
    have hrun := hmap.run (entries_ofEntries s.schema (s.direct n) n key value) s.schema src (.empty false)
    rw [← decodeDirect_eq, ← truncated_eq] at hrun
    obtain ⟨⟨hs, hx, hn⟩, hcases⟩ := hrun
    rw [← hx, ← hexchanges, ← hanswer] at hcases
    refine ⟨⟨hsource.trans hs, hexchanges.trans hx, hnotes.trans hn⟩, ?_⟩
    rcases hcases with ⟨htag, err, ha, hg⟩ | ⟨htag, e, ha, hg⟩
    · have ha : r.answer = some ⟨.error err, start⟩ := ha
      have hg : g.answer = some ⟨.error err, []⟩ := hg
      rw [ha, hg]
      refine ⟨rfl, nofun, fun _ _ _ _ _ hc => ⟨fun h => absurd h htag, fun _ => ?_⟩⟩
      cases hc
      rfl
    · have ha : r.answer = e.map (settled finish) := ha
      have hg : g.answer = e.map (settled (·.dest)) := hg
      rw [ha, hg]
      match e with
      | none => exact ⟨rfl, nofun, fun _ _ _ _ _ => nofun⟩
      | some ⟨.ok k, made⟩ =>
        refine ⟨rfl, fun c hc => ⟨made, rfl, ?_⟩, fun _ _ _ _ _ => nofun⟩
        rw [← hok k made]
        exact (congrArg Ending.dest (Option.some.inj hc)).symm
      | some ⟨.error err, made⟩ =>
        refine ⟨rfl, fun _ => nofun, fun hk hkey hv err' c hc => ⟨fun _ => ⟨made, ?_⟩, fun h => absurd htag h⟩⟩
        obtain ⟨rfl, rfl⟩ : err.truncate = err' ∧ finish ⟨.error err, made⟩ = c := by
          cases hc
          exact ⟨rfl, rfl⟩
        exact ⟨rfl, hinPlace hk hkey hv _⟩

/-- **Both kinds of maps agree**, whatever they held and whatever takes over map entries inside them: they
make the same calls and fail in the same way, and if they succeed they hold the entries, of which the last
one under each key counts. A map that is filled in place, if it fails after the tag was observed, holds the
entries that were completed, and else is as it was. -/
theorem decode_maps_agree (hr : reg.Reachable s.schema) (hr' : reg'.Reachable s.schema) (n : Nat)
    (key value : Ty) (a b : Content) (src : σ) :
    let r := (s.decode n (.map .hashed key value) a).run s.schema src reg
    let q := (s.decode n (.map .sorted key value) b).run s.schema src reg'
    let g := (s.decodeEntries n key value []).run s.schema src (.empty false)
    (r.exchanges = q.exchanges ∧ r.source = q.source ∧ r.notes = q.notes ∧
        r.answer.map (·.result) = q.answer.map (·.result)) ∧
      (r.exchanges = g.exchanges ∧ r.answer.map (·.result) = g.answer.map (·.result)) ∧
      (∀ c, r.answer = some ⟨.ok (), c⟩ → q.answer = some ⟨.ok (), c⟩ ∧
        ∃ made, g.answer = some ⟨.ok (), made⟩ ∧ c.Holds made) ∧
      (key = .text → value = .dynamic ∨ value = .text → ∀ err c, r.answer = some ⟨.error err, c⟩ →
        (Tagged r.exchanges → ∃ made, g.answer = some ⟨.error err, made⟩ ∧ c.Holds made) ∧
        (¬ Tagged r.exchanges → c = a)) := by
  intro r q g
  obtain ⟨⟨hrs, hrx, hrn⟩, hrr, hrok, hrerr⟩ := decode_map_entries hr.sound n .hashed key value a src
  obtain ⟨⟨hqs, hqx, hqn⟩, hqr, hqok, -⟩ := decode_map_entries hr'.sound n .sorted key value b src
  refine ⟨⟨hrx.trans hqx.symm, hrs.trans hqs.symm, hrn.trans hqn.symm, hrr.trans hqr.symm⟩, ⟨hrx, hrr⟩,
    fun c hc => ?_, fun hkey hv err c hc => ?_⟩
  · obtain ⟨made, hg, rfl⟩ := hrok c hc
    obtain ⟨d, hd⟩ : ∃ d, q.answer = some ⟨.ok (), d⟩ := by
      have hres : q.answer.map (·.result) = some (.ok ()) := by
        rw [hqr, hg]
        rfl
      obtain ⟨⟨result, d⟩, he, hres⟩ := Option.map_eq_some_iff.1 hres
      exact ⟨d, by rw [he, ← hres]⟩
    obtain ⟨made', hg', rfl⟩ := hqok d hd
    have hmade : made' = made := congrArg Ending.dest (Option.some.inj (hg'.symm.trans hg))
    exact ⟨hmade ▸ hd, made, hg, Content.holds_putAll made⟩
  · obtain ⟨htagged, huntagged⟩ := hrerr rfl hkey hv err c hc
    refine ⟨fun h => ?_, huntagged⟩
    obtain ⟨made, hg, rfl⟩ := htagged h
    exact ⟨made, hg, Content.holds_putAll made⟩

/-- A stream of entries, one key twice, into a map that is filled in place and held something, with a
routine that turns the entries of the map inside it round; once to its end, and once until it breaks off in
front of a value. -/
theorem decode_maps_agree_streamed :
    let s : Setup := ⟨⟨[]⟩, some EntryRoutine.swap⟩
    let a : Content := .map [(.text "old", .dynamic (.bool true))]
    let front : List Token := [.enter .map none, .next, .string "a".toUTF8, .value, .string "one".toUTF8,
      .next, .string "b".toUTF8, .value, .enter .map (some 1), .string "x".toUTF8, .value, .nil, .close,
      .next, .bytes "a".toUTF8, .value, .string "two".toUTF8]
    let whole : Script := ⟨front ++ [.stop, .close]⟩
    let broken : Script := ⟨front ++ [.next, .nil, .value, .fail "lost"]⟩
    let r := fun src : Script => (s.decode 9 (.map .hashed .text .dynamic) a).run s.schema src (.empty true)
    let q := fun src : Script =>
      (s.decode 9 (.map .sorted .text .dynamic) .unit).run s.schema src (.empty false)
    let g := fun src : Script => (s.decodeEntries 9 .text .dynamic []).run s.schema src (.empty false)
    let held : Content := .map [(.text "a", .dynamic (.string "two")),
      (.text "b", .dynamic (.map [(.nil, .string "x")]))]
    ((Registry.empty true).Reachable s.schema ∧ (Registry.empty false).Reachable s.schema) ∧
      ((r whole).answer = some ⟨.ok (), held⟩ ∧ (q whole).answer = some ⟨.ok (), held⟩ ∧
        ∃ made, (g whole).answer = some ⟨.ok (), made⟩ ∧ held.Holds made) ∧
      (r broken).exchanges = (q broken).exchanges ∧ Tagged (r broken).exchanges ∧
        (r broken).answer = some ⟨.error (.parser "lost"), held⟩ ∧
        ∃ made, (g broken).answer = some ⟨.error (.parser "lost"), made⟩ ∧ held.Holds made := by
  intro s a front whole broken r q g held
  have hr : (Registry.empty true).Reachable s.schema := .empty true
  have hr' : (Registry.empty false).Reachable s.schema := .empty false
  have hwhole : (r whole).answer = some ⟨.ok (), held⟩ :=
    eq_some_of_same (by decide +kernel)
  have hbroken : (r broken).answer = some ⟨.error (.parser "lost"), held⟩ :=
    eq_some_of_same (by decide +kernel)
  obtain ⟨-, -, hok, -⟩ := decode_maps_agree hr hr' 9 .text .dynamic a .unit whole
  obtain ⟨⟨hx, -, -, -⟩, -, -, herr⟩ := decode_maps_agree hr hr' 9 .text .dynamic a .unit broken
  have htagged : Tagged (r broken).exchanges := ⟨.map, List.mem_cons_self⟩
  exact ⟨⟨hr, hr'⟩, ⟨hwhole, hok held hwhole⟩, hx, htagged, hbroken, (herr rfl (.inl rfl) _ _ hbroken).1 htagged⟩

end Setup

end Decant
