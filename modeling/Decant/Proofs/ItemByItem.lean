import Decant.Catalog.Unruly
import Decant.Proofs.Framing
import Decant.Proofs.RoundTrip
import Decant.Proofs.Sameness
import Decant.Proofs.Whole

/-!
# Decoding a list item by item

* `Setup.decode_leaves` — a decoding that succeeds leaves a cursor behind its value, in the containers
  that it was in.
* `gather` — what decoding values one after the other comes to, given what each comes to on its own.
* `Setup.comesTo_list` — decoding a list comes to what its items come to.
* `Setup.decode_anywhere` — decoding a value wherever it stands, and what follows for lists and for values
  of no fixed type. A type that gives up inside of a map leaves it open, also in a list
  (`Setup.swallowing_leaves_open`).
-/

namespace Decant

open Filter

/-! ## Where a cursor is left -/

/-- A walk along a value ends behind it. -/
theorem Tells.behind {v : Value} {cur : Option Value} {stack : List Frame} {w : Walk} {src : Cursor}
    (h : Tells (⟨some v, cur, stack⟩ : Cursor) w.exchanges src) : src = ⟨none, none, stack⟩ := by
  let s := Schema.empty
  have hs : s.DecodesOne := fun name initial uses routine hd => by cases hd
  have hr : (Registry.empty false).Sound s := Registry.sound_empty s false
  obtain ⟨q, hq, -, -, hsrc⟩ := Setup.ends_dynamic hs hr h (.dynamic .nil)
  obtain ⟨n, hn⟩ := (Setup.takes_dynamic (s := s) v (.dynamic .nil)).exists
  have hgives : Decoding.Gives ((Setup.plain s).decodeDirect n .dynamic)
      (⟨some v, cur, stack⟩ : Cursor) (.dynamic .nil) () (.dynamic v) ⟨none, none, stack⟩ :=
    ((hn cur stack).bind (.pure () _ _)).truncated
  obtain ⟨hanswer, hsource⟩ := hgives.run s (.empty false)
  have hends := Setup.ends_of_answer (s := Setup.plain s) (t := .dynamic) hr
    (Option.ne_none_iff_exists'.2 ⟨_, hanswer⟩)
  rw [← hsrc, ← hsource]
  exact (hq.alike hr hr hends).source

namespace Setup

open Decoding

variable {s : Schema} {reg : Registry} {n : Nat} {t : Ty} {dest d : Content} {v : Value}
  {cur : Option Value} {stack : List Frame}

theorem decode_leaves (hs : s.DecodesOne) (hr : reg.Sound s)
    (hd : (((plain s).decode n t dest).run s (⟨some v, cur, stack⟩ : Cursor) reg).answer =
      some ⟨.ok (), d⟩) :
    (((plain s).decode n t dest).run s (⟨some v, cur, stack⟩ : Cursor) reg).source =
      ⟨none, none, stack⟩ := by
  obtain ⟨w, hw⟩ := decode_walk hs hr hd
  have ht := Dialogue.run_tells s ((plain s).decode n t dest) (⟨some v, cur, stack⟩ : Cursor) reg
  rw [hw] at ht
  exact ht.behind

/-! ## One value on its own -/

/-- What decoding a value on its own comes to within a budget of steps. -/
def comesTo (s : Schema) (n : Nat) (t : Ty) (dest : Content) (v : Value) :
    Option (Ending Content Unit) :=
  (((plain s).decodeDirect n t dest).run s (Cursor.ofValue v) (.empty false)).answer

/-- Decoding from a source comes to an end of such a kind, given enough steps. -/
def Yields {σ : Type} [TokenSource σ] (s : Setup) (t : Ty) (dest : Content) (src : σ) (reg : Registry)
    (e : Ending Content Unit) : Prop := ∃ r, s.Ends t dest src reg r ∧ r.answer = some e

/-- More steps do not change what decoding comes to. -/
theorem comesTo_mono {m : Nat} {e : Ending Content Unit} (h : comesTo s n t dest v = some e)
    (hm : n ≤ m) : comesTo s m t dest v = some e := by
  have hs : Steps True n m := ⟨hm, .inl trivial⟩
  have hr : (Registry.empty false).Sound s := Registry.sound_empty s false
  have hsame := (plain s).decodeDirect_same hs t dest
  rcases hsame.run (Cursor.ofValue v) hr (.empty false) with ⟨-, hnone⟩ | ha
  · cases h.symm.trans hnone
  · exact ha.answer.symm.trans h

theorem yields_iff (hr : reg.Sound s) {e : Ending Content Unit} :
    (plain s).Yields t dest (Cursor.ofValue v) reg e ↔ ∀ᶠ n in atTop, comesTo s n t dest v = some e := by
  constructor
  · rintro ⟨r, ⟨-, n, hn⟩, he⟩
    filter_upwards [eventually_ge_atTop n] with m hm
    have ha := (plain s).decode_alike_direct hr m t dest (Cursor.ofValue v)
    exact ha.answer.symm.trans ((hn m hm).answer.trans he)
  · intro h
    obtain ⟨n, hn⟩ := h.exists
    exact ⟨_, ends_of_answer hr (Option.ne_none_iff_exists'.2 ⟨e, hn⟩), hn⟩

/-- Decoding without a registry does not depend on the one that it is led with. -/
theorem decodeDirect_alike {σ : Type} [TokenSource σ] (hr : reg.Sound s) (src : σ) :
    (((plain s).decodeDirect n t dest).run s src reg).Alike
      (((plain s).decodeDirect n t dest).run s src (.empty false)) := by
  have hsteps : Steps False n n := ⟨Nat.le_refl n, .inr rfl⟩
  exact ((plain s).decodeDirect_same hsteps t dest).alike src hr (.empty false)

/-- An item of a container comes to what it comes to on its own, and leaves the cursor behind it. -/
theorem direct_item (hs : s.DecodesOne) (hr : reg.Sound s) (n : Nat) (t : Ty) (dest : Content)
    (v : Value) (cur : Option Value) (stack : List Frame) :
    let q := ((plain s).direct n t dest).run s (⟨some v, cur, stack⟩ : Cursor) reg
    comesTo s n t dest v = q.answer.map shut ∧
      ∀ tag c, q.answer = some ⟨.ok tag, c⟩ → q.source = ⟨none, none, stack⟩ := by
  intro q
  let src : Cursor := ⟨some v, cur, stack⟩
  let r := ((plain s).decodeDirect n t dest).run s src reg
  have hrun : r = ⟨q.answer.map shut, q.source, q.registry, q.exchanges, q.notes⟩ := by
    rw [← Dialogue.run_map]
    exact congrArg (Dialogue.run s · src reg) ((plain s).decodeDirect_eq dest)
  have hanswer : r.answer = q.answer.map shut := congrArg Run.answer hrun
  refine ⟨?_, fun tag c hq => ?_⟩
  · obtain ⟨hframed, -, -⟩ := (plain s).decodeDirect_framed n t dest v cur stack reg
    exact (decodeDirect_alike hr _).answer.symm.trans (hframed.symm.trans hanswer)
  · have halike : r.Alike _ := decodeDirect_alike hr src
    have hdecode := (plain s).decode_alike_direct hr n t dest src
    have hok : (((plain s).decode n t dest).run s src reg).answer = some ⟨.ok (), c⟩ := by
      refine hdecode.answer.trans (halike.answer.symm.trans (hanswer.trans ?_))
      rw [hq]
      rfl
    have hsource : r.source = q.source := congrArg Run.source hrun
    exact hsource.symm.trans (halike.source.trans (hdecode.source.symm.trans (decode_leaves hs hr hok)))

end Setup

/-! ## Values one after the other -/

/-- What decoding values one after the other comes to, given what decoding each comes to on its own: all
contents, or the first error. -/
def gather (own : Value → Option (Ending Content Unit)) :
    List Value → Option (Except Error (List Content))
  | [] => some (.ok [])
  | v :: vs =>
    match own v with
    | none => none
    | some ⟨.error e, _⟩ => some (.error e)
    | some ⟨.ok _, c⟩ => (gather own vs).map fun r => r.map (c :: ·)

section gather

variable {own : Value → Option (Ending Content Unit)} {vs : List Value}

theorem gather_eq_ok {cs : List Content} : gather own vs = some (.ok cs) ↔
    List.Forall₂ (fun v c => own v = some ⟨.ok (), c⟩) vs cs := by
  induction vs generalizing cs with
  | nil => simp [gather, eq_comm]
  | cons v vs ih =>
    rw [List.forall₂_cons_left_iff, gather]
    constructor
    · intro h
      split at h
      · cases h
      · cases h
      · rename_i c hv
        obtain ⟨r, hr, hc⟩ := Option.map_eq_some_iff.1 h
        cases r with
        | error e => cases hc
        | ok cs' =>
          cases hc
          exact ⟨c, cs', hv, ih.1 hr, rfl⟩
    · rintro ⟨c, cs', hv, hcs, rfl⟩
      rw [hv]
      simp only [ih.2 hcs]
      rfl

theorem gather_eq_error {e : Error} : gather own vs = some (.error e) ↔
    ∃ pre v post cs x, vs = pre ++ v :: post ∧
      List.Forall₂ (fun v c => own v = some ⟨.ok (), c⟩) pre cs ∧ own v = some ⟨.error e, x⟩ := by
  induction vs with
  | nil => simp [gather]
  | cons v vs ih =>
    rw [gather]
    constructor
    · intro h
      split at h
      · cases h
      · rename_i e' x hv
        cases h
        exact ⟨[], v, vs, [], x, rfl, .nil, hv⟩
      · rename_i c hv
        obtain ⟨r, hr, hc⟩ := Option.map_eq_some_iff.1 h
        cases r with
        | ok cs => cases hc
        | error e' =>
          cases hc
          obtain ⟨pre, u, post, cs, x, rfl, hpre, hu⟩ := ih.1 hr
          exact ⟨v :: pre, u, post, c :: cs, x, rfl, .cons hv hpre, hu⟩
    · rintro ⟨pre, u, post, cs, x, hvs, hpre, hu⟩
      cases hpre with
      | nil =>
        cases hvs
        rw [hu]
      | cons hv hpre =>
        cases hvs
        rw [hv]
        simp only [ih.2 ⟨_, u, post, _, x, rfl, hpre, hu⟩]
        rfl

end gather

namespace Setup

open Decoding

variable {s : Schema} {reg : Registry} {n : Nat} {t : Ty} {dest : Content} {items : List Value}

/-- How decoding a list ends, given the items decoded so far and what the others come to. -/
def gathered (dest : Content) (acc : List Content) : Except Error (List Content) → Ending Content Unit
  | .ok cs => ⟨.ok (), .list (acc ++ cs)⟩
  | .error e => ⟨.error e, dest⟩

/-- An item, and the others after it. -/
theorem round_gathers (hs : s.DecodesOne) (hr : reg.Sound s) {v : Value} {vs : List Value}
    {acc : List Content} {g : Unit → Decoding (List Content) Nat} {stack : List Frame}
    (hg : ∀ (c : Content) (reg' : Registry), reg'.Sound s →
      ((g () (acc ++ [c])).run s (⟨none, none, stack⟩ : Cursor) reg').answer.map (Stream.listed dest) =
        (gather (comesTo s n t (s.initial t)) vs).map (gathered dest (acc ++ [c]))) :
    (((item s t ((plain s).direct n t) >>= g) acc).run s (⟨some v, none, stack⟩ : Cursor) reg).answer.map
        (Stream.listed dest) =
      (gather (comesTo s n t (s.initial t)) (v :: vs)).map (gathered dest acc) := by
  obtain ⟨hown, hleaves⟩ := direct_item hs hr n t (s.initial t) v none stack
  have hsound := ((plain s).direct n t (s.initial t)).run_sound (⟨some v, none, stack⟩ : Cursor) hr
  rw [Stream.item_bind, Dialogue.run_bind, gather, hown]
  generalize ((plain s).direct n t (s.initial t)).run s (⟨some v, none, stack⟩ : Cursor) reg = q at *
  obtain ⟨answer, src, qreg, xs, notes⟩ := q
  match answer with
  | none => rfl
  | some ⟨.error e, x⟩ => rfl
  | some ⟨.ok tag, c⟩ =>
    obtain rfl := hleaves tag c rfl
    refine (hg c qreg hsound).trans ?_
    show _ = Option.map _ (Option.map _ _)
    rw [Option.map_map]
    refine congrArg (Option.map · _) (funext fun r => ?_)
    cases r with
    | ok cs => simp [gathered, Except.map]
    | error e => rfl

/-- From any item on, a list comes to what its items come to. -/
theorem itemsFrom_gathers (hs : s.DecodesOne) (hr : reg.Sound s) (n : Nat) (t : Ty) (dest : Content)
    (acc : List Content) {k i : Nat} (hi : i ≤ items.length) (hk : items.length - i < k) :
    ((Stream.itemsFrom (plain s) t n (some items.length) k i acc).run s
        (⟨if i = 0 then items[0]? else none, none, [.array items]⟩ : Cursor) reg).answer.map
        (Stream.listed dest) =
      (gather (comesTo s n t (s.initial t)) (items.drop i)).map (gathered dest acc) := by
  induction k generalizing i acc reg with
  | zero => cases hk
  | succ k ih =>
    rcases Nat.eq_or_lt_of_le hi with rfl | hlt
    · have hfull : (some items.length).any (· ≤ items.length) = true := by simp
      have hleave : ∀ next, TokenSource.answer (.leave .array items.length)
          (⟨next, none, [.array items]⟩ : Cursor) = (.ok (), ⟨next, none, []⟩) :=
        fun next => Cursor.answer_leave (f := .array items) next items.length
      rw [Stream.itemsFrom, Stream.walkOut_full hfull, List.drop_length]
      simp only [Dialogue.run, hleave]
      simp [gather, gathered, Stream.listed, Except.map]
    · have hnot : ¬ (some items.length).any (· ≤ i) = true := by simpa using hlt
      have hround : ∀ reg : Registry, reg.Sound s →
          (((item s t ((plain s).direct n t) >>= fun _ =>
              Stream.itemsFrom (plain s) t n (some items.length) k (i + 1)) acc).run s
            (⟨some items[i], none, [.array items]⟩ : Cursor) reg).answer.map (Stream.listed dest) =
          (gather (comesTo s n t (s.initial t)) (items.drop i)).map (gathered dest acc) := by
        intro reg hr
        rw [List.drop_eq_getElem_cons hlt]
        exact round_gathers hs hr fun c reg' hr' => ih hr' _ hlt (by omega)
      by_cases hfirst : i = 0
      · subst hfirst
        rw [Stream.itemsFrom, Stream.walkOut_declared hnot (by simp), if_pos rfl,
          List.getElem?_eq_getElem hlt]
        exact hround reg hr
      · have hnext : TokenSource.answer (.next .array i) (⟨none, none, [.array items]⟩ : Cursor) =
            (.ok (), ⟨some items[i], none, [.array items]⟩) :=
          Cursor.answer_next (f := .array items) (List.getElem?_eq_getElem hlt) (Option.some_ne_none _)
        rw [Stream.itemsFrom, Stream.walkOut_next hnot (by simpa using hfirst), if_neg hfirst]
        simp only [Dialogue.run, hnext]
        exact hround reg hr

/-- **A list comes to what its items come to**, if there are steps for as many. -/
theorem comesTo_list (hs : s.DecodesOne) (ht : t ≠ .u8) (hn : items.length < n) :
    comesTo s (n + 1) (.list t) dest (.array items) =
      (gather (comesTo s n t (s.initial t)) items).map (gathered dest []) := by
  have hr : (Registry.empty false).Sound s := Registry.sound_empty s false
  have henter : TokenSource.answer (.enter .array) (⟨none, some (.array items), []⟩ : Cursor) =
      (.ok (some items.length), ⟨items[0]?, none, [.array items]⟩) :=
    Cursor.answer_enter (f := .array items) none rfl rfl
  have htype : TokenSource.answer .type (Cursor.ofValue (.array items)) =
      (.ok .array, ⟨none, some (.array items), []⟩) := rfl
  have hitems := itemsFrom_gathers hs hr n t dest [] (Nat.zero_le items.length) hn
  rw [if_pos rfl, List.drop_zero] at hitems
  unfold comesTo
  rw [Stream.decodeDirect_list _ ht]
  simp only [Dialogue.run, htype]
  rw [Dialogue.run_map, Stream.walk_array]
  simp only [Dialogue.run, henter]
  exact hitems

/-! ## Any value, anywhere -/

theorem forall₂_eventually {α β : Type} {P : Nat → α → β → Prop} {xs : List α} {ys : List β}
    (h : List.Forall₂ (fun x y => ∀ᶠ n in atTop, P n x y) xs ys) :
    ∀ᶠ n in atTop, List.Forall₂ (P n) xs ys := by
  induction h with
  | nil => exact .of_forall fun _ => .nil
  | cons h _ ih =>
    filter_upwards [h, ih] with n hn hrest
    exact .cons hn hrest

/-- Whatever holds of decoding once there are enough steps, holds of a list with one step more than of
its items. -/
theorem yields_list_iff (hs : s.DecodesOne) (hr : reg.Sound s) (ht : t ≠ .u8)
    {e : Ending Content Unit} :
    (plain s).Yields (.list t) dest (Cursor.ofValue (.array items)) reg e ↔
      ∀ᶠ n in atTop, (gather (comesTo s n t (s.initial t)) items).map (gathered dest []) = some e := by
  have hshift : (∀ᶠ n in atTop, comesTo s n (.list t) dest (.array items) = some e) ↔
      ∀ᶠ n in atTop, comesTo s (n + 1) (.list t) dest (.array items) = some e := by
    conv_lhs => rw [← map_add_atTop_eq_nat 1, eventually_map]
  rw [yields_iff hr, hshift]
  apply eventually_congr
  filter_upwards [eventually_gt_atTop items.length] with n hn
  rw [comesTo_list hs ht hn]

/-- What decoding comes to once, it comes to with any more steps. -/
theorem comesTo_eventually {v : Value} {e : Ending Content Unit} (h : comesTo s n t dest v = some e) :
    ∀ᶠ m in atTop, comesTo s m t dest v = some e := by
  filter_upwards [eventually_ge_atTop n] with m hm
  exact comesTo_mono h hm

theorem yields_list_ok (hs : s.DecodesOne) (hr : reg.Sound s) (ht : t ≠ .u8) {c : Content} :
    (plain s).Yields (.list t) dest (Cursor.ofValue (.array items)) reg ⟨.ok (), c⟩ ↔
      ∃ cs, c = .list cs ∧ List.Forall₂ (fun v c =>
        (plain s).Yields t (s.initial t) (Cursor.ofValue v) reg ⟨.ok (), c⟩) items cs := by
  rw [yields_list_iff hs hr ht]
  simp only [yields_iff hr]
  constructor
  · intro h
    obtain ⟨n, hn⟩ := h.exists
    obtain ⟨r, hgather, hr⟩ := Option.map_eq_some_iff.1 hn
    cases r with
    | error e => cases hr
    | ok cs =>
      cases hr
      exact ⟨cs, rfl, (gather_eq_ok.1 hgather).imp fun v c h => comesTo_eventually h⟩
  · rintro ⟨cs, rfl, h⟩
    filter_upwards [forall₂_eventually h] with n hn
    rw [gather_eq_ok.2 hn]
    rfl

theorem yields_list_error (hs : s.DecodesOne) (hr : reg.Sound s) (ht : t ≠ .u8) {e : Error}
    {d : Content} :
    (plain s).Yields (.list t) dest (Cursor.ofValue (.array items)) reg ⟨.error e, d⟩ ↔
      d = dest ∧ ∃ pre v post cs x, items = pre ++ v :: post ∧ List.Forall₂ (fun v c =>
          (plain s).Yields t (s.initial t) (Cursor.ofValue v) reg ⟨.ok (), c⟩) pre cs ∧
        (plain s).Yields t (s.initial t) (Cursor.ofValue v) reg ⟨.error e, x⟩ := by
  rw [yields_list_iff hs hr ht]
  simp only [yields_iff hr]
  constructor
  · intro h
    obtain ⟨n, hn⟩ := h.exists
    obtain ⟨r, hgather, hr⟩ := Option.map_eq_some_iff.1 hn
    cases r with
    | ok cs => cases hr
    | error e =>
      cases hr
      obtain ⟨pre, v, post, cs, x, hitems, hpre, hv⟩ := gather_eq_error.1 hgather
      exact ⟨rfl, pre, v, post, cs, x, hitems, hpre.imp fun v c h => comesTo_eventually h,
        comesTo_eventually hv⟩
  · rintro ⟨rfl, pre, v, post, cs, x, hitems, hpre, hv⟩
    filter_upwards [forall₂_eventually hpre, hv] with n hn hvn
    rw [gather_eq_error.2 ⟨pre, v, post, cs, x, hitems, hn, hvn⟩]
    rfl

theorem yields_dynamic (hr : reg.Sound s) (v : Value) (dest : Content) :
    (plain s).Yields .dynamic dest (Cursor.ofValue v) reg ⟨.ok (), .dynamic v⟩ := by
  rw [yields_iff hr]
  filter_upwards [takes_dynamic (s := s) v dest] with n hn
  have hgives : Gives ((plain s).decodeDirect n .dynamic) (Cursor.ofValue v) dest () (.dynamic v)
      ⟨none, none, []⟩ := ((hn none []).bind (.pure () _ _)).truncated
  exact (hgives.run s (.empty false)).1

/-- **Decoding a value wherever it stands.** Whatever containers a cursor is in and whatever is left in
its current slot, decoding the value in front of it gives the result or the error, the destination, the
calls and the notes that decoding the value on its own gives. After a success the cursor is in the same
containers, with nothing in front of it and nothing left over, if types that decode by hand decode one
value.

So a list of anything but bytes comes out of an array exactly if every item comes out on its own, and
holds what they come to, in order; otherwise the error is that of the first item that fails, and the
destination is as it was. And a value of no fixed type comes out as the value itself. -/
theorem decode_anywhere (hr : reg.Reachable s) :
    (∀ (w : Value) (cur : Option Value) (stack : List Frame) (n : Nat) (t : Ty) (dest : Content),
      let r := ((plain s).decode n t dest).run s (⟨some w, cur, stack⟩ : Cursor) reg
      let q := ((plain s).decode n t dest).run s (Cursor.ofValue w) reg
      r.answer = q.answer ∧ r.exchanges = q.exchanges ∧ r.notes = q.notes ∧
        (s.DecodesOne → ∀ d, r.answer = some ⟨.ok (), d⟩ → r.source = ⟨none, none, stack⟩)) ∧
    (s.DecodesOne → ∀ (t : Ty) (items : List Value) (dest : Content), t ≠ .u8 →
      let own := fun v e => (plain s).Yields t (s.initial t) (Cursor.ofValue v) reg e
      let whole := fun e => (plain s).Yields (.list t) dest (Cursor.ofValue (.array items)) reg e
      (∀ c, whole ⟨.ok (), c⟩ ↔
        ∃ cs, c = .list cs ∧ List.Forall₂ (fun v c => own v ⟨.ok (), c⟩) items cs) ∧
      ∀ e d, whole ⟨.error e, d⟩ ↔ d = dest ∧ ∃ pre v post cs x, items = pre ++ v :: post ∧
        List.Forall₂ (fun v c => own v ⟨.ok (), c⟩) pre cs ∧ own v ⟨.error e, x⟩) ∧
    ∀ (w : Value) (dest : Content),
      (plain s).Yields .dynamic dest (Cursor.ofValue w) reg ⟨.ok (), .dynamic w⟩ := by
  have hsound := hr.sound
  refine ⟨fun w cur stack n t dest => ?_, fun hs t items dest ht => ⟨fun c => ?_, fun e d => ?_⟩,
    fun w dest => yields_dynamic hsound w dest⟩
  · intro r q
    have hr' := (plain s).decode_alike_direct hsound n t dest (⟨some w, cur, stack⟩ : Cursor)
    have hq := (plain s).decode_alike_direct hsound n t dest (Cursor.ofValue w)
    obtain ⟨ha, hx, hn⟩ := (plain s).decodeDirect_framed n t dest w cur stack (.empty false)
    exact ⟨hr'.answer.trans (ha.trans hq.answer.symm), hr'.exchanges.trans (hx.trans hq.exchanges.symm),
      hr'.notes.trans (hn.trans hq.notes.symm), fun hs d hd => decode_leaves hs hsound hd⟩
  · exact yields_list_ok hs hsound ht
  · exact yields_list_error hs hsound ht

/-- Two ranges, one of them nil, are decoded as the value of an entry, while a number is left in the
current slot; and a list of numbers is refused for its second item. -/
theorem decode_anywhere_entry :
    let s := Catalog.schema []
    let w : Value := .array [.array [.int 1, .int 2], .nil]
    let stack : List Frame := [.map [(.string "a", w)], .array [.nil, .map [(.string "a", w)]]]
    let r := ((plain s).decode 9 (.list (.named "Range")) .unit).run s
      (⟨some w, some (.int 7), stack⟩ : Cursor) (.empty true)
    s.DecodesOne ∧ (Registry.empty true).Reachable s ∧
      (∃ d, r.answer = some ⟨.ok (), d⟩) ∧ r.source = ⟨none, none, stack⟩ ∧
      (plain s).Yields (.list .i64) .unit (Cursor.ofValue (.array [.int 1, .bool true, .nil])) (.empty true)
        ⟨.error (.typeConversion .bool .int), .unit⟩ := by
  intro s w stack r
  have hs : s.DecodesOne := Catalog.schema_decodesOne []
  have hr : (Registry.empty true).Reachable s := .empty true
  obtain ⟨d, hok⟩ : ∃ d, r.answer = some ⟨.ok (), d⟩ := exists_ok (by decide +kernel)
  obtain ⟨hframe, hlist, -⟩ := decode_anywhere hr
  obtain ⟨-, -, -, hsource⟩ := hframe w (some (.int 7)) stack 9 (.list (.named "Range")) .unit
  refine ⟨hs, hr, ⟨d, hok⟩, hsource hs d hok, ?_⟩
  obtain ⟨-, herror⟩ := hlist hs .i64 [.int 1, .bool true, .nil] .unit (by decide)
  have hone : (plain s).Yields .i64 (s.initial .i64) (Cursor.ofValue (.int 1)) (.empty true)
      ⟨.ok (), .int 1⟩ := (yields_iff hr.sound).2 (comesTo_eventually (n := 1) rfl)
  have htrue : (plain s).Yields .i64 (s.initial .i64) (Cursor.ofValue (.bool true)) (.empty true)
      ⟨.error (.typeConversion .bool .int), .int 0⟩ :=
    (yields_iff hr.sound).2 (comesTo_eventually (n := 1) rfl)
  exact (herror _ _).2 ⟨rfl, [.int 1], .bool true, [.nil], [.int 1], .int 0, rfl, .cons hone .nil, htrue⟩

/-- A type that takes a failure inside of a map for a success leaves the map open, with a key in front. So a
list of one such item cannot be left, though the item comes out on its own. -/
theorem swallowing_leaves_open :
    let s : Schema := ⟨[("Swallowing", Catalog.swallowing)]⟩
    let t : Ty := .named "Swallowing"
    let v : Value := .map [(.string "k", .string "v")]
    let r := ((plain s).decode 9 t .unit).run s (Cursor.ofValue v) (.empty true)
    (Registry.empty true).Reachable s ∧
      r.answer = some ⟨.ok (), .unit⟩ ∧ r.source = ⟨some (.string "k"), none, [.map [(.string "k", .string "v")]]⟩ ∧
      (plain s).Yields t (s.initial t) (Cursor.ofValue v) (.empty true) ⟨.ok (), .unit⟩ ∧
      (plain s).Yields (.list t) .unit (Cursor.ofValue (.array [v])) (.empty true)
        ⟨.error (.unsupportedTag .array), .unit⟩ := by
  intro s t v r
  have hr : (Registry.empty true).Reachable s := .empty true
  have hok : r.answer = some ⟨.ok (), .unit⟩ := by rfl
  have hsource : r.source = ⟨some (.string "k"), none, [.map [(.string "k", .string "v")]]⟩ := by rfl
  have hone : comesTo s 9 t .unit v = some ⟨.ok (), .unit⟩ := by rfl
  have hlist : comesTo s 9 (.list t) .unit (.array [v]) =
      some ⟨.error (.unsupportedTag .array), .unit⟩ := eq_some_of_same (by decide +kernel)
  exact ⟨hr, hok, hsource, (yields_iff hr.sound).2 (comesTo_eventually hone),
    (yields_iff hr.sound).2 (comesTo_eventually hlist)⟩

end Setup

end Decant
