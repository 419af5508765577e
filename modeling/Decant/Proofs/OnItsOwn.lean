import Decant.Proofs.ItemByItem
import Decant.Proofs.Outcome

/-!
# What a value on its own comes to

* `Setup.ComesIn`, `Setup.Comes` — what the strategy of a type comes to with a value on its own, within a
  budget of steps, and given enough steps.
* `Setup.direct_outcome` — wherever the value stands, decoding it comes to the same.
* `Setup.direct_behind` — after a success the cursor is behind the value.
* `Setup.Shows` — what decoding comes to, and what it notes, given enough steps.
* `Setup.shows_iff` — decoding comes to what the strategy of the type comes to, with end signals shut in.
-/

namespace Decant

open Filter

/-- A dialogue that asks the registry for nothing comes to what its run shows. -/
theorem Dialogue.outcome_iff_run {σ α : Type} [TokenSource σ] {s : Schema} {d : Dialogue α}
    (h : Like s False Eq d d) {src : σ} {a : α} {notes : List Note} (reg : Registry) :
    (∃ src', d.Outcome src a src' notes) ↔
      (d.run s src reg).answer = some a ∧ (d.run s src reg).notes = notes := by
  constructor
  · rintro ⟨src', ho⟩
    obtain ⟨ha, -, hn⟩ := ho.run s reg
    exact ⟨ha, hn⟩
  · rintro ⟨ha, rfl⟩
    exact ⟨_, h.outcome_of_run ha⟩

namespace Setup

open Decoding

variable {s : Schema} {n m : Nat} {t : Ty} {c d : Content} {v : Value} {e e' : Ending Content Tag}
  {notes notes' : List Note} {cur : Option Value} {stack : List Frame}

/-- What the strategy of a type comes to with a value on its own, within a budget of steps, and what it
notes. -/
def ComesIn (s : Schema) (n : Nat) (t : Ty) (c : Content) (v : Value) (e : Ending Content Tag)
    (notes : List Note) : Prop :=
  ∃ src, ((plain s).direct n t c).Outcome (Cursor.ofValue v) e src notes

/-- The same, given enough steps. -/
def Comes (s : Schema) (t : Ty) (c : Content) (v : Value) (e : Ending Content Tag)
    (notes : List Note) : Prop :=
  ∃ n, ComesIn s n t c v e notes

theorem ComesIn.mono (h : ComesIn s n t c v e notes) (hm : n ≤ m) : ComesIn s m t c v e notes := by
  obtain ⟨src, h⟩ := h
  exact ⟨src, ((plain s).direct_same ⟨hm, .inl trivial⟩ t c).outcome h⟩

theorem ComesIn.eventually (h : ComesIn s n t c v e notes) : ∀ᶠ m in atTop, ComesIn s m t c v e notes := by
  filter_upwards [eventually_ge_atTop n] with m hm
  exact h.mono hm

theorem Comes.eventually (h : Comes s t c v e notes) : ∀ᶠ m in atTop, ComesIn s m t c v e notes :=
  h.elim fun _ h => h.eventually

/-- There is one end at most. -/
theorem Comes.unique (h : Comes s t c v e notes) (h' : Comes s t c v e' notes') :
    e = e' ∧ notes = notes' := by
  obtain ⟨n, ⟨src, hn⟩, src', hn'⟩ := (h.eventually.and h'.eventually).exists
  obtain ⟨he, -, hnotes⟩ := hn.unique hn'
  exact ⟨he, hnotes⟩

/-- The strategy of a type without a registry asks the registry for nothing. -/
theorem direct_self (s : Schema) (n : Nat) (t : Ty) (c : Content) :
    Dialogue.Like s False Eq ((plain s).direct n t c) ((plain s).direct n t c) :=
  (plain s).direct_same ⟨Nat.le_refl n, .inr rfl⟩ t c

/-- **Wherever a value stands, decoding it comes to what it comes to on its own.** -/
theorem direct_outcome : (∃ src, ((plain s).direct n t c).Outcome (⟨some v, cur, stack⟩ : Cursor) e src
    notes) ↔ ComesIn s n t c v e notes := by
  let reg := Registry.empty false
  have hself := direct_self s n t c
  have hcalls := (plain s).direct_calls n t c
  obtain ⟨ha, -, hn⟩ := Dialogue.run_current (hcalls.mono fun _ _ h => h.typed) s v cur none stack reg
  have honto := Dialogue.run_onto (hcalls.mono fun _ _ h => h.above) s (Cursor.ofValue v)
    (Nat.zero_le _) stack reg
  change ((plain s).direct n t c).run s (⟨some v, none, stack⟩ : Cursor) reg = _ at honto
  rw [honto] at ha hn
  rw [ComesIn, Dialogue.outcome_iff_run hself reg, Dialogue.outcome_iff_run hself reg]
  rw [ha, hn]

/-- A strategy that keeps to the protocol leaves the cursor behind the value, if it succeeds. -/
theorem direct_behind (ht : ((plain s).direct n t).Obeys 0) {tag : Tag} {src : Cursor}
    (h : ((plain s).direct n t c).Outcome (⟨some v, cur, stack⟩ : Cursor) ⟨.ok tag, d⟩ src notes) :
    src = ⟨none, none, stack⟩ := by
  let reg := Registry.empty false
  obtain ⟨ha, hsrc, -⟩ := h.run s reg
  obtain ⟨ds, hl, hp, -⟩ := (ht c []).run s (⟨some v, cur, stack⟩ : Cursor) reg
  obtain rfl : ds = [] := hp _ ha
  obtain ⟨w, hw⟩ := hl.walk
  have htells := Dialogue.run_tells s ((plain s).direct n t c) (⟨some v, cur, stack⟩ : Cursor) reg
  rw [hw, hsrc] at htells
  exact htells.behind

/-- What is taken off a cursor for good is what a value on its own comes to. -/
theorem comesIn_of_takes (h : ((plain s).direct n t).Takes c d v) : ComesIn s n t c v ⟨.ok v.tag, d⟩ [] :=
  ⟨_, (h none []).outcome⟩

theorem comes_of_takes (h : Takes s t c d v) : Comes s t c v ⟨.ok v.tag, d⟩ [] :=
  h.exists.imp fun _ => comesIn_of_takes

/-- What is carried out with a budget is the plan of the type with one step less. -/
theorem comes_iff_eventually :
    Comes s t c v e notes ↔ ∀ᶠ n in atTop, ComesIn s (n + 1) t c v e notes := by
  constructor
  · intro h
    filter_upwards [h.eventually] with n hn
    exact hn.mono n.le_succ
  · intro h
    obtain ⟨n, hn⟩ := h.exists
    exact ⟨n + 1, hn⟩

/-! ## Decoding -/

/-- Decoding from a source comes to an end of such a kind and leaves such notes, given enough steps. -/
def Shows {σ : Type} [TokenSource σ] (s : Setup) (t : Ty) (dest : Content) (src : σ) (reg : Registry)
    (e : Ending Content Unit) (notes : List Note) : Prop :=
  ∃ r, s.Ends t dest src reg r ∧ r.answer = some e ∧ r.notes = notes

variable {reg : Registry} {dest : Content}

/-- Decoding comes to what the strategy of the type comes to. -/
theorem shows_iff (hr : reg.Sound s) {e : Ending Content Unit} :
    (plain s).Shows t dest (Cursor.ofValue v) reg e notes ↔
      ∃ x, Comes s t dest v x notes ∧ e = shut x := by
  have hrun : ∀ n, let q := ((plain s).direct n t dest).run s (Cursor.ofValue v) (.empty false)
      ((plain s).decodeDirect n t dest).run s (Cursor.ofValue v) (.empty false) =
        ⟨q.answer.map shut, q.source, q.registry, q.exchanges, q.notes⟩ := by
    intro n q
    rw [← Dialogue.run_map]
    exact congrArg (Dialogue.run s · _ _) ((plain s).decodeDirect_eq dest)
  constructor
  · rintro ⟨r, ⟨-, n, hn⟩, he, rfl⟩
    have ha : r.Alike (((plain s).decodeDirect n t dest).run s (Cursor.ofValue v) (.empty false)) :=
      (hn n (Nat.le_refl n)).symm.trans
        ((plain s).decode_alike_direct hr n t dest (Cursor.ofValue v))
    have hanswer := ha.answer
    have hnotes := ha.notes
    rw [hrun] at hanswer hnotes
    obtain ⟨x, hx, rfl⟩ := Option.map_eq_some_iff.1 (hanswer.symm.trans he)
    exact ⟨x, ⟨n, (Dialogue.outcome_iff_run (direct_self _ n t dest) _).2 ⟨hx, hnotes.symm⟩⟩, rfl⟩
  · rintro ⟨x, ⟨n, hx⟩, rfl⟩
    obtain ⟨ha, hnotes⟩ := (Dialogue.outcome_iff_run (direct_self _ n t dest) (.empty false)).1 hx
    have hanswer : (((plain s).decodeDirect n t dest).run s (Cursor.ofValue v) (.empty false)).answer =
        some (shut x) := by
      rw [hrun, ha]
      rfl
    refine ⟨_, ends_of_answer hr (Option.ne_none_iff_exists'.2 ⟨_, hanswer⟩), hanswer, ?_⟩
    change (((plain s).decodeDirect n t dest).run s (Cursor.ofValue v) (.empty false)).notes = notes
    rw [hrun]
    exact hnotes

/-- An answer within some budget of steps is what decoding comes to. -/
theorem shows_of_answer {σ : Type} [TokenSource σ] {s : Setup} {src : σ} (hr : reg.Sound s.schema)
    {e : Ending Content Unit} (h : ((s.decode n t dest).run s.schema src reg).answer = some e) :
    s.Shows t dest src reg e ((s.decode n t dest).run s.schema src reg).notes := by
  have ha := s.decode_alike_direct hr n t dest src
  have hanswer := ha.answer.symm.trans h
  exact ⟨_, ends_of_answer hr (Option.ne_none_iff_exists'.2 ⟨e, hanswer⟩), hanswer, ha.notes.symm⟩

end Setup

end Decant
