import Decant.Proofs.MapKinds
import Decant.Proofs.Merging

/-!
# Entries in another order

* `InTurn.perm` — steps any two of which may be made in either order may be made in any order.
* `merge_swap` — two names that address different members may be merged in either order.
* `Enter` — what an entry does to a map: its key and its value are decoded afresh, and put into the map.
* `Setup.own_map` — decoding a map is entering its entries in turn.
* `Setup.decode_reordered` — records and maps do not depend on the order of entries, where names and keys
  do not repeat, if types that decode by hand decode one value. With one that gives up inside of a map they do
  (`Setup.swallowing_minds_order`).
-/

namespace Decant

/-! ## Steps in another order -/

/-- If one step succeeds after the other, the other succeeds after the one, with the same in the end. -/
def Swaps {ι δ : Type} (step : ι → δ → Ending δ Unit → List Note → Prop) (x y : ι) : Prop :=
  ∀ ⦃d c e ns ms⦄, step x d ⟨.ok (), c⟩ ns → step y c ⟨.ok (), e⟩ ms →
    ∃ c' ns' ms', step y d ⟨.ok (), c'⟩ ms' ∧ step x c' ⟨.ok (), e⟩ ns'

section

variable {ι δ : Type} {step : ι → δ → Ending δ Unit → List Note → Prop} {R : ι → ι → Prop}

/-- Steps of which any two that stand in a relation may be made in either order may be made in any order,
as long as all of them succeed. -/
theorem InTurn.perm (hsymm : ∀ {x y}, R x y → R y x) (hswap : ∀ {x y}, R x y → Swaps step x y)
    {xs ys : List ι} (hp : xs.Perm ys) (hx : xs.Pairwise R) {d e : δ}
    (h : ∃ notes, InTurn step xs d ⟨.ok (), e⟩ notes) : ∃ notes, InTurn step ys d ⟨.ok (), e⟩ notes := by
  induction hp generalizing d with
  | nil => exact h
  | cons x hp ih =>
    obtain ⟨_, h⟩ := h
    cases h with
    | cons hstep hrest =>
      obtain ⟨ms, hrest⟩ := ih hx.of_cons ⟨_, hrest⟩
      exact ⟨_, .cons hstep hrest⟩
  | swap x y xs =>
    obtain ⟨_, h⟩ := h
    cases h with
    | cons hy h =>
      cases h with
      | cons hx' hrest =>
        have hyx : R y x := (List.pairwise_cons.1 hx).1 x List.mem_cons_self
        obtain ⟨c, ns, ms, hx', hy⟩ := hswap hyx hy hx'
        exact ⟨_, .cons hx' (.cons hy hrest)⟩
  | trans hxy _ ih ih' => exact ih' (hx.perm hxy hsymm) (ih hx h)

/-- The same both ways. -/
theorem InTurn.perm_iff (hsymm : ∀ {x y}, R x y → R y x) (hswap : ∀ {x y}, R x y → Swaps step x y)
    {xs ys : List ι} (hp : xs.Perm ys) (hx : xs.Pairwise R) (d e : δ) :
    (∃ notes, InTurn step xs d ⟨.ok (), e⟩ notes) ↔ ∃ notes, InTurn step ys d ⟨.ok (), e⟩ notes :=
  ⟨InTurn.perm hsymm hswap hp hx, InTurn.perm hsymm hswap hp.symm (hx.perm hp hsymm)⟩

end

/-! ## Records -/

theorem Content.setMember_comm {i j : Nat} (h : i ≠ j) (x y c : Content) :
    setMember i x (setMember j y c) = setMember j y (setMember i x c) := by
  cases c with
  | record members => exact congrArg record (List.set_comm y x (Ne.symm h))
  | _ => rfl

/-- Every name addresses a member of its own. -/
def OneNameEach (slots : String → Option Slot) : Prop :=
  ∀ name name' i t t', slots name = some (.member i t) → slots name' = some (.member i t') → name = name'

/-- Members that are registered once are addressed by one name each. -/
theorem oneNameEach_registered (members : List Member) {registrations : List (String × Target)}
    (h : (registrations.map (·.2)).Nodup) : OneNameEach (Definition.registered members registrations) := by
  intro name name' i t t' hn hn'
  obtain ⟨r, hfind, hslot⟩ := Option.map_eq_some_iff.1 hn
  obtain ⟨r', hfind', hslot'⟩ := Option.map_eq_some_iff.1 hn'
  have hmem : r ∈ registrations := List.mem_reverse.1 (List.mem_of_find?_eq_some hfind)
  have hmem' : r' ∈ registrations := List.mem_reverse.1 (List.mem_of_find?_eq_some hfind')
  have htarget : r.2 = r'.2 := (Definition.slot_eq_member hslot).1.trans (Definition.slot_eq_member hslot').1.symm
  obtain rfl : r.1 = name := by simpa using List.find?_some hfind
  obtain rfl : r'.1 = name' := by simpa using List.find?_some hfind'
  exact congrArg Prod.fst (List.inj_on_of_nodup_map h hmem hmem' htarget)

/-- The keys of two entries stand for different names, if they stand for names. -/
def NamedApart (a b : Value × Value) : Prop :=
  ∀ name, a.1.asName = .ok name → b.1.asName ≠ .ok name

theorem NamedApart.symm {a b : Value × Value} (h : NamedApart a b) : NamedApart b a :=
  fun name hb ha => h name ha hb

/-- Entries that address different members may be merged in either order. -/
theorem merge_swap {ρ : Type} {own : Ty → Content → Value → Ending Content ρ → List Note → Prop}
    {slots : String → Option Slot} (hslots : OneNameEach slots) {a b : Value × Value}
    (hab : NamedApart a b) : Swaps (Merge own slots) a b := by
  intro c d e ns ms ha hb
  obtain ⟨k, v⟩ := a
  obtain ⟨k', v'⟩ := b
  obtain ⟨name, hk, ⟨hs, rfl, -⟩ | ⟨i, t, _, x, hs, hx, rfl⟩⟩ := merge_ok.1 ha
  · exact ⟨e, _, _, hb, .unknown hk hs⟩
  obtain ⟨name', hk', ⟨hs', rfl, -⟩ | ⟨j, t', _, y, hs', hy, rfl⟩⟩ := merge_ok.1 hb
  · exact ⟨c, _, _, .unknown hk' hs', ha⟩
  have hij : i ≠ j := by
    rintro rfl
    obtain rfl := hslots name name' i t t' hs hs'
    exact hab name hk hk'
  -- Either member holds what it held, whichever of the two is decoded first.
  rw [Content.member_setMember_of_ne hij] at hy
  rw [← Content.member_setMember_of_ne hij.symm y c] at hx
  rw [Content.setMember_comm hij.symm]
  exact ⟨Content.setMember j y c, _, _, .member hk' hs' hy, .member hk hs hx⟩

/-- Entries whose names do not repeat may be merged in any order. -/
theorem merge_perm_iff {ρ : Type} {own : Ty → Content → Value → Ending Content ρ → List Note → Prop}
    {slots : String → Option Slot} (hslots : OneNameEach slots) {xs ys : List (Value × Value)}
    (hp : xs.Perm ys) (hx : xs.Pairwise NamedApart) (c d : Content) :
    (∃ notes, InTurn (Merge own slots) xs c ⟨.ok (), d⟩ notes) ↔
      ∃ notes, InTurn (Merge own slots) ys c ⟨.ok (), d⟩ notes :=
  InTurn.perm_iff NamedApart.symm (merge_swap hslots) hp hx c d

/-! ## Maps -/

/-- What an entry does to a map, given what values come to on their own: its key and its value are decoded
from initial contents, and put into the map. -/
inductive Enter {ρ : Type} (own : Ty → Content → Value → Ending Content ρ → List Note → Prop)
    (initial : Ty → Content) (key value : Ty) :
    Value × Value → Content → Ending Content Unit → List Note → Prop
  | put {k v : Value} {c x y : Content} {a b : ρ} {ns ms : List Note}
      (hk : own key (initial key) k ⟨.ok a, x⟩ ns) (hv : own value (initial value) v ⟨.ok b, y⟩ ms) :
      Enter own initial key value (k, v) c ⟨.ok (), Content.putEntry x y c⟩ (ns ++ ms)
  | value {k v : Value} {c x y : Content} {a : ρ} {err : Error} {ns ms : List Note}
      (hk : own key (initial key) k ⟨.ok a, x⟩ ns) (hv : own value (initial value) v ⟨.error err, y⟩ ms) :
      Enter own initial key value (k, v) c ⟨.error err, c⟩ (ns ++ ms)
  | key {k v : Value} {c x : Content} {err : Error} {ns : List Note}
      (hk : own key (initial key) k ⟨.error err, x⟩ ns) :
      Enter own initial key value (k, v) c ⟨.error err, c⟩ ns

namespace Decoding

open Setup (ComesIn plain)

variable {s : Schema} {n i : Nat} {key value : Ty} {entries : List (Value × Value)} {stack : List Frame}

/-- Decoding one entry of a map is decoding its key, and if that succeeds, its value. -/
theorem entry_outcome {k v : Value} {c : Content} {e : Ending Content Unit} {src : Cursor} {notes : List Note}
    (hi : entries[i]? = some (k, v)) (hk : ((plain s).direct n key).Obeys 0) :
    ((do
        let (k, v) ← entry s key value ((plain s).direct n key) ((plain s).direct n value) i
        modify (Content.putEntry k v) : Decoding Content Unit) c).Outcome
        (⟨some k, none, .map entries :: stack⟩ : Cursor) e src notes ↔
      (∃ err x, ((plain s).direct n key (s.initial key)).Outcome
          (⟨some k, none, .map entries :: stack⟩ : Cursor) ⟨.error err, x⟩ src notes ∧ e = ⟨.error err, c⟩) ∨
        ∃ a x y src' ns ms, ((plain s).direct n key (s.initial key)).Outcome
            (⟨some k, none, .map entries :: stack⟩ : Cursor) ⟨.ok a, x⟩ src' ns ∧
          ((plain s).direct n value (s.initial value)).Outcome
            (⟨some v, none, .map entries :: stack⟩ : Cursor) y src ms ∧
          e = ⟨y.result.map fun _ => (), if y.result.isOk then Content.putEntry x y.dest c else c⟩ ∧
          notes = ns ++ ms := by
  have hvalue : (Frame.map entries).value? i = some v := by simp [Frame.value?, hi]
  -- After the key was decoded, what is left asks for the value only.
  let rest : Content → Decoding Content Unit := fun x => do
    let _ ← ask (.toValue i)
    let p ← fresh (s.initial value) ((plain s).direct n value)
    modify (Content.putEntry x p.2)
  have hrest : ∀ x ms, (rest x c).Outcome (⟨none, none, .map entries :: stack⟩ : Cursor) e src ms ↔
      ∃ y, ((plain s).direct n value (s.initial value)).Outcome
          (⟨some v, none, .map entries :: stack⟩ : Cursor) y src ms ∧
        e = ⟨y.result.map fun _ => (), if y.result.isOk then Content.putEntry x y.dest c else c⟩ := by
    intro x ms
    refine (ask_outcome (Cursor.answer_toValue none rfl hvalue)).trans ?_
    rw [← Dialogue.map_outcome]
    refine Iff.of_eq (congrArg (fun q : Dialogue (Ending Content Unit) => q.Outcome _ e src ms) ?_)
    refine (bind_apply _ _ _).trans ?_
    rw [fresh_apply, Dialogue.bind_bind]
    refine congrArg ((plain s).direct n value (s.initial value)).bind (funext fun y => ?_)
    obtain ⟨result, dest⟩ := y
    cases result <;> rfl
  have hbody : (do
        let (k, v) ← entry s key value ((plain s).direct n key) ((plain s).direct n value) i
        modify (Content.putEntry k v) : Decoding Content Unit) =
      fresh (s.initial key) ((plain s).direct n key) >>= fun p => rest p.2 := by
    simp only [entry, bind_assoc, pure_bind, rest]
  rw [hbody]
  constructor
  · intro h
    rcases outcome_of_bind h with ⟨p, c', src', ns, ms, hfresh, hr, rfl⟩ | ⟨err, c', hfresh, rfl⟩
    · obtain ⟨⟨result, x⟩, hx, he⟩ := fresh_outcome.1 hfresh
      cases result with
      | error err => cases he
      | ok a =>
        cases he
        obtain rfl := Setup.direct_behind hk hx
        obtain ⟨y, hy, rfl⟩ := (hrest x ms).1 hr
        exact .inr ⟨a, x, y, _, ns, ms, hx, hy, rfl, rfl⟩
    · obtain ⟨⟨result, x⟩, hx, he⟩ := fresh_outcome.1 hfresh
      cases result with
      | ok a => cases he
      | error err' =>
        cases he
        exact .inl ⟨_, x, hx, rfl⟩
  · rintro (⟨err, x, hx, rfl⟩ | ⟨a, x, y, src', ns, ms, hx, hy, he, rfl⟩)
    · exact (bind_outcome_error (fresh_outcome.2 ⟨_, hx, rfl⟩)).2 ⟨rfl, rfl, rfl⟩
    · obtain rfl := Setup.direct_behind hk hx
      exact (bind_outcome (fresh_outcome.2 ⟨_, hx, rfl⟩)).2 ⟨ms, (hrest x ms).2 ⟨y, hy, he⟩, rfl⟩

/-- Decoding one entry of a map is entering it. -/
theorem entry_handles (hk : ((plain s).direct n key).Obeys 0) (hv : ((plain s).direct n value).Obeys 0) :
    Handles (.map entries) stack (fun i => do
        let (k, v) ← entry s key value ((plain s).direct n key) ((plain s).direct n value) i
        modify (Content.putEntry k v))
      entries (Enter (ComesIn s n) s.initial key value) := by
  rintro i ⟨k, v⟩ hi c
  have hhead : (Frame.map entries).head? i = some k := by simp [Frame.head?, hi]
  rw [hhead]
  simp only [entry_outcome hi hk]
  refine ⟨fun e notes => ⟨fun h => ?_, ?_⟩, ?_⟩
  · cases h with
    | put hx hy | value hx hy =>
      obtain ⟨src', hx⟩ := Setup.direct_outcome.2 hx
      obtain ⟨src, hy⟩ := Setup.direct_outcome.2 hy
      exact ⟨src, .inr ⟨_, _, _, src', _, _, hx, hy, rfl, rfl⟩⟩
    | key hx =>
      obtain ⟨src, hx⟩ := Setup.direct_outcome.2 hx
      exact ⟨src, .inl ⟨_, _, hx, rfl⟩⟩
  · rintro ⟨src, ⟨err, x, hx, rfl⟩ | ⟨a, x, ⟨result, y⟩, src', ns, ms, hx, hy, rfl, rfl⟩⟩
    · exact .key (Setup.direct_outcome.1 ⟨src, hx⟩)
    · have hx' := Setup.direct_outcome.1 ⟨src', hx⟩
      have hy' := Setup.direct_outcome.1 ⟨src, hy⟩
      cases result with
      | ok b => exact .put hx' hy'
      | error err => exact .value hx' hy'
  · rintro d src notes (⟨err, x, -, he⟩ | ⟨a, x, ⟨result, y⟩, src', ns, ms, -, hy, he, -⟩)
    · cases he
    · cases result with
      | ok b => exact Setup.direct_behind hv hy
      | error err => cases congrArg Ending.result he

/-- Decoding a map is entering its entries in turn. After a failure it holds what it held. -/
theorem map_outcome {c : Content} {cur : Option Value} {e : Ending Content Tag} {notes : List Note}
    (hn : entries.length < n) (hk : ((plain s).direct n key).Obeys 0)
    (hv : ((plain s).direct n value).Obeys 0) :
    (∃ src, (map s (fun u => pure ((plain s).direct n u)) n key value c).Outcome
        (⟨some (.map entries), cur, stack⟩ : Cursor) e src notes) ↔
      ∃ x, InTurn (Enter (ComesIn s n) s.initial key value) entries (.map []) x notes ∧ e = merged c x := by
  refine container_outcome ?_ (entry_handles hk hv) rfl rfl rfl hn
  refine (bind_apply _ _ _).trans ?_
  rw [fresh_apply, Dialogue.bind_bind]
  refine congrArg (Dialogue.bind _) (funext fun x => ?_)
  obtain ⟨result, dest⟩ := x
  cases result <;> rfl

end Decoding

section Enter

variable {ρ : Type} {own : Ty → Content → Value → Ending Content ρ → List Note → Prop}
  {initial : Ty → Content} {key value : Ty}

theorem enter_ok {entry : Value × Value} {c d : Content} {notes : List Note} :
    Enter own initial key value entry c ⟨.ok (), d⟩ notes ↔ ∃ a x b y ns ms,
      own key (initial key) entry.1 ⟨.ok a, x⟩ ns ∧ own value (initial value) entry.2 ⟨.ok b, y⟩ ms ∧
        d = Content.putEntry x y c ∧ notes = ns ++ ms := by
  constructor
  · intro h
    generalize he : (⟨.ok (), d⟩ : Ending Content Unit) = e at h
    cases h with
    | put hx hy =>
      cases he
      exact ⟨_, _, _, _, _, _, hx, hy, rfl, rfl⟩
    | value _ _ | key _ => cases he
  · rintro ⟨a, x, b, y, ns, ms, hx, hy, rfl, rfl⟩
    exact .put hx hy

/-- The keys of two entries are decoded into different ones, if they are decoded with success. -/
def KeyedApart (own : Ty → Content → Value → Ending Content ρ → List Note → Prop) (initial : Content)
    (key : Ty) (a b : Value × Value) : Prop :=
  ∀ ra x ns rb y ms, own key initial a.1 ⟨.ok ra, x⟩ ns → own key initial b.1 ⟨.ok rb, y⟩ ms →
    x.compare y ≠ .eq

theorem KeyedApart.symm {start : Content} {a b : Value × Value} (h : KeyedApart own start key a b) :
    KeyedApart own start key b a :=
  fun _ _ _ _ _ _ hx hy => mt Std.OrientedCmp.eq_comm.1 (h _ _ _ _ _ _ hy hx)

/-- Entries with different keys may be entered in either order. -/
theorem enter_swap {a b : Value × Value} (hab : KeyedApart own (initial key) key a b) :
    Swaps (Enter own initial key value) a b := by
  intro c d e ns ms ha hb
  obtain ⟨_, x, _, y, _, _, hx, hy, rfl, -⟩ := enter_ok.1 ha
  obtain ⟨_, x', _, y', _, _, hx', hy', rfl, -⟩ := enter_ok.1 hb
  have hput : Content.putEntry x' y' (Content.putEntry x y c) =
      Content.putEntry x y (Content.putEntry x' y' c) :=
    congrArg Content.map (Content.put_comm (hab _ _ _ _ _ _ hx hx') c.entries).symm
  rw [hput]
  exact ⟨Content.putEntry x' y' c, _, _, .put hx' hy', .put hx hy⟩

/-- Entries whose keys do not repeat may be entered in any order. -/
theorem enter_perm_iff {xs ys : List (Value × Value)} (hp : xs.Perm ys)
    (hx : xs.Pairwise (KeyedApart own (initial key) key)) (c d : Content) :
    (∃ notes, InTurn (Enter own initial key value) xs c ⟨.ok (), d⟩ notes) ↔
      ∃ notes, InTurn (Enter own initial key value) ys c ⟨.ok (), d⟩ notes :=
  InTurn.perm_iff KeyedApart.symm enter_swap hp hx c d

end Enter

theorem Enter.eventually {ρ : Type} {own : Nat → Ty → Content → Value → Ending Content ρ → List Note → Prop}
    {initial : Ty → Content} {key value : Ty} {entry : Value × Value} {c : Content}
    {e : Ending Content Unit} {notes : List Note}
    (h : Enter (fun t c v e ns => ∀ᶠ n in Filter.atTop, own n t c v e ns) initial key value entry c e notes) :
    ∀ᶠ n in Filter.atTop, Enter (own n) initial key value entry c e notes := by
  cases h with
  | put hk hv =>
    filter_upwards [hk, hv] with n hk hv
    exact .put hk hv
  | value hk hv =>
    filter_upwards [hk, hv] with n hk hv
    exact .value hk hv
  | key hk => exact hk.mono fun _ => .key

theorem Enter.imp {ρ : Type} {own own' : Ty → Content → Value → Ending Content ρ → List Note → Prop}
    {initial : Ty → Content} {key value : Ty} {entry : Value × Value} {c : Content}
    {e : Ending Content Unit} {notes : List Note} (h : Enter own initial key value entry c e notes)
    (ho : ∀ t c v e notes, own t c v e notes → own' t c v e notes) :
    Enter own' initial key value entry c e notes := by
  cases h with
  | put hk hv => exact .put (ho _ _ _ _ _ hk) (ho _ _ _ _ _ hv)
  | value hk hv => exact .value (ho _ _ _ _ _ hk) (ho _ _ _ _ _ hv)
  | key hk => exact .key (ho _ _ _ _ _ hk)

namespace Setup

open Decoding Filter

variable {s : Schema} {reg : Registry} {key value : Ty} {entries : List (Value × Value)} {c d : Content}
  {notes : List Note}

/-- **Decoding a map is entering the entries in turn** into a map that was emptied. -/
theorem comes_map (hs : s.DecodesOne) {e : Ending Content Tag} :
    Comes s (.map .sorted key value) c (.map entries) e notes ↔
      ∃ x, InTurn (Enter (Comes s) s.initial key value) entries (.map []) x notes ∧ e = merged c x := by
  have hmap : ∀ᶠ n in atTop, (ComesIn s (n + 1) (.map .sorted key value) c (.map entries) e notes ↔
      ∃ x, InTurn (Enter (ComesIn s n) s.initial key value) entries (.map []) x notes ∧ e = merged c x) := by
    filter_upwards [eventually_gt_atTop entries.length] with n hn
    exact map_outcome hn (direct_obeys hs n key) (direct_obeys hs n value)
  exact comes_inTurn hmap (fun n _ _ _ _ h => h.imp fun _ _ _ _ _ h => ⟨n, h⟩)
    fun _ _ _ _ h => Enter.eventually (h.imp fun _ _ _ _ _ h => h.eventually)

/-- What a map is decoded into depends neither on its kind nor on what it held. -/
theorem own_map_imp (hr : reg.Sound s) (kind kind' : MapKind) (c c' : Content) {v : Value}
    (h : Own s reg (.map kind key value) c v ⟨.ok (), d⟩ notes) :
    Own s reg (.map kind' key value) c' v ⟨.ok (), d⟩ notes := by
  obtain ⟨r, ⟨-, n, hn⟩, ha, hnotes⟩ := h
  have hrun := hn n (Nat.le_refl n)
  obtain ⟨⟨-, -, hgn⟩, -, hok, -⟩ :=
    decode_map_entries (s := plain s) hr n kind key value c (Cursor.ofValue v)
  obtain ⟨⟨-, -, hgn'⟩, hres, hok', -⟩ :=
    decode_map_entries (s := plain s) hr n kind' key value c' (Cursor.ofValue v)
  obtain ⟨made, hg, rfl⟩ := hok d (hrun.answer.trans ha)
  rw [hg] at hres
  obtain ⟨⟨result, d'⟩, hd', hresult⟩ := Option.map_eq_some_iff.1 hres
  obtain rfl : result = .ok () := hresult
  obtain ⟨made', hg', rfl⟩ := hok' d' hd'
  obtain rfl : made' = made := congrArg Ending.dest (Option.some.inj (hg'.symm.trans hg))
  have hshows := shows_of_answer (s := plain s) hr hd'
  rwa [hgn', ← hgn, hrun.notes, hnotes] at hshows

/-- **Decoding a map with success is entering its entries in turn**, whatever its kind and whatever it
held. -/
theorem own_map (hs : s.DecodesOne) (hr : reg.Sound s) (kind : MapKind) :
    Own s reg (.map kind key value) c (.map entries) ⟨.ok (), d⟩ notes ↔
      InTurn (Enter (Comes s) s.initial key value) entries (.map []) ⟨.ok (), d⟩ notes := by
  have hsorted : Own s reg (.map kind key value) c (.map entries) ⟨.ok (), d⟩ notes ↔
      Own s reg (.map .sorted key value) c (.map entries) ⟨.ok (), d⟩ notes :=
    ⟨own_map_imp hr kind .sorted c c, own_map_imp hr .sorted kind c c⟩
  rw [hsorted, own_ok hr]
  simp only [comes_map hs, ok_eq_merged]
  constructor
  · rintro ⟨_, x, hx, -, rfl⟩
    exact hx
  · intro hx
    exact ⟨.map, _, hx, rfl, rfl⟩

/-- **The order of entries does not matter where names and keys do not repeat.**

If no two keys stand for one name, and every name addresses a member of its own, a record is decoded with
success from the entries in one order exactly if it is from those in the other, and it holds the same
afterwards, which after a failure is its initial content. If no two keys are decoded into equal ones, the
same goes for maps of either kind, whatever they held. -/
theorem decode_reordered (hs : s.DecodesOne) (hr : reg.Reachable s) {entries entries' : List (Value × Value)}
    (hp : entries.Perm entries') :
    (∀ name members registrations own, s.find? name = some (.record members registrations own) →
      OneNameEach (Definition.registered members registrations) → entries.Pairwise NamedApart → ∀ c,
        let whole := Own s reg (.named name) c (.map entries)
        let whole' := Own s reg (.named name) c (.map entries')
        (∀ d, (∃ notes, whole ⟨.ok (), d⟩ notes) ↔ ∃ notes, whole' ⟨.ok (), d⟩ notes) ∧
          ∀ e e' ns ms, whole e ns → whole' e' ms → e.result.isOk = e'.result.isOk ∧ e.dest = e'.dest) ∧
    ∀ kind key value, entries.Pairwise (KeyedApart (Own s reg) (s.initial key) key) → ∀ c c' d,
      (∃ notes, Own s reg (.map kind key value) c (.map entries) ⟨.ok (), d⟩ notes) ↔
        ∃ notes, Own s reg (.map kind key value) c' (.map entries') ⟨.ok (), d⟩ notes := by
  constructor
  · intro name members registrations own hd hslots hnames c whole whole'
    have hiff : ∀ d, (∃ notes, whole ⟨.ok (), d⟩ notes) ↔ ∃ notes, whole' ⟨.ok (), d⟩ notes := by
      intro d
      simp only [whole, whole', own_record_ok hs hr.sound hd]
      exact merge_perm_iff hslots hp hnames c d
    refine ⟨hiff, ?_⟩
    rintro ⟨result, d⟩ ⟨result', d'⟩ ns ms he he'
    cases result with
    | ok u =>
      obtain ⟨_, h⟩ := (hiff d).1 ⟨ns, he⟩
      obtain ⟨heq, -⟩ := h.unique hr.sound he'
      exact heq ▸ ⟨rfl, rfl⟩
    | error err =>
      cases result' with
      | ok u =>
        obtain ⟨_, h⟩ := (hiff d').2 ⟨ms, he'⟩
        obtain ⟨heq, -⟩ := h.unique hr.sound he
        cases heq
      | error err' =>
        obtain ⟨rfl, -⟩ := (own_record_error hs hr.sound hd).1 he
        obtain ⟨rfl, -⟩ := (own_record_error hs hr.sound hd).1 he'
        exact ⟨rfl, rfl⟩
  · intro kind key value hkeys c c' d
    have hapart : entries.Pairwise (KeyedApart (Comes s) (s.initial key) key) := by
      refine hkeys.imp fun h ra x ns rb y ms hx hy => ?_
      exact h _ _ _ _ _ _ ((own_ok hr.sound).2 ⟨_, hx⟩) ((own_ok hr.sound).2 ⟨_, hy⟩)
    simp only [own_map hs hr.sound]
    exact enter_perm_iff hp hapart _ d

/-- Two members that are known, one of them optional, and a name that is not, from front to back and from
back to front; and the same entries as a map. -/
theorem decode_reordered_reversed :
    let members : List Member := [⟨"a", .i64⟩, ⟨"b", .option .text⟩]
    let registrations : List (String × Target) := [("x", .member 0), ("y", .member 1)]
    let s : Schema := ⟨[("Pair", .record members registrations)]⟩
    let reg := Registry.empty true
    let entries : List (Value × Value) :=
      [(.string "x", .int 3), (.bytes "other".toUTF8, .array [.nil]), (.string "y", .nil)]
    let start := Content.record [.int 7, .present (.text "p")]
    (s.DecodesOne ∧ reg.Reachable s ∧ entries.Perm entries.reverse ∧
        OneNameEach (Definition.registered members registrations) ∧ entries.Pairwise NamedApart ∧
        entries.Pairwise (KeyedApart (Own s reg) (s.initial .text) .text)) ∧
      (∃ notes, Own s reg (.named "Pair") start (.map entries.reverse)
        ⟨.ok (), .record [.int 3, .absent]⟩ notes) ∧
      ∃ made notes, Own s reg (.map .hashed .text .dynamic) .unit (.map entries.reverse) ⟨.ok (), made⟩ notes := by
  intro members registrations s reg entries start
  have hd : s.find? "Pair" = some (.record members registrations) := rfl
  have hs : s.DecodesOne := by
    intro name initial uses routine h
    cases Schema.find?_single h
  have hr : reg.Reachable s := .empty true
  have hp : entries.Perm entries.reverse := (List.reverse_perm entries).symm
  have hslots : OneNameEach (Definition.registered members registrations) :=
    oneNameEach_registered members (by decide)
  have hnames : entries.Pairwise NamedApart := by
    have hread : entries.map (·.1.asName) = [.ok "x", .ok "other", .ok "y"] := rfl
    have hapart : (entries.map (·.1.asName)).Pairwise fun a b => ∀ name, a = .ok name → b ≠ .ok name := by
      rw [hread]
      simp
    rw [List.pairwise_map] at hapart
    exact hapart
  have hkeys : entries.Pairwise (KeyedApart (Own s reg) (s.initial .text) .text) := by
    have hread : ∀ (k : Value) (name : String), (((plain s).decode 3 .text (s.initial .text)).run s
        (Cursor.ofValue k) reg).answer = some ⟨.ok (), .text name⟩ → ∀ u x ns,
          Own s reg .text (s.initial .text) k ⟨.ok u, x⟩ ns → x = .text name := by
      intro k name ha u x ns hx
      exact congrArg Ending.dest (hx.unique hr.sound (shows_of_answer hr.sound ha)).1
    have hx := hread (.string "x") "x" rfl
    have hother := hread (.bytes "other".toUTF8) "other" rfl
    have hy := hread (.string "y") "y" rfl
    refine .cons ?_ (.cons ?_ (List.pairwise_singleton _ _))
    · simp only [List.mem_cons, List.not_mem_nil, or_false, forall_eq_or_imp, forall_eq]
      constructor
      · intro _ _ _ _ _ _ h h'
        rw [hx _ _ _ h, hother _ _ _ h']
        decide +kernel
      · intro _ _ _ _ _ _ h h'
        rw [hx _ _ _ h, hy _ _ _ h']
        decide +kernel
    · simp only [List.mem_cons, List.not_mem_nil, or_false, forall_eq]
      intro _ _ _ _ _ _ h h'
      rw [hother _ _ _ h, hy _ _ _ h']
      decide +kernel
  obtain ⟨hrecord, hmap⟩ := decode_reordered hs hr hp
  obtain ⟨hiff, -⟩ := hrecord "Pair" members registrations none hd hslots hnames start
  have hwhole : ∃ notes, Own s reg (.named "Pair") start (.map entries)
      ⟨.ok (), .record [.int 3, .absent]⟩ notes := by
    have hanswer : (((plain s).decode 9 (.named "Pair") start).run s (Cursor.ofValue (.map entries))
        reg).answer = some ⟨.ok (), .record [.int 3, .absent]⟩ :=
      eq_some_of_same (by decide +kernel)
    exact ⟨_, shows_of_answer hr.sound hanswer⟩
  obtain ⟨made, hmade⟩ : ∃ made, ∃ notes, Own s reg (.map .hashed .text .dynamic) .unit (.map entries)
      ⟨.ok (), made⟩ notes := by
    obtain ⟨made, ha⟩ := exists_ok (a := (((plain s).decode 9 (.map .hashed .text .dynamic) .unit).run s
      (Cursor.ofValue (.map entries)) reg).answer) (by decide +kernel)
    exact ⟨made, _, shows_of_answer hr.sound ha⟩
  exact ⟨⟨hs, hr, hp, hslots, hnames, hkeys⟩, (hiff _).1 hwhole, made,
    (hmap .hashed .text .dynamic hkeys .unit .unit made).1 hmade⟩

/-- An entry that comes after one whose value takes a failure inside of a map for a success is lost, and one
that comes before it is not. -/
theorem swallowing_minds_order :
    let members : List Member := [⟨"a", .named "Swallowing"⟩, ⟨"b", .i64⟩]
    let registrations : List (String × Target) := [("a", .member 0), ("b", .member 1)]
    let s : Schema := ⟨[("Swallowing", Catalog.swallowing), ("Pair", .record members registrations)]⟩
    let reg := Registry.empty true
    let start := Content.record [.unit, .int 0]
    let a : Value × Value := (.string "a", .map [(.string "k", .string "v")])
    let b : Value × Value := (.string "b", .int 5)
    reg.Reachable s ∧ OneNameEach (Definition.registered members registrations) ∧ [a, b].Perm [b, a] ∧
      [a, b].Pairwise NamedApart ∧
      (∃ notes, Own s reg (.named "Pair") start (.map [a, b]) ⟨.ok (), .record [.unit, .int 0]⟩ notes) ∧
      ∃ notes, Own s reg (.named "Pair") start (.map [b, a]) ⟨.ok (), .record [.unit, .int 5]⟩ notes := by
  intro members registrations s reg start a b
  have hr : reg.Reachable s := .empty true
  have hab : (((plain s).decode 9 (.named "Pair") start).run s (Cursor.ofValue (.map [a, b])) reg).answer =
      some ⟨.ok (), .record [.unit, .int 0]⟩ := eq_some_of_same (by decide +kernel)
  have hba : (((plain s).decode 9 (.named "Pair") start).run s (Cursor.ofValue (.map [b, a])) reg).answer =
      some ⟨.ok (), .record [.unit, .int 5]⟩ := eq_some_of_same (by decide +kernel)
  have hnames : NamedApart a b := by
    intro name ha hb
    have hne : ("a" : String) ≠ "b" := by decide
    exact hne ((Except.ok.inj ha).trans (Except.ok.inj hb).symm)
  exact ⟨hr, oneNameEach_registered members (by decide), .swap _ _ _, List.pairwise_pair.2 hnames,
    ⟨_, shows_of_answer hr.sound hab⟩, ⟨_, shows_of_answer hr.sound hba⟩⟩

end Setup

end Decant
