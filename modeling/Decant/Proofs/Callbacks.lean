import Decant.Catalog.EntryRoutines
import Decant.Proofs.Remains
import Decant.Proofs.SameReport

/-!
# Going through containers by hand

* `Routine.gatherItems`, `Routine.gatherEntries` — a routine that appends a fresh item for each element of
  an array, and one that puts a fresh key and a fresh value for each entry of a map.
* `Decoding.read_follows`, `Decoding.takeEntry_follows` — one element by hand follows one element of the
  container decoder that reports its own end signals.
* `Setup.carry_gathers` — so the routines do what the decoders of lists and of ordered maps do.

A decoder of its own for each key and each value turns end signals into truncated streams on the spot. The
container decoders leave that to the decoder around them, and report the same in the end.
-/

namespace Decant

/-! ## Gathering -/

/-- The state of a routine that gathers what is in a container: what was made so far, the contents held
while an entry is made, and the tag that was observed. -/
structure Gathered where
  made : Content
  held : List Content
  tag : Option Tag

namespace Gathered

/-- Nothing was gathered yet. -/
def of (empty : Content) : Gathered := ⟨empty, [], none⟩

def append (x : Content) (g : Gathered) : Gathered :=
  { g with made := .list (g.made.items ++ [x]) }

def hold (c : Content) (g : Gathered) : Gathered := { g with held := g.held ++ [c] }

def release (g : Gathered) : Gathered := { g with held := [] }

/-- Put what is held as a key and what it stands for. -/
def put (g : Gathered) : Gathered :=
  match g.held with
  | [k, v] => { g with made := Content.putEntry k v g.made }
  | _ => g

def noted (tag : Tag) (g : Gathered) : Gathered := { g with tag := some tag }

end Gathered

namespace Routine

/-- Read a fresh key and a fresh value, and use them once both are held. -/
def takeEntry {γ : Type} (s : Schema) (key value : Ty) (release : γ → γ) (hold : Content → γ → γ)
    (use : γ → γ) : Routine γ .entry :=
  .block [.update release, .key (.read key (s.initial key) hold),
    .value (.read value (s.initial value) hold), .update use]

/-- Append a fresh item for each element of an array. -/
def gatherItems (s : Schema) (item : Ty) : Routine Gathered .decoder :=
  .array (fun _ => .read item (s.initial item) .append) fun tag _ => .noted tag

/-- A routine that goes through an array or a map, whatever it does for each element. -/
inductive GoesThrough {δ : Type} (finish : Tag → Nat → δ → δ) : Routine δ .decoder → Prop
  | array (body : Nat → Routine δ .decoder) : GoesThrough finish (.array body finish)
  | map (body : Nat → Routine δ .entry) : GoesThrough finish (.map body finish)

/-- Put a fresh key and a fresh value for each entry of a map. -/
def gatherEntries (s : Schema) (key value : Ty) : Routine Gathered .decoder :=
  .map (fun _ => takeEntry s key value .release .hold .put) fun tag _ => .noted tag

end Routine

/-! ## One element -/

namespace Decoding

open Routine (into takeEntry)

variable {δ γ : Type} {call : Ty → Strategy} {n : Nat}

/-- A decoder that owes no move, with a state that is related to a destination. -/
def Held (R : δ → γ → Prop) (x : δ) (h : Hand γ) : Prop := R x h.state ∧ h.pending = none

/-- A decoder that owes no move, whatever its state. -/
def Free (_ : δ) (h : Hand γ) : Prop := h.pending = none

theorem Held.free {R : δ → γ → Prop} (x : δ) (h : Hand γ) (hx : Held R x h) : Free x h := hx.2

/-- How reading a content by hand ends: it reports, and hands the content over after success. -/
def handedOver (store : Content → γ → γ) (g : γ) (c : Ending Content Tag) : Ending (Hand γ) Unit :=
  match c.result with
  | .ok _ => ⟨.ok (), store c.dest g, none⟩
  | .error e => ⟨.error e.truncate, g, none⟩

section read

variable (t : Ty) (initial : Content) (store : Content → γ → γ) (i : Nat) (g : γ)

theorem read_apply : perform call n i (.read t initial store) ⟨g, none⟩ =
    (call t initial).bind fun c => .done (handedOver store g c) := by
  unfold Routine.read
  rw [perform, decodeInto_apply]
  refine congrArg (call t initial).bind (funext fun e => ?_)
  obtain ⟨result, c⟩ := e
  cases result <;> rfl

/-- A decoder that owes a move makes it first. -/
theorem read_apply_moving (j : Nat) : perform call n i (.read t initial store) ⟨g, some j⟩ =
    .ask (.toValue j) fun
      | .ok _ => (call t initial).bind fun c => .done (handedOver store g c)
      | .error e => .done ⟨.error e.truncate, g, none⟩ := by
  unfold Routine.read
  rw [perform, decodeInto_apply]
  refine congrArg (Dialogue.ask (.toValue j)) (funext fun a => ?_)
  cases a with
  | error e => rfl
  | ok u =>
    refine congrArg (call t initial).bind (funext fun e => ?_)
    obtain ⟨result, c⟩ := e
    cases result <;> rfl

end read

/-- What an entry that is taken by hand asks, and where it leaves its state. -/
theorem takeEntry_apply (s : Schema) (key value : Ty) (release : γ → γ) (hold : Content → γ → γ)
    (use : γ → γ) (i : Nat) (g : γ) :
    perform call n i (takeEntry s key value release hold use) ⟨g, none⟩ =
      (call key (s.initial key)).bind fun c =>
        match c.result with
        | .error e => .done ⟨.error e.truncate, release g, none⟩
        | .ok _ => .ask (.toValue i) fun
          | .error e => .done ⟨.error e.truncate, hold c.dest (release g), none⟩
          | .ok _ => (call value (s.initial value)).bind fun d =>
            match d.result with
            | .error e => .done ⟨.error e.truncate, hold c.dest (release g), none⟩
            | .ok _ => .done ⟨.ok (), use (hold d.dest (hold c.dest (release g))), none⟩ := by
  show (onChild none (perform call n i (.read key (s.initial key) hold)) >>= fun _ =>
    onChild (some i) (perform call n i (.read value (s.initial value) hold)) >>= fun _ =>
      change use >>= fun _ => pure ()) ⟨release g, none⟩ = _
  rw [bind_apply, onChild, focus_apply, read_apply, Dialogue.bind_bind, Dialogue.bind_bind]
  refine congrArg (call key (s.initial key)).bind (funext fun e => ?_)
  obtain ⟨result, c⟩ := e
  cases result with
  | error e => rfl
  | ok tag =>
    show (onChild (some i) (perform call n i (.read value (s.initial value) hold)) >>= fun _ =>
      change use >>= fun _ => pure ()) ⟨hold c (release g), none⟩ = _
    rw [bind_apply, onChild, focus_apply, read_apply_moving]
    refine congrArg (Dialogue.ask (.toValue i)) (funext fun a => ?_)
    cases a with
    | error e => rfl
    | ok u =>
      show (((call value (s.initial value)).bind _).bind _).bind _ = _
      rw [Dialogue.bind_bind, Dialogue.bind_bind]
      refine congrArg (call value (s.initial value)).bind (funext fun e => ?_)
      obtain ⟨result, d⟩ := e
      cases result <;> rfl

section

variable {R : δ → γ → Prop}

theorem read_follows {t : Ty} {initial : Content} {use : Content → δ → δ} {store : Content → γ → γ}
    (hstep : ∀ x g c, R x g → R (use c x) (store c g)) (i : Nat) :
    Follows (Held R) Free
      (truncated (fresh initial (call t) >>= fun x => modify (use x.2)))
      (perform call n i (.read t initial store)) := by
  rintro x ⟨g, _⟩ ⟨hr, rfl⟩ β k k' hok herror
  rw [read_apply]
  simp only [truncated, bind_apply, fresh_apply, Dialogue.bind_bind]
  refine congrArg (call t initial).bind (funext fun e => ?_)
  obtain ⟨result, c⟩ := e
  cases result with
  | error e => exact herror _ _ _ rfl
  | ok tag => exact hok () _ _ ⟨hstep x g c hr, rfl⟩

theorem item_follows (s : Schema) (t : Ty) (i : Nat) :
    Follows (Held fun items (g : Gathered) => g.made = .list items) Free
      (truncated (item s t (call t))) (perform call n i (.read t (s.initial t) .append)) := by
  have hstep : ∀ (items : List Content) (g : Gathered) (c : Content), g.made = .list items →
      (Gathered.append c g).made = .list (items ++ [c]) := by
    intro items g c hg
    show Content.list (g.made.items ++ [c]) = _
    rw [hg]
    rfl
  exact read_follows hstep i

/-- Taking an entry by hand follows decoding it. -/
theorem takeEntry_follows (s : Schema) {key value : Ty} {use : Content → Content → δ → δ}
    {release : γ → γ} {hold : Content → γ → γ} {put : γ → γ}
    (hstep : ∀ x g k v, R x g → R (use k v x) (put (hold v (hold k (release g))))) (i : Nat) :
    Follows (Held R) Free
      (truncated (entry s key value (call key) (call value) i >>= fun e => modify (use e.1 e.2)))
      (perform call n i (takeEntry s key value release hold put)) := by
  rintro x ⟨g, _⟩ ⟨hr, rfl⟩ β k k' hok herror
  rw [takeEntry_apply]
  simp only [truncated, entry, bind_apply, fresh_apply, Dialogue.bind_bind]
  refine congrArg (call key (s.initial key)).bind (funext fun e => ?_)
  obtain ⟨result, kc⟩ := e
  cases result with
  | error e => exact herror _ _ _ rfl
  | ok tag =>
    refine congrArg (Dialogue.ask (.toValue i)) (funext fun a => ?_)
    cases a with
    | error e => exact herror _ _ _ rfl
    | ok u =>
      show ((call value (s.initial value)).bind _).bind _ = ((call value (s.initial value)).bind _).bind _
      rw [Dialogue.bind_bind, Dialogue.bind_bind]
      refine congrArg (call value (s.initial value)).bind (funext fun e => ?_)
      obtain ⟨result, vc⟩ := e
      cases result with
      | error e => exact herror _ _ _ rfl
      | ok tag => exact hok () _ _ ⟨hstep x g kc vc hr, rfl⟩

end

/-! ## A container -/

/-- What a request comes to: a content or an error, and the move that the decoder still owes. -/
def outcome (made : γ → Content) (e : Ending (Hand γ) Unit) : Except Error Content × Option Nat :=
  (e.result.map fun _ => made e.dest.state, e.dest.pending)

/-- Decode a container apart, and put what was made of it in place of the destination. -/
def apart (c : Container) (n : Nat) (wrap : δ → Content) (start : δ) (body : Nat → Decoding δ Unit) :
    Strategy := do
  let tag : Tag ← ask .type
  let (_, x) ← fresh start (walk c n tag body)
  set (wrap x)
  return tag

theorem apart_apply (c : Container) (wrap : δ → Content) (start : δ) (body : Nat → Decoding δ Unit)
    (dest : Content) :
    apart c n wrap start body dest = .ask .type fun (a : Except Error Tag) =>
      match a with
      | .error e => .done ⟨.error e, dest⟩
      | .ok tag => (walk c n tag body start).bind fun e =>
        match e.result with
        | .ok _ => .done ⟨.ok tag, wrap e.dest⟩
        | .error err => .done ⟨.error err, dest⟩ := by
  refine congrArg (Dialogue.ask .type) (funext fun (a : Except Error Tag) => ?_)
  cases a with
  | error e => rfl
  | ok tag =>
    show (fresh start (walk c n tag body) >>= fun x : Nat × δ =>
      set (wrap x.2) >>= fun _ => pure tag : Strategy) dest = _
    rw [bind_apply, fresh_apply, Dialogue.bind_bind]
    refine congrArg (walk c n tag body start).bind (funext fun e => ?_)
    obtain ⟨result, x⟩ := e
    cases result <;> rfl

section

variable {R : δ → γ → Prop} {c : Container} {body : Nat → Decoding δ Unit}
  {body' : Nat → Decoding (Hand γ) Unit} {made : γ → Content} {wrap : δ → Content}
  {finish : Tag → Nat → γ → γ} {x : δ} {g : γ}

/-- Going through a container by hand is going through it and reporting at the end. -/
theorem walk_gathers (hb : ∀ i, Follows (Held R) Free (truncated (body i)) (body' i))
    (hmade : ∀ x g tag k, R x g → made (finish tag k g) = wrap x) (hx : R x g) (tag : Tag) :
    ((walk c n tag body x).bind fun e =>
        .done ((e.result.mapError Error.truncate).map fun _ => wrap e.dest, none)) =
      (walk c n tag body' ⟨g, none⟩).bind fun e => .done (outcome made (gone finish tag e)) := by
  have hreport : SameReport (walk c n tag body) (walk c n tag fun i => truncated (body i)) :=
    .walk c tag fun i => .report (body i)
  have hfollows := Follows.walk Held.free c n tag hb
  refine (hreport.bind_eq (fun e d => ?_) x).trans (hfollows x ⟨g, none⟩ ⟨hx, rfl⟩ _ _ ?_ ?_)
  · exact congrArg (fun e => Dialogue.done (Except.error e, none)) e.truncate_truncate.symm
  · rintro k y ⟨g', _⟩ ⟨hr, rfl⟩
    exact congrArg (fun c => Dialogue.done (Except.ok c, none)) (hmade y g' tag k hr).symm
  · rintro e y ⟨g', _⟩ rfl
    rfl

/-- **Requests for a container**: one that decodes it apart, and one that goes through it by hand. -/
theorem request_gathers (hb : ∀ i, Follows (Held R) Free (truncated (body i)) (body' i))
    (hmade : ∀ x g tag k, R x g → made (finish tag k g) = wrap x) (hx : R x g) {t : Ty}
    {call : Ty → Strategy} (hcall : call t = apart c n wrap x body) (m : Nat) (dest : Content)
    (p : Option Nat) :
    ((perform call m 0 (into t) ⟨dest, p⟩).bind fun e => .done (outcome id e)) =
      (goThrough c n body' finish ⟨g, p⟩).bind fun e => .done (outcome made e) := by
  rw [into, perform, decodeInto_apply, goThrough_apply, Dialogue.bind_bind, Dialogue.bind_bind]
  -- What either request does once the decoder has nothing to move to any more.
  have hrest : ((call t dest).bind fun e => .done (finished (fun c _ _ => c) ⟨dest, none⟩ e)).bind
        (fun e => .done (outcome id e)) =
      (Dialogue.ask .type fun (a : Except Error Tag) =>
        match a with
        | .error e => .done ⟨.error e.truncate, ⟨g, none⟩⟩
        | .ok tag => (walk c n tag body' ⟨g, none⟩).bind fun w => .done (gone finish tag w)).bind
        fun e => .done (outcome made e) := by
    rw [hcall, apart_apply, Dialogue.bind_bind]
    refine congrArg (Dialogue.ask .type) (funext fun (a : Except Error Tag) => ?_)
    cases a with
    | error e => rfl
    | ok tag =>
      show ((walk c n tag body x).bind _).bind _ = ((walk c n tag body' ⟨g, none⟩).bind _).bind _
      rw [Dialogue.bind_bind, Dialogue.bind_bind]
      refine Eq.trans (congrArg _ (funext fun e => ?_)) (walk_gathers hb hmade hx tag)
      obtain ⟨result, y⟩ := e
      cases result <;> rfl
  cases p with
  | none => exact hrest
  | some j =>
    refine congrArg (Dialogue.ask (.toValue j)) (funext fun a => ?_)
    cases a with
    | error e => rfl
    | ok u => exact hrest

end

/-- A list is decoded apart, as the items appended so far. -/
theorem list_eq_apart (s : Schema) (nested : Ty → Strategy) (t : Ty) :
    list s (fun u => pure (nested u)) n t =
      apart .array n Content.list [] fun _ => item s t (nested t) := by
  unfold list
  rw [pure_bind]
  rfl

theorem map_eq_apart (s : Schema) (nested : Ty → Strategy) (key value : Ty) :
    map s (fun u => pure (nested u)) n key value = apart .map n id (Content.map []) fun i =>
      entry s key value (nested key) (nested value) i >>= fun e => modify (Content.putEntry e.1 e.2) := by
  unfold map
  rw [pure_bind, pure_bind]
  rfl

theorem perform_gatherItems (s : Schema) (t : Ty) (i : Nat) :
    perform call n i (.gatherItems s t) = goThrough .array n
      (fun k => perform call n k (.read t (s.initial t) .append)) fun tag _ => .noted tag := by
  rw [Routine.gatherItems, perform]

theorem perform_gatherEntries (s : Schema) (key value : Ty) (i : Nat) :
    perform call n i (.gatherEntries s key value) = goThrough .map n
      (fun k => perform call n k (takeEntry s key value .release .hold .put)) fun tag _ => .noted tag := by
  rw [Routine.gatherEntries, perform]

/-! ## Tags -/

section

variable {c : Container} {body : Nat → Decoding (Hand γ) Unit} {finish : Tag → Nat → γ → γ}

/-- What a container that is gone through by hand tells of its tag: after success it was noted, and nil
is an empty container for which nothing is done. -/
def TellsTag (p : Option Nat) (finish : Tag → Nat → γ → γ) (st : γ) (xs : List Exchange)
    (e : Option (Ending (Hand γ) Unit)) : Prop :=
  (∀ y, e = some ⟨.ok (), y⟩ → ∃ tag k g ys, y.state = finish tag k g ∧
    xs = front p ++ ⟨.type, .ok tag⟩ :: ys) ∧
  ∀ ys, xs = front p ++ ⟨.type, .ok .nil⟩ :: ys → ∃ a : Except Error Unit, ys = [⟨.nil, a⟩] ∧
    (a = .ok () → e = some ⟨.ok (), finish .nil 0 st, none⟩) ∧
    ∀ err, a = .error err → e = some ⟨.error err.truncate, st, none⟩

/-- A decoder that has a move to make tells the same after it. -/
theorem TellsTag.moved {st : γ} {xs : List Exchange} {e : Option (Ending (Hand γ) Unit)}
    (h : TellsTag none finish st xs e) (j : Nat) :
    TellsTag (some j) finish st (⟨.toValue j, .ok ()⟩ :: xs) e := by
  refine ⟨fun y hy => ?_, fun ys hys => h.2 ys (List.cons.inj hys).2⟩
  obtain ⟨tag, k, g, ys, hy, hxs⟩ := h.1 y hy
  exact ⟨tag, k, g, ys, hy, congrArg (⟨.toValue j, .ok ()⟩ :: ·) hxs⟩

/-- A container that is not nil. -/
theorem tellsTag_of_ne {tag : Tag} (ht : tag ≠ .nil) {st : γ} {ys : List Exchange}
    {e : Option (Ending (Hand γ) Unit)} (h : ∀ y, e = some ⟨.ok (), y⟩ → ∃ k g, y.state = finish tag k g) :
    TellsTag none finish st (⟨.type, .ok tag⟩ :: ys) e := by
  constructor
  · intro y hy
    obtain ⟨k, g, hstate⟩ := h y hy
    exact ⟨tag, k, g, ys, hstate, rfl⟩
  · intro zs hzs
    cases hzs
    exact absurd rfl ht

theorem walk_tells (tag : Tag) (st : γ) :
    ((walk c n tag body ⟨st, none⟩).bind fun w => .done (gone finish tag w)).Says
      fun xs e => TellsTag none finish st (⟨.type, .ok tag⟩ :: xs) e := by
  by_cases ht : tag = .nil
  · subst ht
    intro a
    cases a with
    | ok u =>
      constructor
      · intro y hy
        cases hy
        exact ⟨.nil, 0, st, _, rfl, rfl⟩
      · intro ys hys
        cases hys
        exact ⟨.ok u, rfl, fun _ => rfl, nofun⟩
    | error e =>
      refine ⟨nofun, fun ys hys => ?_⟩
      cases hys
      refine ⟨.error e, rfl, nofun, fun err herr => ?_⟩
      cases herr
      rfl
  · refine .after (fun xs => tellsTag_of_ne ht nofun) ?_
    rintro xs ⟨result, g⟩
    refine tellsTag_of_ne ht fun y hy => ?_
    cases result with
    | error e => cases hy
    | ok k =>
      cases hy
      exact ⟨k, g.state, rfl⟩

theorem goThrough_tells (p : Option Nat) (st : γ) :
    (goThrough c n body finish ⟨st, p⟩).Says (TellsTag p finish st) := by
  rw [goThrough_apply]
  have hrest : (Dialogue.ask .type fun (a : Except Error Tag) =>
      match a with
      | .error e => .done ⟨.error e.truncate, ⟨st, none⟩⟩
      | .ok tag => (walk c n tag body ⟨st, none⟩).bind fun w => .done (gone finish tag w)).Says
      (TellsTag none finish st) := by
    intro a
    cases a with
    | error e => exact ⟨nofun, nofun⟩
    | ok tag => exact walk_tells tag st
  cases p with
  | none => exact hrest
  | some j =>
    intro a
    cases a with
    | error e => exact ⟨nofun, nofun⟩
    | ok u => exact hrest.mono fun xs e h => h.moved j

end

end Decoding

namespace Setup

open Decoding
open Routine (into gatherItems gatherEntries)

variable {σ : Type} [TokenSource σ] {reg reg' : Registry}

/-- What was gathered by hand is what the decoder of the container decodes: by the same calls, to the
same content or error. The tag that the source told was handed over. -/
structure Gathers (p : Option Nat) (r : Run σ (Ending (Hand Content) Unit))
    (q : Run σ (Ending (Hand Gathered) Unit)) : Prop where
  exchanges : q.exchanges = r.exchanges
  source : q.source = r.source
  notes : q.notes = r.notes
  answer : q.answer.map (outcome Gathered.made) = r.answer.map (outcome id)
  tag : ∀ y, q.answer = some ⟨.ok (), y⟩ → ∃ tag xs, y.state.tag = some tag ∧
    q.exchanges = front p ++ ⟨.type, .ok tag⟩ :: xs

theorem Gathers.of_eq {s : Schema} {p : Option Nat} {d : Dialogue (Ending (Hand Content) Unit)}
    {d' : Dialogue (Ending (Hand Gathered) Unit)} {r : Run σ (Ending (Hand Content) Unit)}
    {q : Run σ (Ending (Hand Gathered) Unit)} {src : σ} (st : Gathered)
    (h : (d.bind fun e => .done (outcome id e)) = d'.bind fun e => .done (outcome Gathered.made e))
    (hr : r.Alike (d.run s src (.empty false))) (hq : q.Alike (d'.run s src (.empty false)))
    (ht : d'.Says (TellsTag p (fun tag _ => .noted tag) st)) : Gathers p r q := by
  have hrun := congrArg (fun x => x.run s src (.empty false)) h
  simp only [Dialogue.run_map] at hrun
  injection hrun with hanswer hsource _ hexchanges hnotes
  refine ⟨?_, ?_, ?_, ?_, fun y hy => ?_⟩
  · rw [hq.exchanges, hr.exchanges, hexchanges]
  · rw [hq.source, hr.source, hsource]
  · rw [hq.notes, hr.notes, hnotes]
  · rw [hq.answer, hr.answer, hanswer]
  · rw [hq.answer] at hy
    rw [hq.exchanges]
    obtain ⟨tag, k, g, ys, hstate, hxs⟩ := (ht.run s src (.empty false)).1 y hy
    exact ⟨tag, ys, by rw [hstate]; rfl, hxs⟩

variable (s : Setup)

theorem carry_gathers_items (hr : reg.Sound s.schema) (hr' : reg'.Sound s.schema) {t : Ty} (ht : t ≠ .u8)
    (n : Nat) (p : Option Nat) (dest : Content) (src : σ) :
    Gathers p (s.carry (n + 1) 0 (into (.list t)) ⟨dest, p⟩ src reg)
      (s.carry n 0 (gatherItems s.schema t) ⟨.of (.list []), p⟩ src reg') := by
  have hcall : s.direct (n + 1) (.list t) =
      apart .array n Content.list [] fun _ => item s.schema t (s.direct n t) := by
    rw [direct]
    simp only [Schema.plan, if_neg ht]
    exact list_eq_apart s.schema (s.direct n) t
  refine .of_eq (.of (.list [])) ?_ (s.carry_alike hr (n + 1) 0 _ _ src) (s.carry_alike hr' n 0 _ _ src) ?_
  · rw [perform_gatherItems]
    refine request_gathers (item_follows s.schema t) ?_ ?_ hcall _ dest p
    · exact fun items g tag k hg => hg
    · rfl
  · rw [perform_gatherItems]
    exact goThrough_tells p _

theorem carry_gathers_entries (hr : reg.Sound s.schema) (hr' : reg'.Sound s.schema) (key value : Ty)
    (n : Nat) (p : Option Nat) (dest : Content) (src : σ) :
    Gathers p (s.carry (n + 1) 0 (into (.map .sorted key value)) ⟨dest, p⟩ src reg)
      (s.carry n 0 (gatherEntries s.schema key value) ⟨.of (.map []), p⟩ src reg') := by
  have hcall : s.direct (n + 1) (.map .sorted key value) =
      apart .map n id (Content.map []) fun i =>
        entry s.schema key value (s.direct n key) (s.direct n value) i >>= fun e =>
          modify (Content.putEntry e.1 e.2) := by
    rw [direct]
    exact map_eq_apart s.schema (s.direct n) key value
  refine .of_eq (.of (.map [])) ?_ (s.carry_alike hr (n + 1) 0 _ _ src) (s.carry_alike hr' n 0 _ _ src) ?_
  · rw [perform_gatherEntries]
    refine request_gathers (R := fun c (g : Gathered) => g.made = c) (fun i => ?_) ?_ ?_ hcall _ dest p
    · exact takeEntry_follows s.schema (fun c g k v hg => congrArg (Content.putEntry k v) hg) i
    · exact fun c g tag k hg => hg
    · rfl
  · rw [perform_gatherEntries]
    exact goThrough_tells p _

/-- **Going through a container by hand is decoding it.** A routine that appends a fresh item for each
element of an array, or puts a fresh key and a fresh value for each entry of a map, makes the calls that
the decoder of the list, or of the ordered map, makes, and comes to the same content or error, also
through a decoder that has still to move to its value. Whatever is done for each element, the tag is
handed over at the end, and nothing is done for nil. Lists and maps lie one level above their parts. -/
theorem carry_gathers (hr : reg.Reachable s.schema) (hr' : reg'.Reachable s.schema) (n : Nat)
    (p : Option Nat) (dest : Content) (src : σ) :
    (∀ t, t ≠ .u8 → Gathers p (s.carry (n + 1) 0 (into (.list t)) ⟨dest, p⟩ src reg)
      (s.carry n 0 (gatherItems s.schema t) ⟨.of (.list []), p⟩ src reg')) ∧
    (∀ key value, Gathers p (s.carry (n + 1) 0 (into (.map .sorted key value)) ⟨dest, p⟩ src reg)
      (s.carry n 0 (gatherEntries s.schema key value) ⟨.of (.map []), p⟩ src reg')) ∧
    ∀ {δ : Type} (r : Routine δ .decoder) (finish : Tag → Nat → δ → δ) (st : δ), r.GoesThrough finish →
      let q := s.carry n 0 r ⟨st, p⟩ src reg
      TellsTag p finish st q.exchanges q.answer := by
  refine ⟨fun t ht => ?_, fun key value => ?_, fun r finish st hthrough => ?_⟩
  · exact carry_gathers_items s hr.sound hr'.sound ht n p dest src
  · exact carry_gathers_entries s hr.sound hr'.sound key value n p dest src
  · intro q
    have ha := s.carry_alike hr.sound n 0 r ⟨st, p⟩ src
    rw [ha.exchanges, ha.answer]
    refine Dialogue.Says.run ?_ s.schema src (.empty false)
    cases hthrough with
    | array body =>
      rw [Decoding.perform]
      exact goThrough_tells p st
    | map body =>
      rw [Decoding.perform]
      exact goThrough_tells p st

/-- A streamed array behind the key of an entry, taken item by item. -/
theorem carry_gathers_streamed :
    let s := plain (Catalog.schema [])
    let src : Script := ⟨[.value, .enter .array none, .next, .int 5, .next, .int 6, .stop, .close]⟩
    let q := s.carry 8 0 (gatherItems s.schema .i64) ⟨.of (.list []), some 0⟩ src (.empty true)
    (Registry.empty true).Reachable s.schema ∧ Ty.i64 ≠ .u8 ∧
      (q.answer.map fun y => (failure? y.result, y.dest.state.tag, y.dest.state.made.items.length)) =
        some (none, some .array, 2) ∧
      Gathers (some 0) (s.carry 9 0 (into (.list .i64)) ⟨.list [.int 7], some 0⟩ src (.empty true)) q := by
  intro s src q
  have hr : (Registry.empty true).Reachable s.schema := .empty true
  have ht : Ty.i64 ≠ .u8 := by decide
  exact ⟨hr, ht, by decide +kernel, (carry_gathers s hr hr 8 (some 0) (.list [.int 7]) src).1 .i64 ht⟩

end Setup

end Decant
