import Decant.Proofs.CatalogContract
import Decant.Proofs.Traces

/-!
# The move from a key to its value

* `Decoding.Moves` — the calls that a routine makes with a decoder that has still to move to a value: the
  move comes first, and is not made again.
* `Decoding.perform_calls` — every routine keeps to that, whatever it decodes, catches or gives up.
* `Setup.direct_calls` — so does the strategy of every type; it owes no move and makes none of its own.
* `Setup.moves_once` — what that means for the decoders of keys and of values, and for those that owe no
  move.
-/

namespace Decant

namespace Decoding

open Dialogue (Says)

variable {δ γ α : Type}

/-! ## Routines -/

/-- The calls that a routine makes, by what it was given, and the move that its decoder has still to
make before and after. -/
inductive Moves : Handle → Nat → Option Nat → List Exchange → Option Nat → Prop
  | entry {i : Nat} {p : Option Nat} {xs : List Exchange} (h : Calls (.free (some i)) xs) :
      Moves .entry i p xs p
  | free {i : Nat} {xs : List Exchange} (h : Fresh xs) : Moves .decoder i none xs none
  /-- As long as nothing is asked, the move is not made. -/
  | idle (i j : Nat) : Moves .decoder i (some j) [] (some j)
  /-- The move comes first, and is not made again even if it failed. -/
  | moved {i j : Nat} {xs : List Exchange} (a : Answer (.toValue j)) (h : Fresh xs) :
      Moves .decoder i (some j) (⟨.toValue j, a⟩ :: xs) none

theorem Moves.refl (h : Handle) (i : Nat) (p : Option Nat) : Moves h i p [] p := by
  cases h with
  | entry => exact .entry (.nil _)
  | decoder =>
    cases p with
    | none => exact .free .nil
    | some j => exact .idle i j

theorem Moves.append {h : Handle} {i : Nat} {p q r : Option Nat} {xs ys : List Exchange}
    (hx : Moves h i p xs q) (hy : Moves h i q ys r) : Moves h i p (xs ++ ys) r := by
  cases hx with
  | entry hx =>
    cases hy with
    | entry hy => exact .entry (hx.append hy)
  | free hx =>
    cases hy with
    | free hy => exact .free (hx.append hy)
  | idle i j => exact hy
  | moved a hx =>
    cases hy with
    | free hy => exact .moved a (hx.append hy)

section perform

variable {call : Ty → Strategy} {rounds : Nat}

/-- How a routine leaves its decoder: it made such calls, and has such a move still to make. -/
def Handled (h : Handle) (i : Nat) (p : Option Nat) (xs : List Exchange)
    (e : Option (Ending (Hand δ) Unit)) : Prop :=
  ∃ q, Moves h i p xs q ∧ ∀ y, e = some y → y.dest.pending = q

/-- A decoder that has nothing to move to any more. -/
def Settled (xs : List Exchange) (e : Option (Ending (Hand δ) α)) : Prop :=
  Fresh xs ∧ ∀ y, e = some y → y.dest.pending = none

/-- Whatever a decoder does, it makes the move first that it has still to make. -/
theorem handshake_calls {x : Hand δ} {i : Nat}
    {k : Ending (Hand δ) Unit → Dialogue (Ending (Hand δ) Unit)}
    (hk : ∀ r, (k ⟨r, ⟨x.state, none⟩⟩).Says Settled) :
    ((handshake x).bind k).Says (Handled .decoder i x.pending) := by
  obtain ⟨state, pending⟩ := x
  cases pending with
  | none => exact (hk (.ok ())).mono fun xs e h => ⟨none, .free h.1, h.2⟩
  | some j => exact fun a => (hk a).mono fun xs e h => ⟨none, .moved a h.1, h.2⟩

theorem settled_ends {x : Dialogue γ} (h : x.Says fun xs _ => Fresh xs)
    {f : γ → Ending (Hand δ) α} (hf : ∀ y, (f y).dest.pending = none) :
    (x.bind fun y => .done (f y)).Says Settled := by
  refine h.bind (fun xs hx => ⟨hx, nofun⟩) fun xs y hx => ?_
  show Settled (xs ++ []) _
  rw [List.append_nil]
  refine ⟨hx, fun z hz => ?_⟩
  cases hz
  exact hf y

theorem decodeInto_calls (hc : ∀ t c, (call t c).Says fun xs _ => Fresh xs) (i : Nat) (t : Ty)
    (start : δ → Content) (finish : Content → Option Error → δ → δ) (x : Hand δ) :
    (decodeInto call t start finish x).Says (Handled .decoder i x.pending) := by
  rw [decodeInto_apply]
  apply handshake_calls
  intro r
  cases r with
  | ok u => exact settled_ends (hc t _) fun _ => rfl
  | error e => exact ⟨.nil, fun y hy => by cases hy; rfl⟩

theorem goThrough_calls (c : Container) (i : Nat) {body : Nat → Decoding (Hand δ) Unit}
    (hb : ∀ i x, x.pending = none → (body i x).Says (Keeping (c.entry? i) fun y => y.pending = none))
    (finish : Tag → Nat → δ → δ) (x : Hand δ) :
    (goThrough c rounds body finish x).Says (Handled .decoder i x.pending) := by
  rw [goThrough_apply]
  apply handshake_calls
  intro r
  cases r with
  | error e => exact ⟨.nil, fun y hy => by cases hy; rfl⟩
  | ok u =>
    intro a
    cases a with
    | error e => exact ⟨⟨.single rfl, fun x hx => by cases hx; rfl⟩, fun y hy => by cases hy; rfl⟩
    | ok tag =>
      have htyped : ∀ {xs : List Exchange}, Calls (.free none) xs →
          Fresh (⟨.type, .ok tag⟩ :: xs) :=
        fun hx => ⟨.plain rfl hx, fun x hx => by cases hx; rfl⟩
      have hwalk := walk_calls (n := rounds) (d := (⟨x.state, none⟩ : Hand δ)) hb tag rfl none
      refine hwalk.bind (fun xs hx => ⟨htyped hx.1, nofun⟩) fun xs w hx => ?_
      show Settled (⟨.type, .ok tag⟩ :: (xs ++ [])) _
      rw [List.append_nil]
      refine ⟨htyped hx.1, fun y hy => ?_⟩
      cases hy
      have hw : w.dest.pending = none := hx.2 w rfl
      obtain ⟨result, z⟩ := w
      cases result <;> exact hw

/-- **Whatever a routine does**, its decoder makes the move that it has to make before anything else and
does not make it again; entries move to their own values only. -/
theorem perform_calls (hc : ∀ t c, (call t c).Says fun xs _ => Fresh xs) :
    ∀ {h : Handle} (i : Nat) (r : Routine δ h) (x : Hand δ),
      (perform call rounds i r x).Says (Handled h i x.pending)
  | h, i, .skip, x | h, i, .fail _, x | h, i, .update _, x =>
    ⟨x.pending, .refl h i _, fun y hy => by cases hy; rfl⟩
  | _, i, .choose f, x => perform_calls hc i (f x.state) x
  | h, i, .seq a b, x => by
    refine (perform_calls hc i a x).bind (fun _ hx => hx) fun xs e hx => ?_
    obtain ⟨result, y⟩ := e
    obtain ⟨q, hq, hy⟩ := hx
    have hy : y.pending = q := hy _ rfl
    subst hy
    cases result with
    | error e =>
      show Handled h i x.pending (xs ++ []) _
      rw [List.append_nil]
      exact ⟨y.pending, hq, fun z hz => by cases hz; rfl⟩
    | ok u =>
      refine (perform_calls hc i b y).mono fun ys e he => ?_
      obtain ⟨r, hr, hz⟩ := he
      exact ⟨r, hq.append hr, hz⟩
  | h, i, .attempt body finish, x => by
    show (((perform call rounds i body x).bind _).bind _).Says _
    rw [Dialogue.bind_bind]
    refine (perform_calls hc i body x).bind (fun _ hx => hx) fun xs y hx => ?_
    obtain ⟨q, hq, hy⟩ := hx
    show Handled h i x.pending (xs ++ []) _
    rw [List.append_nil]
    have hy : y.dest.pending = q := hy y rfl
    exact ⟨q, hq, fun z hz => by cases hz; exact hy⟩
  | _, i, .decode t start finish, x => decodeInto_calls hc i t start finish x
  | _, i, .array body finish, x => by
    refine goThrough_calls .array i (fun n y hy => ?_) finish x
    refine (perform_calls hc n (body n) y).mono fun xs e he => ?_
    rw [hy] at he
    obtain ⟨q, hq, hz⟩ := he
    cases hq with
    | free hx => exact ⟨hx.calls, hz⟩
  | _, i, .map body finish, x => by
    refine goThrough_calls .map i (fun n y hy => ?_) finish x
    refine (perform_calls hc n (body n) y).mono fun xs e he => ?_
    rw [hy] at he
    obtain ⟨q, hq, hz⟩ := he
    cases hq with
    | entry hx => exact ⟨hx, hz⟩
  | _, i, .key body, x => by
    rw [perform]
    refine onChild_calls (perform_calls hc i body ⟨x.state, none⟩) fun xs q hq => ?_
    cases hq with
    | free hx => exact hx.calls.anywhere _
  | _, i, .value body, x => by
    rw [perform]
    refine onChild_calls (perform_calls hc i body ⟨x.state, some i⟩) fun xs q hq => ?_
    cases hq with
    | idle => exact .nil _
    | moved a hx => exact .move a (hx.calls.anywhere _)
where
  onChild_calls {i : Nat} {child : Option Nat} {m : Decoding (Hand δ) Unit} {x : Hand δ}
      (hm : (m ⟨x.state, child⟩).Says (Handled .decoder i child))
      (hc : ∀ xs q, Moves .decoder i child xs q → Calls (.free (some i)) xs) :
      (onChild child m x).Says (Handled .entry i x.pending) := by
    rw [onChild, focus_apply]
    refine hm.bind (fun xs hx => ?_) fun xs y hx => ?_
    · obtain ⟨q, hq, -⟩ := hx
      exact ⟨x.pending, .entry (hc xs q hq), fun z hz => by cases hz⟩
    · obtain ⟨q, hq, -⟩ := hx
      show Handled .entry i x.pending (xs ++ []) _
      rw [List.append_nil]
      exact ⟨x.pending, .entry (hc xs q hq), fun z hz => by cases hz; rfl⟩

end perform

/-! ## The strategy of a type -/

/-- A strategy that asks for the tag first. -/
theorem fresh_of_type {f : Strategy} (h : Speaks none f) (ht : ∀ c, ∃ next, f c = .ask .type next)
    (c : Content) : (f c).Says fun xs _ => Fresh xs := by
  obtain ⟨next, hn⟩ := ht c
  have htyped : (f c).Says fun xs _ => Typed xs := by
    rw [hn]
    exact fun a => Says.of_forall (fun xs _ x hx => by cases hx; rfl) _
  exact ((h c).and htyped).mono fun xs _ hx => ⟨hx.1, hx.2⟩

/-- What is done at the end makes no calls. -/
theorem fresh_ends {x : Dialogue γ} (h : x.Says fun xs _ => Fresh xs) (f : γ → α) :
    (x.bind fun y => .done (f y)).Says fun xs _ => Fresh xs :=
  h.bind (fun _ hx => hx) fun xs y hx => by
    show Fresh (xs ++ [])
    rwa [List.append_nil]

end Decoding

namespace Setup

open Decoding

variable {s : Setup}

/-- A plan makes such calls once the strategies of other types do. -/
theorem plan_calls {f : Ty → Strategy} (hf : ∀ t c, (f t c).Says fun xs _ => Fresh xs) (n : Nat) (t : Ty)
    (p : Plan) (c : Content) :
    (p.run s (fun u => pure (f u)) (fun u => pure (f u)) n t c).Says fun xs _ => Fresh xs := by
  have hspeaks : ∀ t, Speaks none (f t) := fun t c => (hf t c).mono fun _ _ hx => hx.calls
  have hentry : ∀ routine, s.entryRoutine = some routine →
      ∀ i, Speaks (some i) (Decoding.perform f n i (routine i)) := by
    intro routine _ i x
    refine (perform_calls hf i (routine i) x).mono fun xs _ hx => ?_
    obtain ⟨q, hq, -⟩ := hx
    cases hq with
    | entry hx => exact hx
  cases p with
  | scalar k => exact fresh_of_type (.takesOne (scalar_takesOne k)) (fun _ => ⟨_, rfl⟩) c
  | byteList => exact fresh_of_type (.takesOne bytes_takesOne) (fun _ => ⟨_, rfl⟩) c
  | dynamic => exact fresh_of_type (.dynamic (hspeaks _) hentry) (fun _ => ⟨_, rfl⟩) c
  | list item => exact fresh_of_type (.list _ (hspeaks _)) (fun _ => ⟨_, rfl⟩) c
  | array item length => exact fresh_of_type (.array _ _ (hspeaks _) (hspeaks _)) (fun _ => ⟨_, rfl⟩) c
  | map key value => exact fresh_of_type (.mapOf _ (hspeaks _) (hspeaks _)) (fun _ => ⟨_, rfl⟩) c
  | textMap value => exact fresh_of_type (.textMap _ (hspeaks _) (hspeaks _)) (fun _ => ⟨_, rfl⟩) c
  | option inner =>
    show (Decoding.option s.schema (fun u => pure (f u)) inner c).Says _
    rw [option_apply]
    exact fresh_ends (hf inner _) _
  | box inner =>
    show (through (pure (f inner)) c).Says _
    rw [through_pure]
    exact hf inner c
  | record fields types => exact fresh_of_type (.record _ hspeaks _) (fun _ => ⟨_, rfl⟩) c
  | custom routine =>
    show (custom (fun u => through (pure (f u))) n routine c).Says _
    simp only [through_pure]
    rw [custom_apply]
    refine fresh_ends ((perform_calls hf 0 routine ⟨⟨c, .unit⟩, none⟩).mono fun xs _ hx => ?_) _
    obtain ⟨q, hq, -⟩ := hx
    cases hq with
    | free hx => exact hx
  | text accept => exact fresh_of_type (.takesOne (text_takesOne accept)) (fun _ => ⟨_, rfl⟩) c
  | error build => exact fresh_of_type (.takesOne (error_takesOne _ build)) (fun _ => ⟨_, rfl⟩) c
  | unsupported path => exact .nil

/-- **The strategy of every type owes no move** and makes none of its own. -/
theorem direct_calls (s : Setup) (n : Nat) (t : Ty) (c : Content) :
    (s.direct n t c).Says fun xs _ => Fresh xs := by
  induction n generalizing t c with
  | zero => exact .nil
  | succ n ih => exact plan_calls ih n t _ c

theorem decodeDirect_calls (s : Setup) (n : Nat) (t : Ty) (dest : Content) :
    (s.decodeDirect n t dest).Says fun xs _ => Fresh xs := by
  rw [decodeDirect_eq]
  exact fresh_ends (s.direct_calls n t dest) _

end Setup

/-! ## Runs -/

/-- A request for one value, or for a container that is gone through. -/
def Routine.IsRequest {δ : Type} : Routine δ .decoder → Prop
  | .decode _ _ _ | .array _ _ | .map _ _ => True
  | _ => False

namespace Decoding

variable {δ : Type}

/-- A request starts with the move that its decoder has still to make, and ends if that fails. -/
theorem perform_request (call : Ty → Strategy) (rounds : Nat) {r : Routine δ .decoder}
    (hr : r.IsRequest) (i j : Nat) (st : δ) :
    ∃ next, perform call rounds i r ⟨st, some j⟩ = .ask (.toValue j) next ∧
      ∀ e, ∃ st', next (.error e) = .done ⟨.error e.truncate, ⟨st', none⟩⟩ := by
  cases r with
  | decode t start finish =>
    rw [perform, decodeInto_apply]
    exact ⟨_, rfl, fun e => ⟨_, rfl⟩⟩
  | array body finish =>
    rw [perform, goThrough_apply]
    exact ⟨_, rfl, fun e => ⟨_, rfl⟩⟩
  | map body finish =>
    rw [perform, goThrough_apply]
    exact ⟨_, rfl, fun e => ⟨_, rfl⟩⟩
  | _ => cases hr

end Decoding

namespace Setup

open Decoding

variable {δ σ : Type} [TokenSource σ] {reg : Registry}

/-- How a routine on a decoder, or on an entry of a map, is carried out. The index is that of the
entry. -/
def carry (s : Setup) (n i : Nat) {h : Handle} (r : Routine δ h) (x : Hand δ) (src : σ)
    (reg : Registry) : Run σ (Ending (Hand δ) Unit) :=
  (Decoding.perform (s.call n) n i r x).run s.schema src reg

/-- A routine is carried out as it is without a registry. -/
theorem carry_alike (s : Setup) (hr : reg.Sound s.schema) (n i : Nat) {h : Handle} (r : Routine δ h)
    (x : Hand δ) (src : σ) : (s.carry n i r x src reg).Alike
      ((Decoding.perform (s.direct n) n i r x).run s.schema src (.empty false)) := by
  have hsame : Same s.schema False (Decoding.perform (s.call n) n i r)
      (Decoding.perform (s.direct n) n i r) :=
    same_perform (fun t => s.call_same n t) ⟨Nat.le_refl n, .inr rfl⟩ i r
  exact (hsame x).alike src hr (.empty false)

theorem carry_handled (s : Setup) (hr : reg.Sound s.schema) (n i : Nat) {h : Handle} (r : Routine δ h)
    (x : Hand δ) (src : σ) : Handled h i x.pending (s.carry n i r x src reg).exchanges
      (s.carry n i r x src reg).answer := by
  have ha := s.carry_alike hr n i r x src
  rw [ha.exchanges, ha.answer]
  exact (perform_calls (s.direct_calls n) i r x).run s.schema src (.empty false)

/-- Working through a new decoder makes the calls of that decoder. -/
theorem run_onChild {child : Option Nat} {m : Decoding (Hand δ) Unit} {x : Hand δ} (s : Schema)
    (src : σ) : ((onChild child m x).run s src reg).exchanges =
      ((m ⟨x.state, child⟩).run s src reg).exchanges := by
  rw [onChild, focus_apply, Dialogue.run_map]

/-- **A decoder moves to its value once.** The decoder of the value of an entry is one that has still to
move to it, and the decoder of a key has nothing to move to. The first request to a decoder that has to
move makes the move before any other call; if the move fails, the request fails and makes no further
call. Whatever else is requested of the decoder later, and whether requests succeed or fail, it does not
move again. Decoders that have nothing to move to never move. What else there is of moves belongs to the
entries of maps that were entered on the way. -/
theorem moves_once (s : Setup) (hr : reg.Reachable s.schema) (n i : Nat) (st : δ) (src : σ) :
    (∀ (body : Routine δ .decoder) (p : Option Nat),
      (s.carry n i (.value body) ⟨st, p⟩ src reg).exchanges =
          (s.carry n i body ⟨st, some i⟩ src reg).exchanges ∧
        (s.carry n i (.key body) ⟨st, p⟩ src reg).exchanges =
          (s.carry n i body ⟨st, none⟩ src reg).exchanges) ∧
    (∀ (r : Routine δ .decoder) (j : Nat), r.IsRequest →
      let q := s.carry n i r ⟨st, some j⟩ src reg
      ∃ a xs, q.exchanges = ⟨.toValue j, a⟩ :: xs ∧
        ∀ e, a = .error e → xs = [] ∧ ∃ st', q.answer = some ⟨.error e.truncate, ⟨st', none⟩⟩) ∧
    (∀ (r : Routine δ .decoder) (j : Nat),
      let q := s.carry n i r ⟨st, some j⟩ src reg
      (q.exchanges = [] ∧ ∀ y, q.answer = some y → y.dest.pending = some j) ∨
        ∃ a xs, q.exchanges = ⟨.toValue j, a⟩ :: xs ∧ Fresh xs ∧
          ∀ y, q.answer = some y → y.dest.pending = none) ∧
    (∀ r : Routine δ .decoder,
      let q := s.carry n i r ⟨st, none⟩ src reg
      Fresh q.exchanges ∧ ∀ y, q.answer = some y → y.dest.pending = none) ∧
    ∀ (t : Ty) (dest : Content), Fresh ((s.decode n t dest).run s.schema src reg).exchanges := by
  refine ⟨fun body p => ⟨?_, ?_⟩, fun r j hreq => ?_, fun r j => ?_, fun r => ?_, fun t dest => ?_⟩
  · unfold carry
    rw [Decoding.perform]
    exact run_onChild s.schema src
  · unfold carry
    rw [Decoding.perform]
    exact run_onChild s.schema src
  · obtain ⟨next, hn, hf⟩ := perform_request (s.call n) n hreq i j st
    unfold carry
    rw [hn]
    refine ⟨_, _, rfl, fun e he => ?_⟩
    obtain ⟨st', hst⟩ := hf e
    show (Dialogue.run s.schema (next _) _ reg).exchanges = [] ∧
      ∃ st', (Dialogue.run s.schema (next _) _ reg).answer = some ⟨.error e.truncate, ⟨st', none⟩⟩
    rw [he, hst]
    exact ⟨rfl, st', rfl⟩
  · obtain ⟨q, hq, hy⟩ := s.carry_handled hr.sound n i r ⟨st, some j⟩ src
    generalize s.carry n i r ⟨st, some j⟩ src reg = run at hq hy
    generalize hx : run.exchanges = xs at hq
    cases hq with
    | idle => exact .inl ⟨hx, hy⟩
    | moved a hfresh => exact .inr ⟨a, _, hx, hfresh, hy⟩
  · obtain ⟨q, hq, hy⟩ := s.carry_handled hr.sound n i r ⟨st, none⟩ src
    cases hq with
    | free hfresh => exact ⟨hfresh, hy⟩
  · have ha := s.decode_alike_direct hr.sound n t dest src
    rw [ha.exchanges]
    exact (s.decodeDirect_calls n t dest).run s.schema src (.empty false)

/-- The decoder of the value of entry 3, of which a map is requested, and after that was refused for its
integer key, another value. -/
theorem moves_once_nested :
    let s := plain (Catalog.schema [])
    let src : Script :=
      ⟨[.value, .enter .map (some 2), .string "a".toUTF8, .value, .int 1, .next, .int 2, .int 3]⟩
    let keyed : Routine Work .entry :=
      .seq (.key (Catalog.collect .text (.text ""))) (.value (Catalog.collect .i64 (.int 0)))
    let body : Routine Work .decoder :=
      .seq (.attempt (.map (fun _ => keyed) fun _ _ w => w) fun _ w => w) (Catalog.collect .i64 (.int 0))
    let q := s.carry 9 3 (.value body) ⟨⟨.unit, .list []⟩, none⟩ src (.empty true)
    (Registry.empty true).Reachable s.schema ∧
      q.exchanges.map (·.call) = [.toValue 3, .type, .enter .map, .type, .string, .toValue 0, .type, .int,
        .next .map 1, .type, .type, .int] ∧
      ∃ a xs, q.exchanges = ⟨.toValue 3, a⟩ :: xs ∧ Fresh xs := by
  intro s src keyed body q
  have hr : (Registry.empty true).Reachable s.schema := .empty true
  have hcalls : q.exchanges.map (·.call) = [.toValue 3, .type, .enter .map, .type, .string, .toValue 0,
      .type, .int, .next .map 1, .type, .type, .int] := by decide +kernel
  have h := s.moves_once hr 9 3 (⟨.unit, .list []⟩ : Work) src
  have hq : q.exchanges = (s.carry 9 3 body ⟨⟨.unit, .list []⟩, some 3⟩ src (.empty true)).exchanges :=
    (h.1 body none).1
  rcases h.2.2.1 body 3 with hnone | ⟨a, xs, hx, hfresh, -⟩
  · rw [hq, hnone.1] at hcalls
    cases hcalls
  · exact ⟨hr, hcalls, a, xs, hq.trans hx, hfresh⟩

end Setup

end Decant
