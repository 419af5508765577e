import Mathlib.Data.List.Forall2
import Decant.Proofs.Callbacks
import Decant.Proofs.Session

/-!
# Entries that are taken over as they are

* `EntryRoutine.pairs_interchangeable` — taking the entries of maps as they are, by hand, reports the same
  as decoding them.
* `Stream.session_alike` — sessions of streams show the same under setups whose strategies report the same.
* `Setup.pairs_changes_nothing` — so a routine that takes over the entries of maps and takes them as they
  are changes nothing, wherever maps of no fixed type lie.
-/

namespace Decant

open Decoding

/-! ## Entries -/

namespace EntryRoutine

/-- Taking entries as they are is taking a key and a value of no fixed type. -/
theorem pairs_eq (i : Nat) : pairs i = .takeEntry ⟨[]⟩ .dynamic .dynamic (fun s => { s with held := [] })
    (fun c s => { s with held := s.held ++ [c] }) (fun s =>
      match s.held with
      | [k, v] => push (k.toDynamic, v.toDynamic) s
      | _ => s) := rfl

end EntryRoutine

namespace Decoding

/-- Entries with a further one, made of a key and a value of no fixed type. -/
def pushed (k v : Content) (entries : List (Value × Value)) : List (Value × Value) :=
  entries ++ [(k.toDynamic, v.toDynamic)]

theorem dynamicEntry_eq (f : Strategy) (i : Nat) :
    (dynamicEntry f i >>= fun e => modify (· ++ [e]) : Decoding (List (Value × Value)) Unit) =
      entry ⟨[]⟩ .dynamic .dynamic f f i >>= fun e => modify (pushed e.1 e.2) := by
  unfold dynamicEntry value entry
  simp only [bind_assoc, pure_bind]
  rfl

/-- What is reported of something that was built apart. -/
theorem truncated_built {δ γ : Type} (start : γ) (m : Decoding γ Nat) (post : γ → List (Value × Value))
    (d : δ) :
    truncated (fresh start m >>= fun x => pure (post x.2)) d = (m start).bind fun e =>
      .done ⟨(e.result.mapError Error.truncate).map fun _ => post e.dest, d⟩ := by
  show Dialogue.bind (Dialogue.bind (fresh start m d) _) _ = _
  rw [fresh_apply, Dialogue.bind_bind, Dialogue.bind_bind]
  refine congrArg (m start).bind (funext fun ⟨result, x⟩ => ?_)
  cases result <;> rfl

end Decoding

/-- **Taking entries as they are reports the same as decoding them.** -/
theorem EntryRoutine.pairs_interchangeable : Interchangeable (some pairs) none := by
  intro n g g' h
  have hstep : SameReport (dynamicEntries (some pairs) (fun u => pure (g u)) n)
      (dynamicEntries none (fun u => pure (g u)) n) := by
    have hbody : ∀ i, Follows (Held fun es (h : Entries) => h.made = es) Free
        (truncated (dynamicEntry (g .dynamic) i >>= fun e => modify (· ++ [e])))
        (perform g n i (pairs i)) := by
      intro i
      rw [dynamicEntry_eq, pairs_eq]
      refine takeEntry_follows ⟨[]⟩ (fun es h k v hh => ?_) i
      exact congrArg (pushed k v) hh
    have hwalk := Follows.walk Held.free .map n .map hbody
    have hreport : SameReport
        (walk .map n .map fun i => dynamicEntry (g .dynamic) i >>= fun e => modify (· ++ [e]))
        (walk .map n .map fun i =>
          truncated (dynamicEntry (g .dynamic) i >>= fun e => modify (· ++ [e]))) :=
      .walk .map .map fun i => .report _
    funext d
    refine (truncated_built _ _ (fun h : Hand Entries => h.state.made) d).trans (Eq.trans (Eq.symm ?_)
      (truncated_built _ _ id d).symm)
    refine (hreport.bind_eq (fun e es => ?_) []).trans
      (hwalk [] ⟨Entries.empty, none⟩ ⟨rfl, rfl⟩ _ _ ?_ ?_)
    · exact congrArg (fun e => (.done ⟨.error e, d⟩ : Dialogue (Ending Content (List (Value × Value)))))
        e.truncate_truncate.symm
    · rintro k es h ⟨hh, -⟩
      exact congrArg (fun es => (.done ⟨.ok es, d⟩ : Dialogue (Ending Content (List (Value × Value)))))
        hh.symm
    · exact fun e es h _ => rfl
  exact hstep.trans (SameReport.dynamicEntries (h .dynamic))

/-! ## Streams -/

namespace Stream

variable {s : Schema} {short : Prop} {m m' : Strategy}

theorem same_change (f : Stream → Stream) : Same s short (change f) (change f) := same_modify _

/-- What comes after a failure is of no account. -/
theorem same_fail_bind {α : Type} (e : Error) (f : Unit → Decoding Streaming α) :
    Same s short (fail e >>= f) (fail e >>= f) := fun _ => .done rfl

theorem same_advance : Same s short advance advance := by
  apply Same.bind (.done fun _ => ⟨_, rfl⟩)
  intro x
  dsimp only
  split
  · split
    · exact (Same.ask _).bind fun _ => same_fail_bind .ended _
    · exact same_fail_bind .ended _
  · split
    · apply (Same.ask _).attempt.bind
      intro a
      cases a with
      | ok u => exact .pure ()
      | error e =>
        dsimp only
        split
        · exact (same_change _).bind fun _ => (Same.ask _).bind fun _ => .fail e
        · exact .fail e
    · exact .pure ()

theorem same_element (h : Same s short m m') : Same s short (element m) (element m') :=
  (h.truncated.focus _ _).bind fun _ => .pure _

theorem same_step (h : Same s short m m') : Same s short (step m) (step m') :=
  same_advance.bind fun _ => (same_element h).bind fun _ => same_change _

theorem same_first (h : Same s short m m') : Same s short (first m) (first m') := by
  apply (Same.ask .type).bind
  intro tag
  apply (same_change _).bind
  intro _
  split
  · exact (Same.ask (.enter .array)).bind fun _ => (same_change _).bind fun _ => same_step h
  · exact (same_change _).bind fun _ => (same_element (h.serving tag)).bind fun _ => same_change _

/-- A call of a stream goes alike if the decoding of elements does. -/
theorem same_nextBy (h : Same s short m m') : Same s short (nextBy m) (nextBy m') := by
  apply Same.bind (.done fun _ => ⟨_, rfl⟩)
  intro x
  dsimp only
  split
  · exact .fail _
  · refine Same.bind (Same.attempt ?_) fun r => ?_
    · split
      · exact same_first h
      · exact same_step h
    · cases r with
      | ok u => exact .pure _
      | error e =>
        exact Same.bind (.done fun _ => ⟨_, rfl⟩) fun _ => (Same.note _).bind fun _ =>
          (same_change _).bind fun _ => .fail e

section

variable (h : SameReport m m')
include h

theorem element_congr : element m = element m' := by
  unfold element
  rw [show truncated m = truncated m' from h]

theorem step_congr : step m = step m' := by
  unfold step
  rw [element_congr h]

theorem first_congr : first m = first m' := by
  unfold first
  rw [step_congr h]
  simp only [fun tag => element_congr (h.serving tag)]

/-- **A stream does not tell** decodings that report the same from each other: it hands each element to a
decoder that reports for itself. -/
theorem nextBy_congr : nextBy m = nextBy m' := by
  unfold nextBy
  rw [first_congr h, step_congr h]

end

variable {σ : Type} [TokenSource σ] {schema : Schema} {r r' : Option EntryRoutine} {reg reg' : Registry}

/-- Two calls of streams that are asked for the same in the same state go alike. -/
structure Turn.Matches (s s' : Setup) (u v : Turn σ) : Prop where
  request : u.request = v.request
  stream : u.stream = v.stream
  source : u.source = v.source
  run : (u.run s).Alike (v.run s')

theorem next_alike (hi : EntryRoutine.Interchangeable r r') (hr : reg.Sound schema)
    (hr' : reg'.Sound schema) (q : Request) (st : Stream) (src : σ) :
    Turn.Matches ⟨schema, r⟩ ⟨schema, r'⟩ ⟨q, st, src, reg⟩ ⟨q, st, src, reg'⟩ := by
  refine ⟨rfl, rfl, rfl, ?_⟩
  let s : Setup := ⟨schema, r⟩
  let s' : Setup := ⟨schema, r'⟩
  have hnext : nextBy (s.direct q.steps q.ty) = nextBy (s'.direct q.steps q.ty) :=
    nextBy_congr (Setup.direct_sameReport hi q.steps q.ty)
  have hs : Same schema False (next s q.steps q.ty) (nextBy (s.direct q.steps q.ty)) :=
    same_nextBy (s.call_same q.steps q.ty)
  have hs' : Same schema False (next s' q.steps q.ty) (nextBy (s'.direct q.steps q.ty)) :=
    same_nextBy (s'.call_same q.steps q.ty)
  rw [hnext] at hs
  exact ((hs _).alike src hr (.empty false)).trans ((hs' _).alike src hr' (.empty false)).symm

/-- **A session goes alike**, call by call, whichever of the two takes over the entries of maps. -/
theorem session_alike (hi : EntryRoutine.Interchangeable r r') (requests : List Request)
    (hr : reg.Sound schema) (hr' : reg'.Sound schema) (st : Stream) (src : σ) :
    List.Forall₂ (Turn.Matches ⟨schema, r⟩ ⟨schema, r'⟩) (session ⟨schema, r⟩ requests st src reg)
      (session ⟨schema, r'⟩ requests st src reg') := by
  induction requests generalizing st src reg reg' with
  | nil => exact .nil
  | cons q qs ih =>
    let u : Turn σ := ⟨q, st, src, reg⟩
    let v : Turn σ := ⟨q, st, src, reg'⟩
    have hm : Turn.Matches ⟨schema, r⟩ ⟨schema, r'⟩ u v := next_alike hi hr hr' q st src
    have hu : (u.run ⟨schema, r⟩).registry.Sound schema := Dialogue.run_sound _ _ hr
    have hv : (v.run ⟨schema, r'⟩).registry.Sound schema := Dialogue.run_sound _ _ hr'
    unfold session
    refine .cons hm ?_
    rw [hm.run.answer, hm.run.source]
    cases (v.run ⟨schema, r'⟩).answer with
    | none => exact .nil
    | some e => exact ih hu hv e.dest.stream _

end Stream

/-! ## The routine that changes nothing -/

namespace Setup

variable {σ : Type} [TokenSource σ] {schema : Schema} {reg reg' : Registry}

/-- **Taking the entries of maps as they are changes nothing.** With the routine that takes a fresh key
and a fresh value of each entry of a map of no fixed type, every type is decoded as without it: with the
same result and the same destination, by the same calls, and with the same notes. So is every element of
every session of a stream. -/
theorem pairs_changes_nothing (hr : reg.Reachable schema) (hr' : reg'.Reachable schema) (src : σ) :
    let s : Setup := ⟨schema, some .pairs⟩
    (∀ (n : Nat) (t : Ty) (dest : Content), ((s.decode n t dest).run schema src reg).Alike
      (((plain schema).decode n t dest).run schema src reg')) ∧
    ∀ requests : List Stream.Request, List.Forall₂ (Stream.Turn.Matches s (plain schema))
      (Stream.session s requests .start src reg)
      (Stream.session (plain schema) requests .start src reg') := by
  intro s
  have hi := EntryRoutine.pairs_interchangeable
  refine ⟨fun n t dest => ?_, fun requests => ?_⟩
  · have hdirect : s.decodeDirect n t = (plain schema).decodeDirect n t :=
      (direct_sameReport hi n t).before _
    have hs := s.decode_alike_direct hr.sound n t dest src
    rw [hdirect] at hs
    exact hs.trans ((plain schema).decode_alike_direct hr'.sound n t dest src).symm
  · exact Stream.session_alike hi requests hr.sound hr'.sound .start src

/-- Maps in a map and in an array, with an eager registry and with a lazy one. -/
theorem pairs_changes_nothing_nested :
    let schema := Catalog.schema []
    let s : Setup := ⟨schema, some .pairs⟩
    let v : Value := .map [(.string "a", .map [(.int 1, .bool true)]), (.nil, .array [.map []])]
    let src := Cursor.ofValue v
    let r := (s.decode 9 .dynamic (.dynamic .nil)).run schema src (.empty true)
    (Registry.empty true).Reachable schema ∧ (Registry.empty false).Reachable schema ∧
      (r.answer.map fun e => e.result.toBool) = some true ∧
      r.Alike (((plain schema).decode 9 .dynamic (.dynamic .nil)).run schema src (.empty false)) := by
  intro schema s v src r
  have hr : (Registry.empty true).Reachable schema := .empty true
  have hr' : (Registry.empty false).Reachable schema := .empty false
  exact ⟨hr, hr', by decide +kernel, (pairs_changes_nothing hr hr' src).1 9 .dynamic (.dynamic .nil)⟩

end Setup

end Decant
