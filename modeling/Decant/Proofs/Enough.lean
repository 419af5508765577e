import Decant.Proofs.OneWalk

/-!
# Enough steps

* `Setup.Ends` — a decoding that comes to an end, given enough steps. One budget for which it gives
  an answer is enough to know that (`Setup.ends_of_answer`).
* `Schema.Grounded` — types that decode by hand do not go round in circles without asking the source
  for anything.
* `Setup.direct_lasts` — the budget of steps lasts for as many calls as one likes, if it is large
  enough.
-/

namespace Decant

/-! ## Ends -/

namespace Setup

open Decoding

variable {σ : Type} [TokenSource σ] {s : Setup} {t : Ty} {dest : Content} {src : σ}
  {reg : Registry}

/-- Decoding ends, and shows as a given run, once there are enough steps. -/
def Ends (s : Setup) (t : Ty) (dest : Content) (src : σ) (reg : Registry)
    (r : Run σ (Ending Content Unit)) : Prop :=
  r.answer ≠ none ∧ ∃ n, ∀ m ≥ n, ((s.decode m t dest).run s.schema src reg).Alike r

theorem decodeDirect_same {short : Prop} {n m : Nat} (h : Steps short n m) (t : Ty) :
    Same s.schema short (s.decodeDirect n t) (s.decodeDirect m t) :=
  ((s.direct_same h t).bind fun _ => .pure ()).truncated

/-- A decoding that gives an answer within some budget of steps ends so. -/
theorem ends_of_answer (hr : reg.Sound s.schema) {n : Nat}
    (h : ((s.decodeDirect n t dest).run s.schema src (.empty false)).answer ≠ none) :
    s.Ends t dest src reg ((s.decodeDirect n t dest).run s.schema src (.empty false)) := by
  refine ⟨h, n, fun m hm => ?_⟩
  have hs : Steps True n m := ⟨hm, .inl trivial⟩
  have hd : Same s.schema True (s.decodeDirect n t) (s.decodeDirect m t) := decodeDirect_same hs t
  have he : (Registry.empty false).Sound s.schema := Registry.sound_empty _ _
  rcases (hd dest).run src he (.empty false) with ⟨-, hn⟩ | ha
  · exact absurd hn h
  · exact (s.decode_alike_direct hr m t dest src).trans ha.symm

/-- There is only one way to end. -/
theorem Ends.alike {r q : Run σ (Ending Content Unit)} {reg' : Registry}
    (hr : reg.Sound s.schema) (hr' : reg'.Sound s.schema) (h : s.Ends t dest src reg r)
    (h' : s.Ends t dest src reg' q) : r.Alike q := by
  obtain ⟨-, n, hn⟩ := h
  obtain ⟨-, m, hm⟩ := h'
  have ha := s.decode_alike_direct hr (max n m) t dest src
  have ha' := s.decode_alike_direct hr' (max n m) t dest src
  exact ((hn _ (Nat.le_max_left n m)).symm.trans ha).trans
    (ha'.symm.trans (hm _ (Nat.le_max_right n m)))

end Setup

/-! ## Steps that last -/

namespace Setup

/-- The budget of steps lasts for a number of calls: each call costs at most as many steps as a type
can lie in front of what is decoded next, given a set of types that is closed under what their plans
decode. -/
theorem direct_lasts {s : Schema} (hs : s.DecodesOne) {P : Ty → Prop} {height : Ty → Nat} {b : Nat}
    (hb : ∀ t, P t → height t < b)
    (hP : ∀ t, P t → (s.plan t).Decodes (fun u => P u ∧ height u < height t) P) :
    ∀ (n k : Nat) (t : Ty), P t → k * b + height t < n → ((plain s).direct n t).Obeys k
  | n + 1, k, t, ht, hn => by
    have hkb : k ≤ k * b := Nat.le_mul_of_pos_right k (Nat.zero_lt_of_lt (hb t ht))
    refine Plan.run_obeys s (fun routine h => ?_) ?_ (by omega) t
    · obtain ⟨name, initial, uses, rfl, hd⟩ := Schema.plan_custom h
      exact hs name initial uses routine hd
    · refine (hP t ht).mono (fun u hu => ?_) fun u hu => ?_
      · exact direct_lasts hs hb hP n k u hu.1 (by omega)
      · cases k with
        | zero => exact direct_obeys hs n u
        | succ k =>
          have hu' := hb u hu
          rw [Nat.succ_mul] at hn
          exact direct_lasts hs hb hP n k u hu (by omega)

end Setup

/-! ## Schemas without circles -/

/-- How many types lie in front of what a type decodes first: optional contents and boxes, and then
the rank of a defined type. -/
def Ty.height (rank : String → Nat) : Ty → Nat
  | .option t | .box t => t.height rank + 1
  | .named name => rank name
  | _ => 0

theorem Ty.height_le {rank : String → Nat} {b : Nat} (h : ∀ name, rank name ≤ b) (t : Ty) :
    t.height rank ≤ t.size + b := by
  induction t with
  | option t ih => simp only [height, size]; omega
  | box t ih => simp only [height, size]; omega
  | named name => exact Nat.le_trans (h name) (Nat.le_add_left ..)
  | _ => exact Nat.zero_le _

theorem Ty.height_mono {rank rank' : String → Nat} (h : ∀ name, rank name ≤ rank' name) (t : Ty) :
    t.height rank ≤ t.height rank' := by
  induction t with
  | option t ih => exact Nat.succ_le_succ ih
  | box t ih => exact Nat.succ_le_succ ih
  | named name => exact h name
  | _ => exact Nat.le_refl 0

theorem Fields.mem_of_get?_ofList {α : Type} {entries : List (String × α)} {name : String} {x : α}
    (h : (Fields.ofList entries).get? name = some x) : ∃ entry ∈ entries, entry.2 = x := by
  have hfold : ∀ (es : List (String × α)) (f : Fields α),
      (es.foldl (fun f e => f.insert e.1 e.2) f).get? name = some x →
        f.get? name = some x ∨ ∃ entry ∈ es, entry.2 = x := by
    intro es
    induction es with
    | nil => exact fun f h => .inl h
    | cons e es ih =>
      intro f h
      rcases ih (f.insert e.1 e.2) h with h | ⟨entry, he, hx⟩
      · rw [get?_insert] at h
        split at h
        · exact .inr ⟨e, List.mem_cons_self, Option.some.inj h⟩
        · exact .inl h
      · exact .inr ⟨entry, List.mem_cons_of_mem e he, hx⟩
  rcases hfold entries empty h with h | h
  · rw [get?_empty] at h
    cases h
  · exact h

namespace Definition

/-- A slot decodes into a member only if the member was registered, and then as the type of that member. -/
theorem slot_eq_member {members : List Member} {target : Target} {i : Nat} {t : Ty}
    (h : slot members target = .member i t) :
    target = .member i ∧ members[i]?.map (·.ty) = some t := by
  unfold Definition.slot at h
  cases target with
  | unsupported path => cases h
  | member j =>
    simp only at h
    split at h
    · rename_i m hm
      cases h
      exact ⟨rfl, by rw [hm, Option.map_some]⟩
    · cases h

theorem slot_member {members : List Member} {target : Target} {i : Nat} {t : Ty}
    (h : slot members target = .member i t) : t ∈ members.map (·.ty) := by
  obtain ⟨m, hm, rfl⟩ := Option.map_eq_some_iff.1 (slot_eq_member h).2
  exact List.mem_map_of_mem (List.mem_of_getElem? hm)

end Definition

namespace Schema

variable {s : Schema}

/-- Types that decode by hand rank above the types that they decode before the source was asked for
anything, so they do not go round in circles. What they decode is listed. -/
def RankedBy (s : Schema) (rank : String → Nat) : Prop :=
  ∀ name initial uses routine, s.find? name = some (.custom initial uses routine) →
    routine.Decodes (fun t => t ∈ uses ∧ t.height rank < rank name) (· ∈ uses)

/-- A schema in which nothing goes round in circles. -/
def Grounded (s : Schema) : Prop := ∃ rank, s.RankedBy rank

theorem mem_of_find? {name : String} {d : Definition} (h : s.find? name = some d) :
    (name, d) ∈ s.definitions := by
  obtain ⟨⟨name', d'⟩, he, rfl⟩ := Option.map_eq_some_iff.1 h
  have hn : name' = name := by simpa using List.find?_some he
  exact hn ▸ List.mem_of_find?_eq_some he

theorem size_le_of_mem_types {name : String} {d : Definition} (h : s.find? name = some d) {u : Ty}
    (hu : u ∈ d.types) : u.size ≤ s.size := by
  have hd : total Ty.size d.types + 1 ≤ s.size :=
    le_total_of_mem (fun d => total Ty.size d.2.types + 1) (mem_of_find? h)
  have hs : u.size ≤ total Ty.size d.types := le_total_of_mem Ty.size hu
  omega

/-- The ranks that matter are bounded. -/
theorem RankedBy.bounded {rank : String → Nat} (h : s.RankedBy rank) :
    ∃ rank' b, s.RankedBy rank' ∧ ∀ name, rank' name ≤ b := by
  let b := total (fun d => rank d.1) s.definitions
  refine ⟨fun name => min (rank name) b, b, ?_, fun name => Nat.min_le_right _ b⟩
  intro name initial uses routine hf
  have hr : rank name ≤ b := le_total_of_mem (fun d => rank d.1) (mem_of_find? hf)
  refine (h name initial uses routine hf).mono (fun u hu => ⟨hu.1, ?_⟩) fun u hu => hu
  have hu' : u.height (fun name => min (rank name) b) ≤ u.height rank :=
    Ty.height_mono (fun name => Nat.min_le_left (rank name) b) u
  show u.height _ < min (rank name) b
  rw [Nat.min_eq_left hr]
  exact Nat.lt_of_le_of_lt hu' hu.2

theorem mem_types_of_slot {members : List Member} {registrations : List (String × Target)}
    {name : String} {i : Nat} {t : Ty}
    (h : (Fields.ofList (registrations.map fun r => (r.1, Definition.slot members r.2))).get? name =
      some (.member i t)) : t ∈ members.map (·.ty) := by
  obtain ⟨entry, he, hx⟩ := Fields.mem_of_get?_ofList h
  obtain ⟨r, _, rfl⟩ := List.mem_map.1 he
  exact Definition.slot_member hx

/-- Types up to a size are closed under what their plans decode. -/
theorem plan_decodes {rank : String → Nat} {b : Nat} (h : s.RankedBy rank) (hb : s.size < b)
    {t : Ty} (ht : t.size ≤ b) :
    (s.plan t).Decodes (fun u => u.size ≤ b ∧ u.height rank < t.height rank) (·.size ≤ b) := by
  have hone : 1 ≤ b := by omega
  cases t with
  | dynamic => exact hone
  | list item =>
    simp only [plan]
    split
    · trivial
    · exact Nat.le_of_succ_le ht
  | array item n => exact ⟨Nat.le_of_succ_le ht, hone⟩
  | map kind key value =>
    simp only [Ty.size] at ht
    cases kind with
    | hashed =>
      simp only [plan]
      split
      · exact ⟨hone, by omega⟩
      · exact ⟨by omega, by omega⟩
    | sorted => exact ⟨by omega, by omega⟩
  | option inner => exact ⟨Nat.le_of_succ_le ht, Nat.lt_succ_self _⟩
  | box inner => exact ⟨Nat.le_of_succ_le ht, Nat.lt_succ_self _⟩
  | named name =>
    simp only [plan]
    split
    · rename_i d hd
      have hsize : ∀ u ∈ d.types, u.size ≤ b := fun u hu => by
        have := size_le_of_mem_types hd hu
        omega
      cases d with
      | record members registrations own =>
        exact ⟨hone, fun name n u hu => hsize u (mem_types_of_slot hu)⟩
      | custom initial uses routine =>
        exact (h name initial uses routine hd).mono (fun u hu => ⟨hsize u hu.1, hu.2⟩) hsize
      | _ => trivial
    · trivial
  | _ => trivial

end Schema

namespace Setup

/-- Where nothing goes round in circles, the budget of steps lasts for as many calls as one likes. -/
theorem direct_enough {s : Schema} (hs : s.DecodesOne) (hg : s.Grounded) (t : Ty) (k : Nat) :
    ∃ n, ((plain s).direct n t).Obeys k := by
  obtain ⟨_, h⟩ := hg
  obtain ⟨rank, b, hr, hb⟩ := h.bounded
  let size := t.size + s.size + 1
  have hheight : ∀ u : Ty, u.size ≤ size → u.height rank < size + b + 1 := by
    intro u hu
    have := u.height_le hb
    omega
  refine ⟨k * (size + b + 1) + t.height rank + 1, ?_⟩
  refine direct_lasts hs hheight (fun u hu => ?_) _ k t (by omega) (Nat.lt_succ_self _)
  exact Schema.plan_decodes hr (by omega) hu

/-- Values of no fixed type are decoded by a strategy for which the budget lasts in any schema. -/
theorem direct_dynamic_enough {s : Schema} (hs : s.DecodesOne) (k : Nat) :
    ∃ n, ((plain s).direct n .dynamic).Obeys k := by
  refine ⟨k * 1 + 0 + 1, ?_⟩
  have hdyn : ∀ u : Ty, u = .dynamic →
      (s.plan u).Decodes (fun v => v = .dynamic ∧ 0 < 0) (· = .dynamic) := by
    rintro _ rfl
    rfl
  exact direct_lasts hs (fun _ _ => Nat.one_pos) hdyn _ k .dynamic rfl (Nat.lt_succ_self _)

end Setup

end Decant
