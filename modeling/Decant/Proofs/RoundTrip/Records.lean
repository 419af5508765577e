import Decant.Proofs.RoundTrip.Decoders

/-!
# Records, member by member

* `Piece` — a registered member of a record, with what it holds and the value of that.
* `Pieces` — how the pieces of a record go with its definition and with its contents.
* `Decoding.record_takes` — a record takes the map of its pieces, in any order, if the strategies of the
  members take their values.
-/

namespace Decant

theorem Fields.get?_ofList {α : Type} {entries : List (String × α)} {name : String} {x : α}
    (hn : (entries.map (·.1)).Nodup) (h : (name, x) ∈ entries) :
    (Fields.ofList entries).get? name = some x := by
  induction entries using List.reverseRecOn with
  | nil => cases h
  | append_singleton entries e ih =>
    have hinsert : Fields.ofList (entries ++ [e]) = (Fields.ofList entries).insert e.1 e.2 := by
      rw [Fields.ofList, List.foldl_append]
      rfl
    rw [hinsert, Fields.get?_insert]
    rw [List.map_append, List.nodup_append] at hn
    rcases List.mem_append.1 h with h | h
    · have hne : e.1 ≠ name := fun he =>
        hn.2.2 name (List.mem_map_of_mem (f := (·.1)) h) e.1 (by simp) he.symm
      rw [if_neg hne]
      exact ih hn.1 h
    · obtain rfl : (name, x) = e := by simpa using h
      rw [if_pos rfl]

/-- A registered member of a record: the name it is registered under, its position and its type, what it
holds before decoding and after it, and the value of that. -/
structure Piece where
  name : String
  index : Nat
  ty : Ty
  prior : Content
  content : Content
  value : Value

/-- The entry of a member in the value of a record. -/
def Piece.encoded (p : Piece) : Value × Value := (.string p.name, p.value)

/-- How the members of a record are registered and what they hold. A record that is derived has no two
members under one name and none under two. -/
structure Pieces (members : List Member) (registrations : List (String × Target))
    (priors contents : List Content) (ps : List Piece) : Prop where
  unique : (registrations.map (·.1)).Nodup
  apart : (ps.map (·.index)).Nodup
  /-- The members may come in another order than they were registered in. -/
  registered : (ps.map fun p => (p.name, Target.member p.index)).Perm registrations
  ty : ∀ p ∈ ps, members[p.index]?.map (·.ty) = some p.ty
  prior : ∀ p ∈ ps, priors[p.index]? = some p.prior
  content : ∀ p ∈ ps, contents[p.index]? = some p.content
  /-- A member that is not registered stays as it is. -/
  kept : ∀ i, (∀ p ∈ ps, p.index ≠ i) → contents[i]? = priors[i]?

/-! ## Members of which some were decoded -/

/-- Members of which some were decoded. -/
def Piece.fill (priors : List Content) (ps : List Piece) : List Content :=
  ps.foldl (fun made p => made.set p.index p.content) priors

section fill

variable {priors contents : List Content} {ps : List Piece}

theorem Piece.fill_append (p : Piece) :
    Piece.fill priors (ps ++ [p]) = (Piece.fill priors ps).set p.index p.content := by
  rw [Piece.fill, List.foldl_append]
  rfl

theorem Piece.length_fill : (Piece.fill priors ps).length = priors.length := by
  induction ps using List.reverseRecOn with
  | nil => rfl
  | append_singleton ps p ih => rw [Piece.fill_append, List.length_set, ih]

theorem Piece.getElem?_fill_of_ne {i : Nat} (h : ∀ p ∈ ps, p.index ≠ i) :
    (Piece.fill priors ps)[i]? = priors[i]? := by
  induction ps using List.reverseRecOn with
  | nil => rfl
  | append_singleton ps p ih =>
    have hp : p.index ≠ i := h p (List.mem_append_right _ List.mem_cons_self)
    rw [Piece.fill_append, List.getElem?_set_ne hp]
    exact ih fun q hq => h q (List.mem_append_left _ hq)

theorem Piece.getElem?_fill_of_mem {p : Piece} (ha : (ps.map (·.index)).Nodup) (hp : p ∈ ps)
    (hlt : p.index < priors.length) : (Piece.fill priors ps)[p.index]? = some p.content := by
  induction ps using List.reverseRecOn with
  | nil => cases hp
  | append_singleton ps q ih =>
    rw [Piece.fill_append]
    rw [List.map_append, List.nodup_append] at ha
    rcases List.mem_append.1 hp with hp | hp
    · have hne : q.index ≠ p.index := fun h =>
        ha.2.2 p.index (List.mem_map_of_mem hp) q.index (by simp) h.symm
      rw [List.getElem?_set_ne hne]
      exact ih ha.1 hp
    · obtain rfl : p = q := by simpa using hp
      rw [List.getElem?_set_self (by rwa [Piece.length_fill])]

end fill

section pieces

variable {members : List Member} {registrations : List (String × Target)}
  {priors contents : List Content} {ps : List Piece}

theorem Pieces.slot (h : Pieces members registrations priors contents ps) {p : Piece} (hp : p ∈ ps) :
    (Fields.ofList (registrations.map fun r => (r.1, Definition.slot members r.2))).get? p.name =
      some (.member p.index p.ty) := by
  obtain ⟨m, hm, hty⟩ := Option.map_eq_some_iff.1 (h.ty p hp)
  have hslot : Definition.slot members (.member p.index) = .member p.index p.ty := by
    simp only [Definition.slot, hm, hty]
  have hreg : (p.name, Target.member p.index) ∈ registrations :=
    h.registered.mem_iff.1 (List.mem_map_of_mem (f := fun p => (p.name, Target.member p.index)) hp)
  refine Fields.get?_ofList ?_ ?_
  · rw [List.map_map]
    exact h.unique
  · rw [← hslot]
    exact List.mem_map_of_mem (f := fun r => (r.1, Definition.slot members r.2)) hreg

/-- All members decoded make the contents. -/
theorem Pieces.fill_eq (h : Pieces members registrations priors contents ps) :
    Piece.fill priors ps = contents := by
  apply List.ext_getElem?
  intro i
  by_cases hi : ∃ p ∈ ps, p.index = i
  · obtain ⟨p, hp, rfl⟩ := hi
    have hlt : p.index < priors.length := (List.getElem?_eq_some_iff.1 (h.prior p hp)).1
    rw [Piece.getElem?_fill_of_mem h.apart hp hlt, h.content p hp]
  · have hne : ∀ p ∈ ps, p.index ≠ i := fun p hp he => hi ⟨p, hp, he⟩
    rw [Piece.getElem?_fill_of_ne hne, h.kept i hne]

/-- The member that comes next was not decoded yet. -/
theorem Pieces.next (h : Pieces members registrations priors contents ps) {i : Nat}
    (hi : i < ps.length) : Content.member ps[i].index (.record (Piece.fill priors (ps.take i))) =
      ps[i].prior := by
  have hne : ∀ p ∈ ps.take i, p.index ≠ ps[i].index := by
    have hsplit : ps.take i ++ ps[i] :: ps.drop (i + 1) = ps := by simp
    have ha := h.apart
    rw [← hsplit, List.map_append, List.nodup_append] at ha
    intro p hp
    exact ha.2.2 p.index (List.mem_map_of_mem hp) ps[i].index List.mem_cons_self
  rw [Content.member, Content.members, List.getD_eq_getElem?_getD, Piece.getElem?_fill_of_ne hne,
    h.prior ps[i] (List.getElem_mem hi)]
  rfl

end pieces

/-! ## Decoding a record -/

namespace Decoding

variable {nested : Ty → Strategy} {n : Nat} {members : List Member}
  {registrations : List (String × Target)} {priors contents : List Content} {ps : List Piece}

theorem field_gives (h : Pieces members registrations priors contents ps)
    (ht : ∀ p ∈ ps, (nested p.ty).Takes p.prior p.content p.value) {f : Frame} {i : Nat}
    (hi : i < ps.length) (hf : f = .map (ps.map Piece.encoded)) (stack : List Frame) :
    Gives (field (fun u => pure (nested u)) (fun u => pure (nested u))
        (Fields.ofList (registrations.map fun r => (r.1, Definition.slot members r.2))) i)
      (⟨f.head? i, none, f :: stack⟩ : Cursor) (.record (Piece.fill priors (ps.take i))) ()
      (.record (Piece.fill priors (ps.take (i + 1)))) ⟨none, none, f :: stack⟩ := by
  have hmem := List.getElem_mem hi
  have hstep : Content.record (Piece.fill priors (ps.take (i + 1))) =
      Content.setMember ps[i].index ps[i].content (.record (Piece.fill priors (ps.take i))) := by
    rw [← List.take_append_getElem hi, Piece.fill_append]
    rfl
  have hvalue := ht _ hmem none (f :: stack)
  rw [← h.next hi] at hvalue
  subst hf
  rw [head?_map _ hi, hstep]
  refine Gives.ask (c := .type) (a := .string) rfl ?_
  refine (readString_gives ps[i].name .string _ _).bind ?_
  rw [h.slot hmem]
  refine Gives.ask (c := .toValue i) (Cursor.answer_toValue none rfl (value?_map _ hi)) ?_
  exact hvalue.focus.bind (.pure _ _ _)

theorem record_takes (initial : Content) (h : Pieces members registrations priors contents ps)
    (ht : ∀ p ∈ ps, (nested p.ty).Takes p.prior p.content p.value) (hn : ps.length < n) :
    (record initial (fun u => pure (nested u)) (fun u => pure (nested u)) n
      (Fields.ofList (registrations.map fun r => (r.1, Definition.slot members r.2)))).Takes
      (.record priors) (.record contents) (.map (ps.map Piece.encoded)) := by
  intro cur stack
  let f := Frame.map (ps.map Piece.encoded)
  let S := fun i => Content.record (Piece.fill priors (ps.take i))
  have hlen : f.length = ps.length := List.length_map _
  have hw := walk_gives stack (c := .map) (v := .map (ps.map Piece.encoded)) (S := S) (n := n) rfl rfl
    (hlen.symm ▸ hn) fun i hi => field_gives h ht (hlen ▸ hi) rfl stack
  have hend : S ps.length = .record contents := by
    show Content.record (Piece.fill priors (ps.take ps.length)) = _
    rw [List.take_length, h.fill_eq]
  rw [hlen, hend] at hw
  refine Gives.ask (c := .type) (a := .map) rfl ?_
  exact hw.attempt.bind (.pure _ _ _)

end Decoding

end Decant
