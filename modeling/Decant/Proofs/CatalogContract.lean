import Decant.Catalog
import Decant.Proofs.Contract
import Decant.Source.Script

/-!
# The contract of the catalog

* `Catalog.schema_byHand` — four definitions of the catalog decode by hand.
* `Catalog.schema_decodesOne` — the types of the catalog that decode by hand decode one value each.
* `Catalog.schema_careful` — they let every failure through.
-/

namespace Decant

/-- Whether a type decodes by hand. -/
def Definition.isCustom : Definition → Bool
  | custom _ _ _ => true
  | _ => false

namespace Catalog

/-- Taking one value and keeping it. -/
theorem keeps_collect {t : Ty} {initial : Content} {Q : Progress → Option Error → Work → Prop}
    {w : Work} (ht : ∀ w', Q .taken none w') (hb : ∀ e, Q .broken (some e) w) :
    (collect t initial).Keeps Q .ready w :=
  ⟨rfl, fun _ => ⟨ht _, hb⟩⟩

theorem range_decodesOne {initial : Content} {uses : List Ty} {routine : Routine Work .decoder}
    (h : range = .custom initial uses routine) : routine.DecodesOne := by
  cases h
  intro c
  refine ⟨rfl, fun _ _ => True, trivial, fun i w _ => ⟨?_, fun tag => ?_, fun e => nofun⟩⟩
  · exact keeps_collect (fun _ => ⟨rfl, trivial⟩) fun e => nofun
  · simp only [Routine.block, Routine.Keeps]
    generalize (if tag = .nil then ({ w with scratch := .absent } : Work)
      else { w with scratch := .present w.scratch }) = w'
    split
    · exact fun _ => rfl
    · exact nofun
    · exact fun _ => rfl

theorem pairs_decodesOne {initial : Content} {uses : List Ty} {routine : Routine Work .decoder}
    (h : pairs = .custom initial uses routine) : routine.DecodesOne := by
  cases h
  intro c
  refine ⟨rfl, fun _ _ => True, trivial, fun i w _ => ⟨?_, fun tag _ => rfl, fun e => nofun⟩⟩
  refine ⟨rfl, keeps_collect (fun w => ⟨rfl, keeps_collect (fun w => ⟨rfl, trivial⟩) ?_⟩) ?_⟩
  · exact fun e => nofun
  · exact fun e => nofun

theorem echo_decodesOne {initial : Content} {uses : List Ty} {routine : Routine Work .decoder}
    (h : echo = .custom initial uses routine) : routine.DecodesOne := by
  cases h
  exact fun c => ⟨rfl, fun _ => ⟨fun _ => rfl, fun e => nofun⟩⟩

theorem ender_decodesOne {initial : Content} {uses : List Ty} {routine : Routine Work .decoder}
    (h : ender = .custom initial uses routine) : routine.DecodesOne := by
  cases h
  intro c
  refine ⟨rfl, fun c => ⟨?_, fun e => nofun⟩⟩
  cases c with
  | int n =>
    show Routine.Keeps (if n < 0 then _ else _) _ _ _
    split
    · exact nofun
    · exact fun _ => rfl
  | _ => exact fun _ => rfl

/-- The definitions of types that decode by hand. -/
def byHand : List Definition := [range, pairs, echo, ender]

/-- The wrappers of the catalog are records. -/
theorem wrappers_record : ∀ {n : Nat} {names : List String} {entry : String × Definition},
    entry ∈ wrappers n names → ∃ t, entry.2 = wrapper t
  | 0, _, _, h => by cases h
  | n + 1, names, entry, h => by
    obtain ⟨name, _, h⟩ := List.mem_flatMap.1 h
    split at h
    · rename_i t _
      rcases List.mem_cons.1 h with rfl | h
      · exact ⟨t, rfl⟩
      · exact wrappers_record h
    · cases h

/-- A definition of the catalog that is not one of a wrapper is one of those written down. -/
theorem schema_mem (types : List Ty) {p : Definition → Bool} (hp : ∀ t, p (wrapper t) = false)
    {name : String} {d : Definition} (h : (schema types).find? name = some d) (hd : p d = true) :
    d ∈ (definitions.filter fun entry => p entry.2).map (·.2) := by
  obtain ⟨entry, he, rfl⟩ := Option.map_eq_some_iff.1 h
  rcases List.mem_append.1 (List.mem_of_find?_eq_some he) with he | he
  · exact List.mem_map_of_mem (List.mem_filter.2 ⟨he, hd⟩)
  · obtain ⟨t, ht⟩ := wrappers_record he
    rw [ht, hp] at hd
    cases hd

/-- No type of the catalog decodes by hand but these. -/
theorem schema_byHand (types : List Ty) {name : String} {initial : Content} {uses : List Ty}
    {routine : Routine Work .decoder}
    (h : (schema types).find? name = some (.custom initial uses routine)) :
    .custom initial uses routine ∈ byHand := by
  have hfilter : (definitions.filter fun entry => entry.2.isCustom).map (·.2) = byHand := rfl
  rw [← hfilter]
  exact schema_mem types (fun _ => rfl) h rfl

theorem schema_custom (types : List Ty) {name : String} {initial : Content} {uses : List Ty}
    {routine : Routine Work .decoder}
    (h : (schema types).find? name = some (.custom initial uses routine)) :
    .custom initial uses routine = range ∨ .custom initial uses routine = pairs ∨
      .custom initial uses routine = echo ∨ .custom initial uses routine = ender := by
  have hmem := schema_byHand types h
  unfold byHand at hmem
  simpa using hmem

/-- **Every type of the catalog that decodes by hand decodes one value.** -/
theorem schema_decodesOne (types : List Ty) : (schema types).DecodesOne := by
  intro name initial uses routine h
  rcases schema_custom types h with h | h | h | h
  · exact range_decodesOne h.symm
  · exact pairs_decodesOne h.symm
  · exact echo_decodesOne h.symm
  · exact ender_decodesOne h.symm

/-- The types of the catalog that decode by hand let every failure through. -/
theorem schema_careful (types : List Ty) {name : String} {initial : Content} {uses : List Ty}
    {routine : Routine Work .decoder}
    (h : (schema types).find? name = some (.custom initial uses routine)) : routine.Careful := by
  rcases schema_custom types h with h | h | h | h <;> cases h
  · refine .seq (.update _) (.seq (.array (fun _ => .decode ..) _) (.seq (.choose fun w => ?_) .skip))
    split
    · exact .update _
    · exact .fail _
    · exact .update _
  · refine .map (fun _ => ?_) _
    exact .seq (.update _) (.seq (.key (.decode ..)) (.seq (.value (.decode ..))
      (.seq (.update _) .skip)))
  · exact .decode ..
  · refine .seq (.decode ..) (.seq (.choose fun w => ?_) .skip)
    split
    · split
      · exact .fail _
      · exact .skip
    · exact .skip

/-- A map with one entry whose length is not declared. -/
def onePair : Script :=
  ⟨[.enter .map none, .next, .string "a".toUTF8, .value, .int 1, .stop, .close]⟩

end Catalog

end Decant
