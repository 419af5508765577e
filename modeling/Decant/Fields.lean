/-!
# Name tables

* `Fields` — a table from encoded field names to what decodes them; each name occurs once.
* `Fields.get?_insert` — a later registration of a name takes the place of the earlier one.
* `Fields.size_insert` — registering grows the table by one exactly if the name is new.
-/

namespace Decant

/-- A table from names to registrations; each name occurs once. -/
structure Fields (α : Type) where
  entries : List (String × α)
  nodup : (entries.map (·.1)).Nodup

namespace Fields

variable {α : Type}

/-- The table without names. -/
def empty : Fields α := ⟨[], List.nodup_nil⟩

/-- What is registered under a name. -/
def get? (f : Fields α) (name : String) : Option α :=
  (f.entries.find? fun entry => entry.1 == name).map (·.2)

/-- Register under a name, in place of what was registered there before. -/
def insert (f : Fields α) (name : String) (x : α) : Fields α where
  entries := (name, x) :: f.entries.filter fun entry => entry.1 != name
  nodup := by
    rw [List.map_cons, List.nodup_cons]
    refine ⟨?_, f.nodup.sublist (List.filter_sublist.map _)⟩
    intro h
    obtain ⟨entry, he, hname⟩ := List.mem_map.1 h
    have := (List.mem_filter.1 he).2
    rw [hname] at this
    simp at this

/-- Whether a name is registered. -/
def contains (f : Fields α) (name : String) : Bool := (f.get? name).isSome

/-- The number of names. -/
def size (f : Fields α) : Nat := f.entries.length

/-- Whether no name is registered. -/
def isEmpty (f : Fields α) : Bool := f.entries.isEmpty

/-- Register under names one after the other. -/
def ofList (entries : List (String × α)) : Fields α :=
  entries.foldl (fun f entry => f.insert entry.1 entry.2) empty

theorem get?_empty (name : String) : (empty : Fields α).get? name = none := rfl

theorem get?_insert (f : Fields α) (name other : String) (x : α) :
    (f.insert name x).get? other = if name = other then some x else f.get? other := by
  unfold insert get?
  by_cases h : name = other
  · simp [h]
  · rw [if_neg h, List.find?_cons_of_neg (by simpa using h), List.find?_filter]
    congr 2
    funext entry
    by_cases he : entry.1 = other
    · simp [he, Ne.symm h]
    · simp [he]

theorem contains_iff {f : Fields α} {name : String} :
    f.contains name = true ↔ name ∈ f.entries.map (·.1) := by
  unfold contains get?
  rw [Option.isSome_map, List.find?_isSome, List.mem_map]
  simp

private theorem length_filter_ne {entries : List (String × α)} {name : String}
    (h : (entries.map (·.1)).Nodup) (hm : name ∈ entries.map (·.1)) :
    (entries.filter fun entry => entry.1 != name).length + 1 = entries.length := by
  induction entries with
  | nil => simp at hm
  | cons entry entries ih =>
    rw [List.map_cons, List.nodup_cons] at h
    rw [List.map_cons, List.mem_cons] at hm
    by_cases he : entry.1 = name
    · have hall : ∀ e ∈ entries, (e.1 != name) = true := by
        intro e hin
        have : e.1 ≠ name := fun hn =>
          h.1 (by rw [he, ← hn]; exact List.mem_map_of_mem hin)
        simpa using this
      rw [List.filter_cons_of_neg (by simp [he]), List.filter_eq_self.2 hall, List.length_cons]
    · have hin := hm.resolve_left (Ne.symm he)
      rw [List.filter_cons_of_pos (by simpa using he), List.length_cons, List.length_cons,
        ih h.2 hin]

theorem size_insert (f : Fields α) (name : String) (x : α) :
    (f.insert name x).size = if f.contains name then f.size else f.size + 1 := by
  unfold insert size
  rw [List.length_cons]
  split
  · rename_i h
    exact length_filter_ne f.nodup (contains_iff.1 h)
  · rename_i h
    rw [List.filter_eq_self.2]
    intro entry he
    have hne : entry.1 ≠ name := fun hn =>
      h (contains_iff.2 (by rw [← hn]; exact List.mem_map_of_mem he))
    simpa using hne

end Fields

end Decant
