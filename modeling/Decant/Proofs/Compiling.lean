import Decant.Decoder

/-!
# What a registry holds

* `Compiled.Of` — what compiling a type can leave: its plan, where every nested type that was
  captured is a compiled type in turn. Which nested types were captured is left open, since it
  depends on the registry and on the types being compiled at the time.
* `Registry.Sound` — a registry holds nothing else. Compiling (`compile_sound`), resolving
  (`resolve_sound`) and any dialogue (`Dialogue.run_sound`) keep that.
* `Registry.Reachable` — the registries that start empty and have been used by dialogues; they are
  sound (`Registry.Reachable.sound`).
-/

namespace Decant

/-- What compiling a type can leave. -/
inductive Compiled.Of (s : Schema) : Ty → Compiled → Prop
  | mk (t : Ty) {links : List (Ty × Link Compiled)}
      (h : ∀ u g, (u, .captured g) ∈ links → Compiled.Of s u g) : Compiled.Of s t ⟨s.plan t, links⟩

namespace Compiled

variable {s : Schema} {t : Ty} {f : Compiled}

theorem Of.plan_eq (h : Of s t f) : f.plan = s.plan t := by
  cases h; rfl

theorem Of.captured (h : Of s t f) {u : Ty} {g : Compiled} (hl : f.link u = .captured g) :
    Of s u g := by
  obtain @⟨_, links, h⟩ := h
  unfold link at hl
  cases hf : links.find? (fun l => l.1 == u) with
  | none => rw [hf] at hl; cases hl
  | some l =>
    rw [hf] at hl
    obtain ⟨v, k⟩ := l
    have hv : v = u := by simpa using List.find?_some hf
    simp only [Option.map_some, Option.getD_some] at hl
    subst hv hl
    exact h v g (List.mem_of_find?_eq_some hf)

end Compiled

namespace Registry

variable {s : Schema} {r : Registry}

/-- Every stored type is compiled as the schema says. -/
def Sound (s : Schema) (r : Registry) : Prop := ∀ entry ∈ r.compiled, Compiled.Of s entry.1 entry.2

theorem sound_empty (s : Schema) (eager : Bool) : (empty eager).Sound s := by
  intro entry h
  cases h

theorem Sound.insert (h : r.Sound s) {t : Ty} {f : Compiled} (hf : Compiled.Of s t f) :
    (r.insert t f).Sound s := by
  intro entry he
  rcases List.mem_append.1 he with he | he
  · exact h entry he
  · rw [List.mem_singleton.1 he]
    exact hf

theorem Sound.find? (h : r.Sound s) {t : Ty} {f : Compiled} (hf : r.find? t = some f) :
    Compiled.Of s t f := by
  obtain ⟨entry, he, rfl⟩ := Option.map_eq_some_iff.1 hf
  have ht : entry.1 = t := by simpa using List.find?_some he
  exact ht ▸ h entry (List.mem_of_find?_eq_some he)

/-- Linking gives captured types only if they are compiled, and keeps the registry sound. -/
def LinksSoundly (s : Schema) (link : Ty → Registry → Link Compiled × Registry) : Prop :=
  ∀ u r, r.Sound s →
    (∀ g, (link u r).1 = .captured g → Compiled.Of s u g) ∧ (link u r).2.Sound s

theorem linkAll_sound {link : Ty → Registry → Link Compiled × Registry} (hl : LinksSoundly s link) :
    ∀ (us : List Ty) {r : Registry}, r.Sound s →
      (∀ u g, (u, .captured g) ∈ (linkAll link us r).1 → Compiled.Of s u g) ∧
        (linkAll link us r).2.Sound s
  | [], _, h => ⟨nofun, h⟩
  | u :: us, r, h => by
    obtain ⟨hu, hr⟩ := hl u r h
    obtain ⟨hus, hr'⟩ := linkAll_sound hl us hr
    refine ⟨fun v g hm => ?_, hr'⟩
    rcases List.mem_cons.1 hm with hm | hm
    · obtain ⟨rfl, hg⟩ := Prod.mk.inj hm
      exact hu g hg.symm
    · exact hus v g hm

theorem link_sound {compile : Ty → Registry → Compiled × Registry}
    (hc : ∀ u r, r.Sound s → Compiled.Of s u (compile u r).1 ∧ (compile u r).2.Sound s)
    (building : List Ty) : LinksSoundly s (link compile building) := by
  intro u r h
  unfold link
  split
  · split
    · rename_i f hf
      exact ⟨fun g hg => Link.captured.inj hg ▸ h.find? hf, h⟩
    · split
      · exact ⟨nofun, h⟩
      · exact ⟨fun g hg => Link.captured.inj hg ▸ (hc u r h).1, (hc u r h).2⟩
  · exact ⟨nofun, h⟩

theorem compile_sound (s : Schema) : ∀ (n : Nat) (building : List Ty) (t : Ty) {r : Registry},
    r.Sound s → Compiled.Of s t (compile s n building t r).1 ∧ (compile s n building t r).2.Sound s
  | 0, _, t, _, h => ⟨.mk t nofun, h⟩
  | n + 1, building, t, r, h => by
    obtain ⟨hlinks, hr⟩ :=
      linkAll_sound (link_sound (fun u r h => compile_sound s n (t :: building) u h) (t :: building))
        (s.plan t).nested h
    exact ⟨.mk t hlinks, hr.insert (.mk t hlinks)⟩

theorem resolve_sound (h : r.Sound s) (t : Ty) :
    Compiled.Of s t (r.resolve s t).1 ∧ (r.resolve s t).2.Sound s := by
  unfold resolve
  split
  · rename_i f hf
    exact ⟨h.find? hf, h⟩
  · exact compile_sound s _ [] t h

end Registry

/-- Whatever a dialogue resolves, the registry stays sound. -/
theorem Dialogue.run_sound {σ α : Type} [TokenSource σ] {s : Schema} (d : Dialogue α) (src : σ)
    {reg : Registry} (h : reg.Sound s) : (d.run s src reg).registry.Sound s := by
  induction d generalizing src reg with
  | done a => exact h
  | exhausted => exact h
  | ask c next ih => exact ih _ _ h
  | resolve t next ih => exact ih _ _ (Registry.resolve_sound h t).2
  | note n rest ih => exact ih _ h

namespace Registry

/-- A registry that started empty and has been used by any number of dialogues, with any sources. -/
inductive Reachable (s : Schema) : Registry → Prop
  | empty (eager : Bool) : Reachable s (.empty eager)
  | led {σ α : Type} [TokenSource σ] {r : Registry} (h : Reachable s r) (d : Dialogue α) (src : σ) :
      Reachable s (d.run s src r).registry

theorem Reachable.sound {s : Schema} {r : Registry} (h : Reachable s r) : r.Sound s := by
  induction h with
  | empty eager => exact sound_empty s eager
  | led _ d src ih => exact d.run_sound src ih

end Registry

end Decant
