import Decant.Proofs.Cache
import Decant.Proofs.Enough
import Mathlib.Data.List.Nodup
import Mathlib.Data.List.Perm.Subperm
import Mathlib.Logic.Relation

/-!
# What a registry compiles, and when

* `Registry.Links`, `Registry.Resolves` — how a type is compiled, step by step and without a bound on how
  many types are being compiled at once: which types are looked up, which are waited for, and which are
  compiled. The types that are compiled are logged as they are done.
* `Registry.History` — the registries that started empty, with the log of all types compiled since.
* `Registry.resolves` — resolving a type takes these steps, so it comes to an end.
* `Registry.Links.grows`, `Registry.Links.closes`, `Registry.Links.reached` — what the steps leave.
* `Registry.Reachable.compiles_once` — no type is compiled twice, an eager registry holds what its types
  need, and a lazy one compiles what it is asked for.
-/

namespace Decant

namespace Ty

/-- The types in a type, itself included. -/
def parts (t : Ty) : List Ty :=
  t :: match t with
    | list u | array u _ | option u | box u => u.parts
    | map _ k v => k.parts ++ v.parts
    | _ => []

theorem mem_parts (t : Ty) : t ∈ t.parts := by
  unfold parts
  exact List.mem_cons_self

theorem length_parts (t : Ty) : t.parts.length = t.size := by
  induction t with
  | list u ih => simp [parts, size, ih]
  | array u _ ih => simp [parts, size, ih]
  | option u ih => simp [parts, size, ih]
  | box u ih => simp [parts, size, ih]
  | map _ k v ihk ihv => simp [parts, size, ihk, ihv]
  | _ => rfl

theorem parts_trans {t u v : Ty} (hu : u ∈ t.parts) (hv : v ∈ u.parts) : v ∈ t.parts := by
  induction t with
  | list w ih | array w _ ih | option w ih | box w ih =>
    unfold parts at hu ⊢
    rcases List.mem_cons.1 hu with rfl | hu
    · unfold parts at hv
      exact hv
    · exact List.mem_cons_of_mem _ (ih hu)
  | map kind k w ihk ihw =>
    unfold parts at hu ⊢
    rcases List.mem_cons.1 hu with rfl | hu
    · unfold parts at hv
      exact hv
    · rcases List.mem_append.1 hu with hu | hu
      · exact List.mem_cons_of_mem _ (List.mem_append_left _ (ihk hu))
      · exact List.mem_cons_of_mem _ (List.mem_append_right _ (ihw hu))
  | _ =>
    obtain rfl := List.mem_singleton.1 hu
    exact hv

end Ty

namespace Schema

/-- One type is compiled with another in an eager registry. -/
def Nests (s : Schema) (t u : Ty) : Prop := u ∈ (s.plan t).nested

/-- The types that may be met while a type is compiled. -/
def around (s : Schema) (t : Ty) : List Ty :=
  t.parts ++ s.definitions.flatMap fun d => d.2.types.flatMap Ty.parts

theorem length_flatMap_le {α β : Type} {f : α → List β} {g : α → Nat} (h : ∀ x, (f x).length ≤ g x)
    (xs : List α) : (xs.flatMap f).length ≤ total g xs := by
  induction xs with
  | nil => exact Nat.le_refl 0
  | cons x xs ih =>
    rw [List.flatMap_cons, List.length_append]
    exact Nat.add_le_add (h x) ih

theorem length_around (s : Schema) (t : Ty) : (s.around t).length ≤ t.size + s.size := by
  rw [around, List.length_append, Ty.length_parts]
  refine Nat.add_le_add_left (length_flatMap_le (fun d => ?_) s.definitions) _
  exact Nat.le_succ_of_le (length_flatMap_le (fun u => Nat.le_of_eq u.length_parts) d.2.types)

theorem mem_around (s : Schema) (t : Ty) : t ∈ s.around t := List.mem_append_left _ t.mem_parts

/-- What is compiled with a record are types of its members. -/
theorem nested_record {members : List Member} {registrations : List (String × Target)}
    {own : Option Content} {u : Ty}
    (h : u ∈ (Definition.record members registrations own).plan.nested) : u ∈ members.map (·.ty) := by
  obtain ⟨entry, he, hu⟩ := List.mem_filterMap.1 h
  obtain ⟨r, _, rfl⟩ := List.mem_map.1 he
  cases hs : Definition.slot members r.2 with
  | member i t =>
    rw [hs] at hu
    cases hu
    exact Definition.slot_member hs
  | unsupported path =>
    rw [hs] at hu
    cases hu

/-- What is compiled with a type occurs in it, or in a definition. -/
theorem Nests.occurs {s : Schema} {t u : Ty} (h : s.Nests t u) :
    u ∈ t.parts ∨ ∃ d ∈ s.definitions, u ∈ d.2.types := by
  have hinner : ∀ {v w : Ty}, u ∈ [w] → w ∈ v.parts → u ∈ v.parts := fun hu hw =>
    List.mem_singleton.1 hu ▸ hw
  unfold Nests at h
  cases t with
  | list v =>
    simp only [plan] at h
    split at h
    · cases h
    · exact .inl (hinner h (List.mem_cons_of_mem _ v.mem_parts))
  | array v _ | option v | box v => exact .inl (hinner h (List.mem_cons_of_mem _ v.mem_parts))
  | map kind k v =>
    have hboth : u ∈ [k, v] → u ∈ (Ty.map kind k v).parts := by
      intro hu
      rcases List.mem_cons.1 hu with rfl | hu
      · exact List.mem_cons_of_mem _ (List.mem_append_left _ u.mem_parts)
      · exact hinner hu (List.mem_cons_of_mem _ (List.mem_append_right _ v.mem_parts))
    cases kind with
    | sorted => exact .inl (hboth h)
    | hashed =>
      simp only [plan] at h
      split at h
      · cases h
      · exact .inl (hboth h)
  | named name =>
    simp only [plan] at h
    split at h
    · rename_i d hd
      cases d with
      | record members registrations own => exact .inr ⟨_, mem_of_find? hd, nested_record h⟩
      | _ => cases h
    · cases h
  | _ => cases h

theorem around_nests {s : Schema} {t u v : Ty} (hu : u ∈ s.around t) (h : s.Nests u v) :
    v ∈ s.around t := by
  have hparts : ∀ {w : Ty}, w ∈ s.around t → v ∈ w.parts → v ∈ s.around t := by
    intro w hw hv
    rcases List.mem_append.1 hw with hw | hw
    · exact List.mem_append_left _ (Ty.parts_trans hw hv)
    · obtain ⟨d, hd, hw⟩ := List.mem_flatMap.1 hw
      obtain ⟨x, hx, hw⟩ := List.mem_flatMap.1 hw
      exact List.mem_append_right _
        (List.mem_flatMap.2 ⟨d, hd, List.mem_flatMap.2 ⟨x, hx, Ty.parts_trans hw hv⟩⟩)
  rcases h.occurs with hv | ⟨d, hd, hv⟩
  · exact hparts hu hv
  · exact List.mem_append_right _
      (List.mem_flatMap.2 ⟨d, hd, List.mem_flatMap.2 ⟨v, hv, v.mem_parts⟩⟩)

end Schema

namespace Registry

variable {s : Schema} {r r' : Registry} {t u : Ty} {f : Compiled} {building us : List Ty}
  {links : List (Ty × Link Compiled)} {log : List Ty}

theorem find?_eq_none : r.find? t = none ↔ t ∉ r.types := by
  rw [find?, Option.map_eq_none_iff, List.find?_eq_none, types, List.mem_map]
  constructor
  · rintro h ⟨entry, he, rfl⟩
    exact h entry he (beq_self_eq_true _)
  · exact fun h entry he ht => h ⟨entry, he, eq_of_beq ht⟩

theorem mem_of_find? (h : r.find? t = some f) : t ∈ r.types := by
  by_contra ht
  rw [find?_eq_none.2 ht] at h
  cases h

theorem contains_eq_true : r.contains t = true ↔ t ∈ r.types := by
  simp [contains, types]

theorem types_insert : (r.insert t f).types = r.types ++ [t] := by
  simp [insert, types]

theorem find?_insert (ht : t ∉ r.types) : (r.insert t f).find? t = some f := by
  have hnone : r.compiled.find? (fun entry => entry.1 == t) = none :=
    Option.map_eq_none_iff.1 (find?_eq_none.2 ht)
  simp [find?, insert, List.find?_append, hnone]

/-! ## How a type is compiled -/

/-- Store a compiled type, unless one is stored. -/
def keep (r : Registry) (t : Ty) (f : Compiled) : Registry :=
  if r.contains t then r else r.insert t f

/-- What is stored for a type once it was compiled. -/
def kept (r : Registry) (t : Ty) (f : Compiled) : Compiled := ((r.keep t f).find? t).getD f

/-- The types nested in the last of those being built are linked one after the other, which leaves another
registry and a log of the types that were compiled meanwhile. -/
inductive Links (s : Schema) : List Ty → List Ty → Registry → List (Ty × Link Compiled) → Registry →
    List Ty → Prop
  | nil (building : List Ty) (r : Registry) : Links s building [] r [] r []
  /-- A lazy registry leaves nested types for later. -/
  | onDemand {building : List Ty} {u : Ty} {us : List Ty} {r r' : Registry}
      {links : List (Ty × Link Compiled)} {log : List Ty} (he : r.eager = false)
      (h : Links s building us r links r' log) :
      Links s building (u :: us) r ((u, .onDemand) :: links) r' log
  | stored {building : List Ty} {u : Ty} {us : List Ty} {r r' : Registry} {f : Compiled}
      {links : List (Ty × Link Compiled)} {log : List Ty} (he : r.eager = true)
      (hf : r.find? u = some f) (h : Links s building us r links r' log) :
      Links s building (u :: us) r ((u, .captured f) :: links) r' log
  /-- What is being built itself is waited for. -/
  | deferred {building : List Ty} {u : Ty} {us : List Ty} {r r' : Registry}
      {links : List (Ty × Link Compiled)} {log : List Ty} (he : r.eager = true)
      (hf : r.find? u = none) (hb : u ∈ building) (h : Links s building us r links r' log) :
      Links s building (u :: us) r ((u, .deferred) :: links) r' log
  | compiled {building : List Ty} {u : Ty} {us : List Ty} {r q r' : Registry}
      {inner links : List (Ty × Link Compiled)} {done log : List Ty} (he : r.eager = true)
      (hf : r.find? u = none) (hb : u ∉ building)
      (hu : Links s (u :: building) (s.plan u).nested r inner q done)
      (h : Links s building us (q.keep u ⟨s.plan u, inner⟩) links r' log) :
      Links s building (u :: us) r ((u, .captured (q.kept u ⟨s.plan u, inner⟩)) :: links) r'
        (done ++ u :: log)

/-- A type is resolved: it is stored, or else compiled and stored. -/
inductive Resolves (s : Schema) (r : Registry) (t : Ty) : Compiled → Registry → List Ty → Prop
  | stored {f : Compiled} (hf : r.find? t = some f) : Resolves s r t f r []
  | compiled {q : Registry} {links : List (Ty × Link Compiled)} {log : List Ty} (hf : r.find? t = none)
      (h : Links s [t] (s.plan t).nested r links q log) :
      Resolves s r t (q.kept t ⟨s.plan t, links⟩) (q.keep t ⟨s.plan t, links⟩) (log ++ [t])

/-- A registry that started empty, and the log of all types that were compiled since. -/
inductive History (s : Schema) (eager : Bool) : List Ty → Registry → Prop
  | new : History s eager [] (.empty eager)
  | resolve {log new : List Ty} {r r' : Registry} {t : Ty} {f : Compiled} (h : History s eager log r)
      (hr : Resolves s r t f r' new) : History s eager (log ++ new) r'

theorem keep_eq_insert (ht : t ∉ r.types) : r.keep t f = r.insert t f := by
  rw [keep, if_neg (mt contains_eq_true.1 ht)]

theorem kept_eq (ht : t ∉ r.types) : r.kept t f = f := by
  rw [kept, keep_eq_insert ht, find?_insert ht, Option.getD_some]

theorem eager_keep : (r.keep t f).eager = r.eager := by
  unfold keep
  split <;> rfl

/-! ## What the steps leave -/

/-- None of some types is stored, and no type is stored twice. -/
def Lacks (r : Registry) (building : List Ty) : Prop :=
  (∀ b ∈ building, b ∉ r.types) ∧ r.types.Nodup

theorem Lacks.cons (h : r.Lacks building) (hf : r.find? t = none) : r.Lacks (t :: building) :=
  ⟨List.forall_mem_cons.2 ⟨find?_eq_none.1 hf, h.1⟩, h.2⟩

theorem Lacks.head (h : r.Lacks (t :: building)) : t ∉ r.types := h.1 t List.mem_cons_self

theorem Lacks.insert (h : r.Lacks (t :: building)) (ht : t ∉ building) :
    (r.insert t f).Lacks building := by
  constructor
  · intro b hb
    rw [types_insert, List.mem_append, List.mem_singleton, not_or]
    exact ⟨h.1 b (List.mem_cons_of_mem _ hb), fun hbt => ht (hbt ▸ hb)⟩
  · rw [types_insert]
    exact (List.perm_append_singleton t r.types).nodup_iff.2 (List.nodup_cons.2 ⟨h.head, h.2⟩)

/-- **Linking only appends**: to the registry goes what is logged, once each, and none of the types that
are being built is among it. -/
theorem Links.grows (h : Links s building us r links r' log) (hr : r.Lacks building) :
    r'.types = r.types ++ log ∧ r'.Lacks building ∧ r'.eager = r.eager := by
  induction h with
  | nil building r => exact ⟨(List.append_nil _).symm, hr, rfl⟩
  | onDemand _ _ ih | stored _ _ _ ih | deferred _ _ _ _ ih => exact ih hr
  | @compiled building u us r q r' inner links done log _ hf hu _ _ ihu ih =>
    obtain ⟨htypes, hq, heager⟩ := ihu (hr.cons hf)
    rw [keep_eq_insert hq.head] at ih
    obtain ⟨htypes', hr', heager'⟩ := ih (hq.insert hu)
    refine ⟨?_, hr', heager'.trans heager⟩
    rw [htypes', types_insert, htypes, List.append_assoc, List.append_assoc]
    rfl

/-- A lazy registry compiles nothing along. -/
theorem Links.idle (h : Links s building us r links r' log) (he : r.eager = false) :
    r' = r ∧ log = [] := by
  induction h with
  | nil _ _ => exact ⟨rfl, rfl⟩
  | onDemand _ _ ih => exact ih he
  | stored ht _ _ _ | deferred ht _ _ _ _ | compiled ht _ _ _ _ _ _ =>
    rw [he] at ht
    cases ht

theorem subset_keep : r.types ⊆ (r.keep t f).types := by
  unfold keep
  split
  · exact List.Subset.refl _
  · rw [types_insert]
    exact List.subset_append_left _ _

theorem mem_keep : u ∈ (r.keep t f).types ↔ u ∈ r.types ∨ u = t := by
  unfold keep
  split
  · rename_i h
    exact ⟨.inl, fun hu => hu.elim id fun hu => hu ▸ contains_eq_true.1 h⟩
  · rw [types_insert, List.mem_append, List.mem_singleton]

/-- The types that a type is compiled with are stored, or are being built. -/
def ClosedUpTo (s : Schema) (building : List Ty) (r : Registry) : Prop :=
  ∀ t ∈ r.types, ∀ u, s.Nests t u → u ∈ r.types ∨ u ∈ building

theorem ClosedUpTo.keep (h : r.ClosedUpTo s (t :: building))
    (ht : ∀ u, s.Nests t u → u ∈ r.types ∨ u ∈ t :: building) :
    (r.keep t f).ClosedUpTo s building := by
  intro v hv u hu
  have hmet : u ∈ r.types ∨ u ∈ t :: building := by
    rcases mem_keep.1 hv with hv | rfl
    · exact h v hv u hu
    · exact ht u hu
  rcases hmet with hmet | hmet
  · exact .inl (mem_keep.2 (.inl hmet))
  · rcases List.mem_cons.1 hmet with rfl | hmet
    · exact .inl (mem_keep.2 (.inr rfl))
    · exact .inr hmet

theorem ClosedUpTo.mono (h : r.ClosedUpTo s building) {more : List Ty} (hm : building ⊆ more) :
    r.ClosedUpTo s more := fun t ht u hu => (h t ht u hu).imp id (hm ·)

/-- **An eager registry is closed** once the types that are being built are stored. -/
theorem Links.closes (h : Links s building us r links r' log) (he : r.eager = true)
    (hc : r.ClosedUpTo s building) : r'.ClosedUpTo s building ∧ r.types ⊆ r'.types ∧
      (∀ u ∈ us, u ∈ r'.types ∨ u ∈ building) ∧ r'.eager = true := by
  induction h with
  | nil building r => exact ⟨hc, List.Subset.refl _, nofun, he⟩
  | onDemand ht _ _ =>
    rw [he] at ht
    cases ht
  | @stored building u us r r' f links log _ hf _ ih =>
    obtain ⟨hclosed, hsub, hall, heager⟩ := ih he hc
    exact ⟨hclosed, hsub, List.forall_mem_cons.2 ⟨.inl (hsub (mem_of_find? hf)), hall⟩, heager⟩
  | @deferred building u us r r' links log _ _ hb _ ih =>
    obtain ⟨hclosed, hsub, hall, heager⟩ := ih he hc
    exact ⟨hclosed, hsub, List.forall_mem_cons.2 ⟨.inr hb, hall⟩, heager⟩
  | @compiled building u us r q r' inner links done log _ _ _ _ _ ihu ih =>
    obtain ⟨hclosed, hsub, hall, heager⟩ := ihu he (hc.mono (List.subset_cons_self u building))
    have hkept : (q.keep u ⟨s.plan u, inner⟩).ClosedUpTo s building := hclosed.keep hall
    obtain ⟨hclosed', hsub', hall', heager'⟩ := ih (by rw [eager_keep]; exact heager) hkept
    refine ⟨hclosed', fun t ht => hsub' (subset_keep (hsub ht)), ?_, heager'⟩
    exact List.forall_mem_cons.2 ⟨.inl (hsub' (mem_keep.2 (.inr rfl))), hall'⟩

/-- Only what is needed is compiled along. -/
theorem Links.reached (h : Links s building us r links r' log) :
    ∀ t ∈ log, ∃ u ∈ us, Relation.ReflTransGen s.Nests u t := by
  induction h with
  | nil building r => exact nofun
  | onDemand _ _ ih | stored _ _ _ ih | deferred _ _ _ _ ih =>
    intro t ht
    obtain ⟨u, hu, hreach⟩ := ih t ht
    exact ⟨u, List.mem_cons_of_mem _ hu, hreach⟩
  | @compiled building u us r q r' inner links done log _ _ _ _ _ ihu ih =>
    intro t ht
    rcases List.mem_append.1 ht with ht | ht
    · obtain ⟨v, hv, hreach⟩ := ihu t ht
      exact ⟨u, List.mem_cons_self, .head hv hreach⟩
    · rcases List.mem_cons.1 ht with rfl | ht
      · exact ⟨t, List.mem_cons_self, .refl⟩
      · obtain ⟨v, hv, hreach⟩ := ih t ht
        exact ⟨v, List.mem_cons_of_mem _ hv, hreach⟩

/-- **The steps leave no choice.** -/
theorem Links.unique (h : Links s building us r links r' log) {links' : List (Ty × Link Compiled)}
    {r'' : Registry} {log' : List Ty} (h' : Links s building us r links' r'' log') :
    links' = links ∧ r'' = r' ∧ log' = log := by
  induction h generalizing links' r'' log' with
  | nil _ _ =>
    cases h'
    exact ⟨rfl, rfl, rfl⟩
  | onDemand he _ ih =>
    cases h' with
    | onDemand _ h' =>
      obtain ⟨rfl, rfl, rfl⟩ := ih h'
      exact ⟨rfl, rfl, rfl⟩
    | stored he' | deferred he' | compiled he' => simp [he] at he'
  | stored he hf _ ih =>
    cases h' with
    | onDemand he' => simp [he] at he'
    | stored _ hf' h' =>
      obtain ⟨rfl, rfl, rfl⟩ := ih h'
      rw [hf] at hf'
      cases hf'
      exact ⟨rfl, rfl, rfl⟩
    | deferred _ hf' | compiled _ hf' => simp [hf] at hf'
  | deferred he hf hb _ ih =>
    cases h' with
    | onDemand he' => simp [he] at he'
    | stored _ hf' => simp [hf] at hf'
    | deferred _ _ _ h' =>
      obtain ⟨rfl, rfl, rfl⟩ := ih h'
      exact ⟨rfl, rfl, rfl⟩
    | compiled _ _ hb' => exact absurd hb hb'
  | compiled he hf hb _ _ ihu ih =>
    cases h' with
    | onDemand he' => simp [he] at he'
    | stored _ hf' => simp [hf] at hf'
    | deferred _ _ hb' => exact absurd hb' hb
    | compiled _ _ _ hu' h' =>
      obtain ⟨rfl, rfl, rfl⟩ := ihu hu'
      obtain ⟨rfl, rfl, rfl⟩ := ih h'
      exact ⟨rfl, rfl, rfl⟩

/-! ## Compiling comes to an end -/

/-- A type that is not stored is compiled by linking what is nested in it, and then stored. -/
def Compiles (s : Schema) (building : List Ty) (compile : Ty → Registry → Compiled × Registry)
    (t : Ty) : Prop :=
  ∀ r : Registry, r.Lacks (t :: building) → ∃ links q log,
    Links s (t :: building) (s.plan t).nested r links q log ∧
      compile t r = (⟨s.plan t, links⟩, q.insert t ⟨s.plan t, links⟩)

/-- Linking takes the steps, if compiling does for all that is not being built already. -/
theorem links_of_linkAll {compile : Ty → Registry → Compiled × Registry} :
    ∀ (us : List Ty) {r : Registry}, (∀ u ∈ us, u ∉ building → Compiles s building compile u) →
      r.Lacks building → ∃ links q log, Links s building us r links q log ∧
        linkAll (link compile building) us r = (links, q)
  | [], r, _, _ => ⟨[], r, [], .nil building r, rfl⟩
  | u :: us, r, hc, hr => by
    have hus := fun v hv => hc v (List.mem_cons_of_mem u hv)
    by_cases he : r.eager = true
    · cases hf : r.find? u with
      | some f =>
        obtain ⟨links, q, log, hl, heq⟩ := links_of_linkAll us hus hr
        exact ⟨_, q, log, .stored he hf hl, by simp [linkAll, link, he, hf, heq]⟩
      | none =>
        by_cases hb : u ∈ building
        · obtain ⟨links, q, log, hl, heq⟩ := links_of_linkAll us hus hr
          exact ⟨_, q, log, .deferred he hf hb hl, by simp [linkAll, link, he, hf, hb, heq]⟩
        · have hru := hr.cons hf
          obtain ⟨inner, q, done, hi, hcu⟩ := hc u List.mem_cons_self hb r hru
          obtain ⟨-, hq, -⟩ := hi.grows hru
          obtain ⟨links, q', log, hl, heq⟩ :=
            links_of_linkAll us hus (hq.insert (f := ⟨s.plan u, inner⟩) hb)
          have hsteps := Links.compiled he hf hb hi (by rwa [keep_eq_insert hq.head])
          rw [kept_eq hq.head] at hsteps
          exact ⟨_, q', _, hsteps, by simp [linkAll, link, he, hf, hb, hcu, heq]⟩
    · obtain ⟨links, q, log, hl, heq⟩ := links_of_linkAll us hus hr
      exact ⟨_, q, log, .onDemand (Bool.eq_false_iff.2 he) hl, by simp [linkAll, link, he, heq]⟩

/-- **Compiling comes to an end**: what is being compiled at once are different types around the first
one, so there are never more of them than the budget allows. -/
theorem compile_compiles (s : Schema) (t₀ : Ty) : ∀ (n : Nat) (building : List Ty) (t : Ty),
    (t :: building).Nodup → t :: building ⊆ s.around t₀ →
      (s.around t₀).length ≤ n + building.length → Compiles s building (compile s n building) t
  | 0, building, t, hn, hsub, hlen => by
    -- All types around are being built already, and this one is not among them.
    have hle := (hn.subperm hsub).length_le
    rw [List.length_cons] at hle
    omega
  | n + 1, building, t, hn, hsub, hlen => by
    intro r hr
    have hc : ∀ u ∈ (s.plan t).nested, u ∉ t :: building →
        Compiles s (t :: building) (compile s n (t :: building)) u := by
      intro u hu hb
      have hau : u ∈ s.around t₀ := Schema.around_nests (hsub List.mem_cons_self) hu
      refine compile_compiles s t₀ n (t :: building) u (List.nodup_cons.2 ⟨hb, hn⟩)
        (List.cons_subset.2 ⟨hau, hsub⟩) ?_
      -- One step is spent, and one more type is being built.
      rw [List.length_cons]
      omega
    obtain ⟨links, q, log, hl, heq⟩ := links_of_linkAll _ hc hr
    exact ⟨links, q, log, hl, by simp only [compile, heq]⟩

/-- **Resolving takes these steps.** -/
theorem resolves (hn : r.types.Nodup) (s : Schema) (t : Ty) :
    ∃ log, Resolves s r t (r.resolve s t).1 (r.resolve s t).2 log := by
  unfold resolve
  cases hf : r.find? t with
  | some f => exact ⟨[], .stored hf⟩
  | none =>
    have hr : r.Lacks [t] := Lacks.cons ⟨nofun, hn⟩ hf
    have hsub : [t] ⊆ s.around t := List.cons_subset.2 ⟨s.mem_around t, List.nil_subset _⟩
    obtain ⟨links, q, log, hl, heq⟩ :=
      compile_compiles s t (t.size + s.size + 1) [] t (List.nodup_singleton t) hsub
        (Nat.le_succ_of_le (s.length_around t)) r hr
    have htq : t ∉ q.types := (hl.grows hr).2.1.head
    have hsteps := Resolves.compiled hf hl
    rw [kept_eq htq, keep_eq_insert htq] at hsteps
    exact ⟨log ++ [t], by simpa only [heq] using hsteps⟩

theorem Resolves.unique {log log' : List Ty} {f' : Compiled} {r'' : Registry}
    (h : Resolves s r t f r' log) (h' : Resolves s r t f' r'' log') :
    f' = f ∧ r'' = r' ∧ log' = log := by
  cases h with
  | stored hf =>
    cases h' with
    | stored hf' =>
      rw [hf] at hf'
      cases hf'
      exact ⟨rfl, rfl, rfl⟩
    | compiled hf' => simp [hf] at hf'
  | compiled hf hl =>
    cases h' with
    | stored hf' => simp [hf] at hf'
    | compiled _ hl' =>
      obtain ⟨rfl, rfl, rfl⟩ := hl.unique hl'
      exact ⟨rfl, rfl, rfl⟩

theorem Resolves.grows (h : Resolves s r t f r' log) (hn : r.types.Nodup) :
    r'.types = r.types ++ log ∧ r'.types.Nodup ∧ r'.eager = r.eager := by
  cases h with
  | stored _ => exact ⟨(List.append_nil _).symm, hn, rfl⟩
  | compiled hf hl =>
    obtain ⟨htypes, hq, heager⟩ := hl.grows (Lacks.cons ⟨nofun, hn⟩ hf)
    rw [keep_eq_insert hq.head]
    refine ⟨?_, (hq.insert List.not_mem_nil).2, heager⟩
    rw [types_insert, htypes, List.append_assoc]

/-- A lazy registry compiles what it is asked for, and nothing else. -/
theorem Resolves.idle (h : Resolves s r t f r' log) (he : r.eager = false) :
    log = if t ∈ r.types then [] else [t] := by
  cases h with
  | stored hf => rw [if_pos (mem_of_find? hf)]
  | compiled hf hl =>
    obtain ⟨-, rfl⟩ := hl.idle he
    rw [if_neg (find?_eq_none.1 hf), List.nil_append]

/-- In an eager registry goes a type with what it needs, and that is there then. -/
theorem Resolves.closes (h : Resolves s r t f r' log) (he : r.eager = true)
    (hc : r.ClosedUpTo s []) : r'.ClosedUpTo s [] ∧ t ∈ r'.types := by
  cases h with
  | stored hf => exact ⟨hc, mem_of_find? hf⟩
  | compiled hf hl =>
    obtain ⟨hclosed, -, hall, -⟩ := hl.closes he (hc.mono (List.nil_subset [t]))
    exact ⟨hclosed.keep hall, mem_keep.2 (.inr rfl)⟩

theorem Resolves.reached (h : Resolves s r t f r' log) :
    ∀ u ∈ log, Relation.ReflTransGen s.Nests t u := by
  cases h with
  | stored _ => exact nofun
  | compiled _ hl =>
    intro u hu
    rcases List.mem_append.1 hu with hu | hu
    · obtain ⟨v, hv, hreach⟩ := hl.reached u hu
      exact .head hv hreach
    · exact List.mem_singleton.1 hu ▸ .refl

theorem ClosedUpTo.reached (h : r.ClosedUpTo s []) (ht : t ∈ r.types)
    (hu : Relation.ReflTransGen s.Nests t u) : u ∈ r.types := by
  induction hu with
  | refl => exact ht
  | tail _ hlast ih => exact (h _ ih _ hlast).resolve_right List.not_mem_nil

/-! ## A registry and its history -/

/-- What is stored is what is logged, in order and once each. -/
theorem History.stored {eager : Bool} (h : History s eager log r) :
    r.types = log ∧ log.Nodup ∧ r.eager = eager := by
  induction h with
  | new => exact ⟨rfl, List.nodup_nil, rfl⟩
  | resolve _ hr ih =>
    obtain ⟨rfl, hn, rfl⟩ := ih
    obtain ⟨htypes, hn', heager⟩ := hr.grows hn
    exact ⟨htypes, htypes ▸ hn', heager⟩

/-- An eager registry with a history is closed. -/
theorem History.closed {eager : Bool} (h : History s eager log r) (he : eager = true) :
    r.ClosedUpTo s [] := by
  induction h with
  | new => exact nofun
  | resolve h hr ih => exact (hr.closes (h.stored.2.2.trans he) ih).1

end Registry

/-- Whatever a dialogue resolves, the history goes on. -/
theorem Dialogue.run_history {σ α : Type} [TokenSource σ] {s : Schema} {eager : Bool}
    (d : Dialogue α) (src : σ) {reg : Registry} {log : List Ty}
    (h : Registry.History s eager log reg) :
    ∃ new, Registry.History s eager (log ++ new) (d.run s src reg).registry := by
  induction d generalizing src reg log with
  | done a => exact ⟨[], log.append_nil.symm ▸ h⟩
  | exhausted => exact ⟨[], log.append_nil.symm ▸ h⟩
  | ask c next ih => exact ih _ _ h
  | resolve t next ih =>
    obtain ⟨rfl, hn, -⟩ := h.stored
    obtain ⟨new, hnew⟩ := Registry.resolves hn s t
    obtain ⟨more, hmore⟩ := ih _ src (h.resolve hnew)
    exact ⟨new ++ more, (List.append_assoc ..) ▸ hmore⟩
  | note n rest ih => exact ih _ h

namespace Registry

theorem Reachable.history {s : Schema} {r : Registry} (h : Reachable s r) :
    ∃ log, History s r.eager log r := by
  have hsome : ∃ eager log, History s eager log r := by
    induction h with
    | empty eager => exact ⟨eager, [], .new⟩
    | led _ d src ih =>
      obtain ⟨eager, log, hlog⟩ := ih
      obtain ⟨new, hnew⟩ := d.run_history src hlog
      exact ⟨eager, log ++ new, hnew⟩
  obtain ⟨eager, log, hlog⟩ := hsome
  exact ⟨log, hlog.stored.2.2 ▸ hlog⟩

/-- What a registry compiles, and what of it is there afterwards. -/
structure CompilesOnce (s : Schema) (r : Registry) : Prop where
  /-- All that was compiled is in one log. -/
  logged : ∃ log, History s r.eager log r
  /-- Nothing was compiled twice, and what was compiled is there. -/
  once : ∀ log, History s r.eager log r →
    log.Nodup ∧ r.size = log.length ∧ ∀ t, r.contains t = true ↔ t ∈ log
  /-- Resolving a type takes finitely many steps, in only one way. -/
  ends : ∀ t, ∃ new, Resolves s r t (r.resolve s t).1 (r.resolve s t).2 new ∧
    ∀ f r' new', Resolves s r t f r' new' → f = (r.resolve s t).1 ∧ r' = (r.resolve s t).2 ∧ new' = new
  /-- Whatever is done with the registry, the log is only added to. -/
  goes_on : ∀ {σ α : Type} [TokenSource σ] (d : Dialogue α) (src : σ) (log : List Ty),
    History s r.eager log r → ∃ new, History s r.eager (log ++ new) (d.run s src r).registry
  /-- An eager registry holds what its types are compiled with, and adds just that. -/
  eagerly : r.eager = true → (∀ t ∈ r.types, ∀ u, s.Nests t u → u ∈ r.types) ∧
    ∀ t u, u ∈ (r.resolve s t).2.types ↔ u ∈ r.types ∨ Relation.ReflTransGen s.Nests t u
  /-- A lazy registry adds the type alone. -/
  lazily : r.eager = false → ∀ t,
    (r.resolve s t).2.types = r.types ++ if t ∈ r.types then [] else [t]

/-- **No type is compiled twice**, whatever a registry is used for, and compiling comes to an end. An eager
registry holds what its types are compiled with, and a new one that resolves a type holds just the types
that can be reached from it; a lazy registry adds at most the type that is resolved. -/
theorem Reachable.compiles_once {s : Schema} {r : Registry} (h : Reachable s r) :
    r.CompilesOnce s ∧ ∀ t u, u ∈ ((Registry.empty true).resolve s t).2.types ↔
      Relation.ReflTransGen s.Nests t u := by
  have hadds : ∀ {q : Registry}, q.types.Nodup → q.eager = true → q.ClosedUpTo s [] →
      ∀ t u, u ∈ (q.resolve s t).2.types ↔ u ∈ q.types ∨ Relation.ReflTransGen s.Nests t u := by
    intro q hn he hc t u
    obtain ⟨new, hnew⟩ := resolves hn s t
    obtain ⟨hclosed, ht⟩ := hnew.closes he hc
    obtain ⟨htypes, -, -⟩ := hnew.grows hn
    constructor
    · intro hu
      rw [htypes, List.mem_append] at hu
      exact hu.imp id (hnew.reached u)
    · rintro (hu | hu)
      · exact htypes ▸ List.mem_append_left new hu
      · exact hclosed.reached ht hu
  obtain ⟨log, hlog⟩ := h.history
  obtain ⟨rfl, hn, -⟩ := hlog.stored
  refine ⟨⟨⟨r.types, hlog⟩, ?_, ?_, fun d src log h => d.run_history src h, ?_, ?_⟩, fun t u => ?_⟩
  · intro log hlog
    obtain ⟨rfl, hn, -⟩ := hlog.stored
    exact ⟨hn, List.length_map _ |>.symm, fun t => contains_eq_true⟩
  · intro t
    obtain ⟨new, hnew⟩ := resolves hn s t
    exact ⟨new, hnew, fun _ _ _ h' => hnew.unique h'⟩
  · intro he
    have hc := hlog.closed he
    exact ⟨fun t ht u hu => (hc t ht u hu).resolve_right List.not_mem_nil, hadds hn he hc⟩
  · intro he t
    obtain ⟨new, hnew⟩ := resolves hn s t
    rw [(hnew.grows hn).1, hnew.idle he]
  · have hnone : (Registry.empty true).types = [] := rfl
    rw [hadds (hnone ▸ List.nodup_nil) rfl (hnone ▸ nofun) t u, hnone]
    exact or_iff_right List.not_mem_nil

/-- An eager registry that has resolved one of two records that hold each other. -/
theorem compiles_once_ping :
    let s := Catalog.schema []
    let r := ((empty true).resolve s (.named "Ping")).2
    r.Reachable s ∧ r.CompilesOnce s ∧ r.size = 7 ∧ ∀ t u,
      u ∈ ((empty true).resolve s t).2.types ↔ Relation.ReflTransGen s.Nests t u := by
  intro s r
  have h : r.Reachable s := (Reachable.empty true).resolve (.named "Ping")
  obtain ⟨honce, hnew⟩ := Reachable.compiles_once h
  exact ⟨h, honce, by decide +kernel, hnew⟩

end Registry

end Decant
