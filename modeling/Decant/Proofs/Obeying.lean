import Decant.Proofs.OneToken
import Decant.Proofs.Protocol

/-!
# Dialogues that keep to the protocol

* `Dialogue.Obeys` — every call of a dialogue is the one that is due, whatever was answered before,
  and the budget of steps lasts for a given number of calls.
* `Dialogue.Obeys.run` — the calls of a run lead on from what was due, and a run that is short of
  steps has made so many calls.
* `Decoding.Meets` — a decoding that settles what is due, unless it fails, with one lemma for each
  way to put decodings together. After a failure nothing is said to be due, so nothing may be asked.
* `Decoding.walk_obeys` — the rule for going through a container, with an invariant of the
  destination.
-/

namespace Decant

/-- Every call is the one that is due, and the result is in keeping with what is due at the end. The
number counts calls for which the budget of steps lasts. -/
inductive Dialogue.Obeys {α : Type} (Q : α → List Due → Prop) : List Due → Nat → Dialogue α → Prop
  | done {ds : List Due} {k : Nat} {a : α} (h : Q a ds) : Obeys Q ds k (.done a)
  | exhausted {ds : List Due} : Obeys Q ds 0 .exhausted
  | ask {d : Due} {ds : List Due} {k : Nat} {c : Call} {next : Answer c → Dialogue α}
      (hd : d.next? = some c) (h : ∀ a, Obeys Q (d.after ⟨c, a⟩ ++ ds) (k - 1) (next a)) :
      Obeys Q (d :: ds) k (.ask c next)
  | note {ds : List Due} {k : Nat} (n : Note) {d : Dialogue α} (h : Obeys Q ds k d) :
      Obeys Q ds k (.note n d)

namespace Dialogue.Obeys

variable {α β : Type} {Q : α → List Due → Prop} {S : β → List Due → Prop} {ds : List Due}
  {k j : Nat} {d : Dialogue α}

theorem anti (h : d.Obeys Q ds k) (hj : j ≤ k) : d.Obeys Q ds j := by
  induction h generalizing j with
  | done h => exact .done h
  | exhausted => exact Nat.le_zero.1 hj ▸ .exhausted
  | ask hd _ ih => exact .ask hd fun a => ih a (Nat.sub_le_sub_right hj 1)
  | note n _ ih => exact .note n (ih hj)

theorem bind {f : α → Dialogue β} (h : d.Obeys Q ds k)
    (hf : ∀ a es, Q a es → (f a).Obeys S es k) : (d.bind f).Obeys S ds k := by
  induction h with
  | done h => exact hf _ _ h
  | exhausted => exact .exhausted
  | ask hd _ ih =>
    refine .ask hd fun a => ih a fun a es h => (hf a es h).anti (Nat.sub_le ..)
  | note n _ ih => exact .note n (ih hf)

theorem mono {S : α → List Due → Prop} (h : d.Obeys Q ds k) (hs : ∀ a es, Q a es → S a es) :
    d.Obeys S ds k := by
  have := h.bind fun a es ha => done (hs a es ha)
  rwa [bind_done] at this

/-- The calls of a run lead on from what was due. A run that is short of steps has made as many
calls as the budget lasts for. -/
theorem run {σ : Type} [TokenSource σ] (h : d.Obeys Q ds k) (s : Schema) (src : σ)
    (reg : Registry) :
    ∃ es, Leads ds (d.run s src reg).exchanges es ∧
      (∀ a, (d.run s src reg).answer = some a → Q a es) ∧
      ((d.run s src reg).answer = none → k ≤ (d.run s src reg).exchanges.length) := by
  induction h generalizing src with
  | done h => exact ⟨_, .nil _, fun a ha => Option.some.inj ha ▸ h, nofun⟩
  | exhausted => exact ⟨_, .nil _, nofun, fun _ => Nat.le_refl 0⟩
  | @ask _ _ _ c _ hd _ ih =>
    obtain ⟨es, hl, ha, hn⟩ := ih (TokenSource.answer c src).1 (TokenSource.answer c src).2
    exact ⟨es, .cons hd hl, ha, fun h => Nat.le_succ_of_pred_le (hn h)⟩
  | note n _ ih => exact ih src

end Dialogue.Obeys

namespace Decoding

variable {δ γ α β : Type} {k j : Nat} {ds : List Due} {es : α → List Due} {fs : β → List Due}
  {m : Decoding δ α} {f : α → Decoding δ β}

/-- A condition on a result, what is due then and the destination, and one on failures. -/
def Post (G : α → List Due → δ → Prop) (F : Error → δ → Prop) (e : Ending δ α) (ds : List Due) :
    Prop :=
  match e.result with
  | .ok a => G a ds e.dest
  | .error err => F err e.dest

/-- Go on with a result in keeping with what is due then; a failure ends decoding. -/
theorem obeys_bind {G : α → List Due → δ → Prop} {G' : β → List Due → δ → Prop}
    {F : Error → δ → Prop} {d : δ} (h : (m d).Obeys (Post G F) ds k)
    (hf : ∀ a es d', G a es d' → (f a d').Obeys (Post G' F) es k) :
    ((m >>= f) d).Obeys (Post G' F) ds k := by
  apply h.bind
  intro e es he
  obtain ⟨result, dest⟩ := e
  cases result with
  | ok a => exact hf a es dest he
  | error err => exact .done he

/-- A decoding that settles what is due and goes on to what a result asks for, unless it fails. -/
def Meets (k : Nat) (ds : List Due) (m : Decoding δ α) (es : α → List Due) : Prop :=
  ∀ d rest, (m d).Obeys (Post (fun a p _ => p = es a ++ rest) fun _ _ => True) (ds ++ rest) k

theorem Meets.anti (h : Meets k ds m es) (hj : j ≤ k) : Meets j ds m es :=
  fun d rest => (h d rest).anti hj

theorem Meets.done (h : ∀ d, ∃ e, m d = .done e ∧ ∀ a, e.result = .ok a → ds = es a) :
    Meets k ds m es := by
  intro d rest
  obtain ⟨⟨result, dest⟩, he, ha⟩ := h d
  rw [he]
  cases result with
  | ok a => exact .done (by rw [ha a rfl]; rfl)
  | error err => exact .done trivial

theorem Meets.pure {a : α} (h : ds = es a) : Meets k ds (pure a : Decoding δ α) es :=
  .done fun _ => ⟨_, rfl, fun _ hb => Except.ok.inj hb ▸ h⟩

theorem Meets.fail (e : Error) : Meets k ds (fail e : Decoding δ α) es :=
  .done fun _ => ⟨_, rfl, nofun⟩

theorem Meets.bind (h : Meets k ds m es) (hf : ∀ a, Meets k (es a) (f a) fs) :
    Meets k ds (m >>= f) fs := by
  refine fun d rest => obeys_bind (h d rest) fun a p d' hp => ?_
  subst hp
  exact hf a d' rest

/-- Asking for what is due leaves the budget of steps to last for one call less. -/
theorem Meets.ask {d : Due} {c : Call} {f : c.Reply → Decoding δ β} (hd : d.next? = some c)
    (hf : ∀ a, Meets (k - 1) (d.after ⟨c, .ok a⟩ ++ ds) (f a) fs) :
    Meets k (d :: ds) (Decoding.ask c >>= f) fs := by
  refine fun x rest => .ask hd fun a => ?_
  cases a with
  | error e => exact .done trivial
  | ok a =>
    have := hf a x rest
    rw [List.append_assoc] at this
    exact this

theorem Meets.note {n : Note} {f : Unit → Decoding δ β} (hf : Meets k ds (f ()) fs) :
    Meets k ds (Decoding.note n >>= f) fs :=
  fun d rest => .note n (hf d rest)

/-- What was done on the way to a failure may be undone, as long as it stays one. -/
theorem Meets.recover {f : Except Error α → Decoding δ β} (h : Meets k ds m es)
    (hf : ∀ a, Meets k (es a) (f (.ok a)) fs)
    (he : ∀ e d, ∃ e' d', f (.error e) d = .done ⟨.error e', d'⟩) :
    Meets k ds (attempt m >>= f) fs := by
  intro d rest
  show (((m d).bind _).bind _).Obeys _ _ _
  rw [Dialogue.bind_bind]
  apply (h d rest).bind
  intro e p hp
  obtain ⟨result, dest⟩ := e
  cases result with
  | ok a =>
    have hp : p = es a ++ rest := hp
    rw [hp]
    exact hf a dest rest
  | error err =>
    obtain ⟨e', d', hd⟩ := he err dest
    show (f (.error err) dest).Obeys _ _ _
    rw [hd]
    exact .done trivial

theorem Meets.fresh (start : γ) {m : Decoding γ α} (h : Meets k ds m es) :
    Meets k ds (fresh start m : Decoding δ (α × γ)) fun p => es p.1 := by
  intro d rest
  rw [fresh_apply]
  apply (h start rest).bind
  intro e p hp
  obtain ⟨result, dest⟩ := e
  cases result <;> exact .done hp

theorem Meets.focus (part : δ → γ) (put : γ → δ → δ) {m : Decoding γ α} (h : Meets k ds m es) :
    Meets k ds (focus part put m) es := by
  intro d rest
  rw [focus_apply]
  apply (h (part d) rest).bind
  intro e p hp
  obtain ⟨result, dest⟩ := e
  cases result <;> exact .done hp

theorem Meets.truncated (h : Meets k ds m es) : Meets k ds (truncated m) es := by
  intro d rest
  apply (h d rest).bind
  intro e p hp
  obtain ⟨result, dest⟩ := e
  cases result <;> exact .done hp

/-! ### Containers -/

section walk

variable {c : Container} {length : Option Nat} {i rounds : Nat} {rest : List Due} {d : δ}
  {G : β → List Due → δ → Prop} {F : Error → δ → Prop} {J : Nat → δ → Prop}
  {body : Nat → Decoding δ Unit}

/-- What is due once all elements of a container were gone through. -/
def Leaving (c : Container) (J : Nat → δ → Prop) (rest : List Due) (n : Nat) (ds : List Due)
    (d : δ) : Prop :=
  J n d ∧ ∃ due : Due, ds = due :: rest ∧ due.next? = some (.leave c n) ∧
    due.after ⟨.leave c n, .ok ()⟩ = []

theorem obeys_hasNext {h : (length.isNone || i != 0) = true} {f : Bool → Decoding δ β}
    (hl : ¬ length.any (· ≤ i) = true) (hF : ∀ e, F e d)
    (ht : (f true d).Obeys (Post G F) (Due.onward c length i ++ rest) (k - 1))
    (hf : (f false d).Obeys (Post G F) (.call (.leave c i) :: rest) (k - 1)) :
    ((hasNext c i >>= f) d).Obeys (Post G F) (.more c length i h :: rest) k := by
  refine .ask (by rw [Due.next?, if_neg hl]) ?_
  intro a
  cases a with
  | ok a => exact ht
  | error e =>
    cases e with
    | ended => exact hf
    | _ => exact .done (hF _)

/-- An element is gone through from an invariant to the next one. -/
def Carries (k : Nat) (c : Container) (J : Nat → δ → Prop) (F : Error → δ → Prop)
    (body : Nat → Decoding δ Unit) : Prop :=
  ∀ i d rest, J i d →
    (body i d).Obeys (Post (fun _ p d' => p = rest ∧ J (i + 1) d') F) (c.element i ++ rest) k

theorem walkFrom_more (hF : ∀ i d e, J i d → F e d) (hb : Carries k c J F body) (hk : k ≤ rounds)
    (h : (length.isNone || i != 0) = true) (hj : J i d) :
    (walkFrom c length body rounds i d).Obeys (Post (Leaving c J rest) F)
      (.more c length i h :: rest) k := by
  induction rounds generalizing i d k with
  | zero =>
    obtain rfl := Nat.le_zero.1 hk
    exact .exhausted
  | succ rounds ih =>
    unfold walkFrom
    by_cases hl : length.any (· ≤ i) = true
    · rw [if_pos hl]
      exact .done ⟨hj, _, rfl, by rw [Due.next?, if_pos hl], rfl⟩
    · rw [if_neg hl, goesOn, if_pos h]
      refine obeys_hasNext hl (fun e => hF i d e hj) ?_ (.done ⟨hj, _, rfl, rfl, rfl⟩)
      have hb' : Carries (k - 1) c J F body := fun i d rest hj => (hb i d rest hj).anti (by omega)
      rw [Due.onward, List.append_assoc]
      apply obeys_bind (hb' i d _ hj)
      intro _ p d' hp
      obtain ⟨rfl, hj'⟩ := hp
      exact ih hb' (by omega) _ hj'

/-- Entering a container that declares elements puts the first one in front, so this round makes no
call of its own. -/
theorem walkFrom_entered (hF : ∀ i d e, J i d → F e d) (hb : Carries k c J F body)
    (hk : k = 0 ∨ k < rounds) (hj : J 0 d) :
    (walkFrom c length body rounds 0 d).Obeys (Post (Leaving c J rest) F)
      (Due.entered c length ++ rest) k := by
  match length, rounds with
  | none, rounds => exact walkFrom_more hF hb (by omega) rfl hj
  | some n, 0 =>
    obtain rfl : k = 0 := by omega
    exact .exhausted
  | some 0, rounds + 1 => exact .done ⟨hj, _, rfl, rfl, rfl⟩
  | some (n + 1), rounds + 1 =>
    unfold walkFrom
    rw [if_neg (by simp), goesOn, if_neg (by simp), pure_bind]
    show (_ : Dialogue _).Obeys _ ((c.element 0 ++ [_]) ++ rest) k
    rw [List.append_assoc]
    apply obeys_bind (hb 0 d _ hj)
    intro _ p d' hp
    obtain ⟨rfl, hj'⟩ := hp
    exact walkFrom_more hF hb (by omega) _ hj'

/-- **Going through a container** settles what its tag asks for, given an invariant that every
element carries on. -/
theorem walk_obeys (hF : ∀ i d e, J i d → F e d) (hb : Carries (k - 1) c J F body)
    (hk : k ≤ rounds) (tag : Tag) (hj : J 0 d) :
    (walk c rounds tag body d).Obeys (Post (fun n p d' => p = rest ∧ J n d') F)
      (tag.due :: rest) k := by
  unfold walk
  by_cases hn : tag = .nil
  · subst hn
    refine .ask rfl ?_
    intro a
    cases a with
    | ok a => exact .done ⟨rfl, hj⟩
    | error e => exact .done (hF 0 d e hj)
  · rw [if_neg hn]
    by_cases hc : tag = c.tag
    · subst hc
      rw [if_pos rfl]
      have hd : c.tag.due = .call (.enter c) := by cases c <;> rfl
      rw [hd]
      refine .ask rfl ?_
      intro a
      cases a with
      | error e => exact .done (hF 0 d e hj)
      | ok length =>
        refine obeys_bind (walkFrom_entered hF hb (by omega) hj) ?_
        rintro n _ d' ⟨hj', due, rfl, hn, ha⟩
        refine .ask hn ?_
        intro a
        cases a with
        | error e => exact .done (hF n d' e hj')
        | ok a =>
          have ha : due.after ⟨.leave c n, .ok a⟩ = [] := ha
          rw [ha]
          exact .done ⟨rfl, hj'⟩
    · rw [if_neg hc]
      exact .done (hF 0 d _ hj)

end walk

theorem Meets.walk {c : Container} {rounds : Nat} {body : Nat → Decoding δ Unit}
    (hb : ∀ i, Meets (k - 1) (c.element i) (body i) fun _ => []) (hk : k ≤ rounds) (tag : Tag) :
    Meets k [tag.due] (walk c rounds tag body) fun _ => [] := by
  intro d rest
  have hb' : Carries (k - 1) c (fun _ _ => True) (fun _ _ => True) body := by
    refine fun i d rest _ => (hb i d rest).mono fun e p hp => ?_
    obtain ⟨result, dest⟩ := e
    cases result with
    | ok a => exact ⟨hp, trivial⟩
    | error err => trivial
  apply (walk_obeys (fun _ _ _ _ => trivial) hb' hk tag trivial).mono
  intro e p hp
  obtain ⟨result, dest⟩ := e
  cases result with
  | ok a => exact hp.1
  | error err => trivial

end Decoding

/-- A strategy that settles one value, unless it fails. -/
def Strategy.Obeys (k : Nat) (f : Strategy) : Prop := Decoding.Meets k [.value] f fun _ => []

theorem Strategy.Obeys.anti {f : Strategy} {k j : Nat} (h : f.Obeys k) (hj : j ≤ k) : f.Obeys j :=
  Decoding.Meets.anti h hj

end Decant
