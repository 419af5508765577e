import Decant.Proofs.WalkOfValue

/-!
# Decoding a walk and its retelling

* `Error.Near` — errors that are the same, unless a string that is no text reads as bytes.
* `Dialogue.Agree` — two dialogues that come to related ends along two lists of exchanges. They need
  not make the same calls, but they leave the same notes.
* `Decoding.Tallies` — decodings that agree from every destination, with one lemma for each way to
  put decodings together.
* `Decoding.walk_agree` — the rule for going through a container, which may be streamed on the one
  side and declared on the other, with an invariant of the destination.
* `Strategy.Tallies` — a strategy that makes the same of every walk and of its retelling.
-/

namespace Decant

/-- Two errors are the same. Where strings that are no text may occur, the one may also speak of a
string and the other of bytes. -/
inductive Error.Near (raw : Prop) : Error → Error → Prop
  | refl (e : Error) : Near raw e e
  | kind (h : raw) (expected : Tag) :
      Near raw (.typeConversion .string expected) (.typeConversion .bytes expected)

namespace Error.Near

variable {raw : Prop} {e e' : Error}

theorem eq (h : Near raw e e') (hr : ¬ raw) : e = e' := by
  cases h with
  | refl e => rfl
  | kind h expected => exact absurd h hr

theorem truncate (h : Near raw e e') : Near raw e.truncate e'.truncate := by
  cases h with
  | refl e => exact .refl _
  | kind h expected => exact .kind h expected

end Error.Near

/-! ## Dialogues -/

/-- Along two lists of exchanges, two dialogues leave the same notes and come to related results with
what is left over, or the budget of steps runs out for both. -/
inductive Dialogue.Agree {α β : Type} (R : α → List Exchange → β → List Exchange → Prop) :
    List Exchange → Dialogue α → List Exchange → Dialogue β → Prop
  | done {xs ys : List Exchange} {a : α} {b : β} (h : R a xs b ys) : Agree R xs (.done a) ys (.done b)
  | exhausted {xs ys : List Exchange} : Agree R xs .exhausted ys .exhausted
  | left {xs ys : List Exchange} {c : Call} (a : Answer c) {next : Answer c → Dialogue α}
      {e : Dialogue β} (h : Agree R xs (next a) ys e) : Agree R (⟨c, a⟩ :: xs) (.ask c next) ys e
  | right {xs ys : List Exchange} {c : Call} (a : Answer c) {d : Dialogue α}
      {next : Answer c → Dialogue β} (h : Agree R xs d ys (next a)) :
      Agree R xs d (⟨c, a⟩ :: ys) (.ask c next)
  | note {xs ys : List Exchange} (n : Note) {d : Dialogue α} {e : Dialogue β}
      (h : Agree R xs d ys e) : Agree R xs (.note n d) ys (.note n e)

namespace Dialogue.Agree

variable {α β γ δ : Type} {R : α → List Exchange → β → List Exchange → Prop}
  {S : γ → List Exchange → δ → List Exchange → Prop} {xs ys : List Exchange} {d : Dialogue α}
  {e : Dialogue β}

theorem ask {c : Call} (a a' : Answer c) {next : Answer c → Dialogue α}
    {next' : Answer c → Dialogue β} (h : Agree R xs (next a) ys (next' a')) :
    Agree R (⟨c, a⟩ :: xs) (.ask c next) (⟨c, a'⟩ :: ys) (.ask c next') := .left a (.right a' h)

theorem bind {f : α → Dialogue γ} {g : β → Dialogue δ} (h : Agree R xs d ys e)
    (hf : ∀ a us b vs, R a us b vs → Agree S us (f a) vs (g b)) :
    Agree S xs (d.bind f) ys (e.bind g) := by
  induction h with
  | done h => exact hf _ _ _ _ h
  | exhausted => exact .exhausted
  | left a _ ih => exact .left a ih
  | right a _ ih => exact .right a ih
  | note n _ ih => exact .note n ih

theorem symm (h : Agree R xs d ys e) : Agree (fun b vs a us => R a us b vs) ys e xs d := by
  induction h with
  | done h => exact .done h
  | exhausted => exact .exhausted
  | left a _ ih => exact .right a ih
  | right a _ ih => exact .left a ih
  | note n _ ih => exact .note n ih

theorem mono {R' : α → List Exchange → β → List Exchange → Prop} (h : Agree R xs d ys e)
    (hr : ∀ a us b vs, R a us b vs → R' a us b vs) : Agree R' xs d ys e := by
  have := h.bind (S := R') fun a us b vs ha => done (hr a us b vs ha)
  rwa [bind_done, bind_done] at this

/-- Led with sources that give these answers, the dialogues leave the same notes and come to related
results. Runs that are short of steps have made no more calls than there are answers. -/
theorem run {σ τ : Type} [TokenSource σ] [TokenSource τ] (h : Agree R xs d ys e) (s : Schema)
    {src src' : σ} {tgt tgt' : τ} (reg reg' : Registry) (hs : Tells src xs src')
    (ht : Tells tgt ys tgt') :
    let r := d.run s src reg
    let q := e.run s tgt reg'
    r.notes = q.notes ∧
      ((r.answer = none ∧ q.answer = none ∧ r.exchanges.length ≤ xs.length) ∨
        ∃ a us b vs, r.answer = some a ∧ q.answer = some b ∧ R a us b vs) := by
  induction h generalizing src tgt with
  | @done xs ys a b h => exact ⟨rfl, .inr ⟨a, xs, b, ys, rfl, rfl, h⟩⟩
  | exhausted => exact ⟨rfl, .inl ⟨rfl, rfl, Nat.zero_le _⟩⟩
  | left a _ ih =>
    cases hs with
    | cons hx hs =>
      simp only [Dialogue.run, hx]
      obtain ⟨hn, ⟨hr, hq, hl⟩ | h⟩ := ih hs ht
      · exact ⟨hn, .inl ⟨hr, hq, Nat.succ_le_succ hl⟩⟩
      · exact ⟨hn, .inr h⟩
  | right a _ ih =>
    cases ht with
    | cons hx ht =>
      simp only [Dialogue.run, hx]
      exact ih hs ht
  | note n _ ih =>
    simp only [Dialogue.run]
    obtain ⟨hn, h⟩ := ih hs ht
    exact ⟨congrArg (n :: ·) hn, h⟩

end Dialogue.Agree

/-! ## Decodings -/

namespace Decoding

open Dialogue (Agree)
open Error (Near)

variable {raw fair : Prop} {δ γ α β α' β' : Type} {us vs us' vs' xs ys : List Exchange}
  {m : Decoding δ α} {m' : Decoding δ α'} {f : α → Decoding δ β} {f' : α' → Decoding δ β'}
  {A : α → α' → Prop} {B : β → β' → Prop}

/-- Two ends: related results with the same destination and nothing but the given exchanges left
over, or related failures. -/
inductive Both (G : α → α' → δ → Prop) (F : Error → δ → Error → δ → Prop)
    (xs ys : List Exchange) : Ending δ α → List Exchange → Ending δ α' → List Exchange → Prop
  | ok {a : α} {b : α'} {d : δ} (h : G a b d) : Both G F xs ys ⟨.ok a, d⟩ xs ⟨.ok b, d⟩ ys
  | error {e e' : Error} {d d' : δ} {us vs : List Exchange} (h : F e d e' d') :
      Both G F xs ys ⟨.error e, d⟩ us ⟨.error e', d'⟩ vs

/-- Go on with related results; failures end both decodings. -/
theorem agree_bind {G : α → α' → δ → Prop} {H : β → β' → δ → Prop}
    {F : Error → δ → Error → δ → Prop} {d : δ}
    (h : Agree (Both G F us' vs') us (m d) vs (m' d))
    (hf : ∀ a b d, G a b d → Agree (Both H F xs ys) us' (f a d) vs' (f' b d)) :
    Agree (Both H F xs ys) us ((m >>= f) d) vs ((m' >>= f') d) := by
  apply h.bind
  intro e us b vs he
  cases he with
  | ok h => exact hf _ _ _ h
  | error h => exact .done (.error h)

/-- Near errors with the same destination, as far as failures are fair to strings that are no text. -/
def Fails (raw fair : Prop) (e : Error) (d : δ) (e' : Error) (d' : δ) : Prop :=
  fair → Near raw e e' ∧ d = d'

section Fails

variable {e e' : Error} {d d' : δ}

theorem Fails.of_near (h : Near raw e e') : Fails raw fair e d e' d := fun _ => ⟨h, rfl⟩

theorem Fails.map (g : δ → γ) (h : Fails raw fair e d e' d') : Fails raw fair e (g d) e' (g d') :=
  fun hf => ⟨(h hf).1, congrArg g (h hf).2⟩

theorem Fails.truncate (h : Fails raw fair e d e' d') :
    Fails raw fair e.truncate d e'.truncate d' :=
  fun hf => ⟨(h hf).1.truncate, (h hf).2⟩

end Fails

/-- Along two lists of exchanges, two decodings end alike from every destination. -/
def Tallies (raw fair : Prop) (A : α → α' → Prop) (us vs : List Exchange) (m : Decoding δ α)
    (m' : Decoding δ α') : Prop :=
  ∀ d xs ys, Agree (Both (fun a b _ => A a b) (Fails raw fair) xs ys) (us ++ xs) (m d) (vs ++ ys)
    (m' d)

theorem Tallies.done (h : ∀ d, ∃ a b x, m d = .done ⟨.ok a, x⟩ ∧ m' d = .done ⟨.ok b, x⟩ ∧ A a b) :
    Tallies raw fair A [] [] m m' := by
  intro d xs ys
  obtain ⟨a, b, x, hm, hm', hab⟩ := h d
  rw [hm, hm']
  exact .done (.ok hab)

theorem Tallies.pure {a : α} {b : α'} (h : A a b) :
    Tallies raw fair A [] [] (pure a : Decoding δ α) (pure b) :=
  .done fun d => ⟨a, b, d, rfl, rfl, h⟩

theorem Tallies.fail {e e' : Error} (h : Near raw e e') :
    Tallies raw fair A us vs (fail e : Decoding δ α) (fail e') :=
  fun _ _ _ => .done (.error (.of_near h))

theorem Tallies.bind (h : Tallies raw fair A us vs m m')
    (hf : ∀ a b, A a b → Tallies raw fair B us' vs' (f a) (f' b)) :
    Tallies raw fair B (us ++ us') (vs ++ vs') (m >>= f) (m' >>= f') := by
  intro d xs ys
  rw [List.append_assoc, List.append_assoc]
  exact agree_bind (h d (us' ++ xs) (vs' ++ ys)) fun a b d hab => hf a b hab d xs ys

/-- Before the first exchange only the destination is changed. -/
theorem Tallies.first (h : Tallies raw fair A [] [] m m')
    (hf : ∀ a b, A a b → Tallies raw fair B us vs (f a) (f' b)) :
    Tallies raw fair B us vs (m >>= f) (m' >>= f') := h.bind hf

/-- After the last exchange only the destination is changed, and the result made. -/
theorem Tallies.andThen (h : Tallies raw fair A us vs m m')
    (hf : ∀ a b, A a b → Tallies raw fair B [] [] (f a) (f' b)) :
    Tallies raw fair B us vs (m >>= f) (m' >>= f') := by
  have := h.bind hf
  rwa [List.append_nil, List.append_nil] at this

theorem Tallies.ask {c : Call} {f : c.Reply → Decoding δ β} {f' : c.Reply → Decoding δ β'}
    (a b : c.Reply) (hf : Tallies raw fair B us vs (f a) (f' b)) :
    Tallies raw fair B (⟨c, .ok a⟩ :: us) (⟨c, .ok b⟩ :: vs) (Decoding.ask c >>= f)
      (Decoding.ask c >>= f') :=
  fun d xs ys => .ask _ _ (hf d xs ys)

theorem Tallies.note {n : Note} {f : Unit → Decoding δ β} {f' : Unit → Decoding δ β'}
    (hf : Tallies raw fair B us vs (f ()) (f' ())) :
    Tallies raw fair B us vs (Decoding.note n >>= f) (Decoding.note n >>= f') :=
  fun d xs ys => .note n (hf d xs ys)

/-- After the last exchange, what was done on the way to a failure may be undone, as long as it stays
the same failure. -/
theorem Tallies.recover {f : Except Error α → Decoding δ β} {f' : Except Error α' → Decoding δ β'}
    (undo : δ → δ) (h : Tallies raw fair A us vs m m')
    (hf : ∀ a b, A a b → Tallies raw fair B [] [] (f (.ok a)) (f' (.ok b)))
    (he : ∀ e d, f (.error e) d = .done ⟨.error e, undo d⟩ ∧
      f' (.error e) d = .done ⟨.error e, undo d⟩) :
    Tallies raw fair B us vs (attempt m >>= f) (attempt m' >>= f') := by
  intro d xs ys
  show Agree _ _ (((m d).bind _).bind _) _ (((m' d).bind _).bind _)
  rw [Dialogue.bind_bind, Dialogue.bind_bind]
  apply (h d xs ys).bind
  intro r us b vs hr
  cases hr with
  | @ok a b d hab => exact hf a b hab d xs ys
  | @error e e' d d' us vs hn =>
    show Agree _ _ (f (.error e) d) _ (f' (.error e') d')
    rw [(he e d).1, (he e' d').2]
    exact .done (.error (hn.map undo))

theorem Tallies.fresh (start : γ) {m : Decoding γ α} {m' : Decoding γ α'}
    (h : Tallies raw fair A us vs m m') :
    Tallies raw fair (fun p q => A p.1 q.1 ∧ p.2 = q.2) us vs (fresh start m : Decoding δ (α × γ))
      (fresh start m') := by
  intro d xs ys
  rw [fresh_apply, fresh_apply]
  apply (h start xs ys).bind
  intro r us b vs hr
  cases hr with
  | ok hab => exact .done (.ok ⟨hab, rfl⟩)
  | error hn => exact .done (.error fun hf => ⟨(hn hf).1, rfl⟩)

theorem Tallies.focus (part : δ → γ) (put : γ → δ → δ) {m : Decoding γ α} {m' : Decoding γ α'}
    (h : Tallies raw fair A us vs m m') :
    Tallies raw fair A us vs (focus part put m) (focus part put m') := by
  intro d xs ys
  rw [focus_apply, focus_apply]
  apply (h (part d) xs ys).bind
  intro r us b vs hr
  cases hr with
  | ok hab => exact .done (.ok hab)
  | error hn => exact .done (.error (hn.map (put · d)))

theorem Tallies.truncated (h : Tallies raw fair A us vs m m') :
    Tallies raw fair A us vs (truncated m) (truncated m') := by
  intro d xs ys
  apply (h d xs ys).bind
  intro r us b vs hr
  cases hr with
  | ok hab => exact .done (.ok hab)
  | error hn => exact .done (.error hn.truncate)

end Decoding

/-! ## Containers -/

theorem Walk.exchanges_eq (w : Walk) : w.exchanges = ⟨.type, .ok w.tag⟩ :: w.exchanges.tail := by
  cases w <;> rfl

/-- The exchanges of one element of a container, and those of its retelling. -/
def Container.Twin (raw : Prop) : Container → Nat → List Exchange → List Exchange → Prop
  | .array, _, e, e' => ∃ w : Walk, (w.Clear ∨ raw) ∧ e = w.exchanges ∧ e' = w.retold.exchanges
  | .map, i, e, e' => ∃ k v : Walk, (k.Clear ∨ raw) ∧ (v.Clear ∨ raw) ∧
      e = joined i k.exchanges v.exchanges ∧ e' = joined i k.retold.exchanges v.retold.exchanges

/-- The exchanges of the elements of a container from element `i` on, and those of their
retellings. -/
def Container.Twins (raw : Prop) (c : Container) :
    Nat → List (List Exchange) → List (List Exchange) → Prop
  | _, [], [] => True
  | i, e :: es, e' :: es' => c.Twin raw i e e' ∧ c.Twins raw (i + 1) es es'
  | _, _, _ => False

theorem Container.twins_ofFn {raw : Prop} {c : Container} :
    ∀ {count : Nat} (i : Nat) {f g : Fin count → List Exchange},
      (∀ j : Fin count, c.Twin raw (i + j) (f j) (g j)) →
        c.Twins raw i (List.ofFn f) (List.ofFn g)
  | 0, _, _, _, _ => trivial
  | count + 1, i, f, g, h => by
    rw [List.ofFn_succ, List.ofFn_succ]
    refine ⟨h 0, twins_ofFn (i + 1) fun j => ?_⟩
    have := h j.succ
    rwa [Fin.val_succ, ← Nat.add_assoc, Nat.add_right_comm] at this

namespace Decoding

open Dialogue (Agree)
open Error (Near)

variable {raw fair : Prop} {δ : Type} {c : Container} {J : Nat → δ → Prop}
  {F : Error → δ → Error → δ → Prop} {body : Nat → Decoding δ Unit} {xs ys : List Exchange}

/-- An element and its retelling are gone through from an invariant to the next one. -/
def CarriesBoth (raw : Prop) (c : Container) (J : Nat → δ → Prop) (F : Error → δ → Error → δ → Prop)
    (body : Nat → Decoding δ Unit) : Prop :=
  ∀ i e e' d xs ys, c.Twin raw i e e' → J i d →
    Agree (Both (fun _ _ d => J (i + 1) d) F xs ys) (e ++ xs) (body i d) (e' ++ ys) (body i d)

section walkOut

variable {α β : Type} {R : Ending δ Nat → List Exchange → β → List Exchange → Prop}
  {length length' : Option Nat} {n i : Nat} {d : δ} {D : Dialogue β}

theorem agree_hasNext {f : Bool → Decoding δ Nat} (h : Agree R xs (f true d) ys D) :
    Agree R (⟨.next c i, .ok ()⟩ :: xs) ((hasNext c i >>= f) d) ys D :=
  .left (c := .next c i) (.ok ()) h

/-- After the last element the container is left. Its end has to be asked for first, unless the
declared length was reached. -/
theorem walkOut_left_end (hf : Fits length i) (h : Agree R xs (.done ⟨.ok i, d⟩) ys D) :
    Agree R (rounds c length i [] ++ xs) (walkOut c length body (n + 1) i d) ys D := by
  unfold walkOut walkFrom rounds
  by_cases hl : length.any (· ≤ i) = true
  · rw [if_pos hl, if_pos hl, pure_bind]
    exact .left (c := .leave c i) (.ok ()) h
  · have hgo := asks_of_fits hf hl
    rw [if_neg hl, if_neg hl, goesOn, if_pos hgo]
    exact .left (c := .next c i) (.error .ended) (.left (c := .leave c i) (.ok ()) h)

/-- An element is gone on to, unless it is the first one of a declared number. -/
theorem walkOut_left_more {e : List Exchange} {es : List (List Exchange)}
    (hl : ¬ length.any (· ≤ i) = true)
    (h : Agree R (e ++ (rounds c length (i + 1) es ++ xs))
      ((body i >>= fun _ => walkOut c length body n (i + 1)) d) ys D) :
    Agree R (rounds c length i (e :: es) ++ xs) (walkOut c length body (n + 1) i d) ys D := by
  unfold walkOut walkFrom rounds
  rw [if_neg hl, goesOn, List.append_assoc, List.append_assoc]
  by_cases hgo : (length.isNone || i != 0) = true
  · rw [if_pos hgo, if_pos hgo, bind_assoc]
    refine agree_hasNext ?_
    rw [if_pos rfl, bind_assoc]
    exact h
  · rw [if_neg hgo, if_neg hgo, pure_bind, if_pos rfl, bind_assoc]
    exact h

theorem walkOut_right_end {R : β → List Exchange → Ending δ Nat → List Exchange → Prop}
    (hf : Fits length i) (h : Agree R ys D xs (.done ⟨.ok i, d⟩)) :
    Agree R ys D (rounds c length i [] ++ xs) (walkOut c length body (n + 1) i d) :=
  (walkOut_left_end hf h.symm).symm

theorem walkOut_right_more {R : β → List Exchange → Ending δ Nat → List Exchange → Prop}
    {e : List Exchange} {es : List (List Exchange)} (hl : ¬ length.any (· ≤ i) = true)
    (h : Agree R ys D (e ++ (rounds c length (i + 1) es ++ xs))
      ((body i >>= fun _ => walkOut c length body n (i + 1)) d)) :
    Agree R ys D (rounds c length i (e :: es) ++ xs) (walkOut c length body (n + 1) i d) :=
  (walkOut_left_more hl h.symm).symm

/-- From an invariant in front of element `i`, whatever lengths are declared. -/
theorem walkOut_agree (hb : CarriesBoth raw c J F body) :
    ∀ {n i : Nat} {es es' : List (List Exchange)} {d : δ}, c.Twins raw i es es' → J i d →
      Fits length (i + es.length) → Fits length' (i + es'.length) →
        Agree (Both (fun n n' d => n = n' ∧ J n d) F xs ys) (rounds c length i es ++ xs)
          (walkOut c length body n i d) (rounds c length' i es' ++ ys)
          (walkOut c length' body n i d)
  | 0, _, _, _, _, _, _, _, _ => .exhausted
  | n + 1, i, [], [], d, _, hj, hf, hf' =>
    walkOut_left_end hf (walkOut_right_end hf' (.done (.ok ⟨rfl, hj⟩)))
  | n + 1, i, e :: es, e' :: es', d, ⟨he, hes⟩, hj, hf, hf' => by
    rw [List.length_cons] at hf hf'
    refine walkOut_left_more (not_any_of_fits hf) (walkOut_right_more (not_any_of_fits hf') ?_)
    apply agree_bind (hb i e e' d _ _ he hj)
    intro _ _ d' hj'
    rw [← Nat.add_assoc, Nat.add_right_comm] at hf hf'
    exact walkOut_agree hb hes hj' hf hf'

end walkOut

theorem walk_refused {tag : Tag} (n : Nat) (hn : tag ≠ .nil) (hc : tag ≠ c.tag) :
    walk c n tag body = fail (.typeConversion tag c.tag) := by
  rw [walk, if_neg hn, if_neg hc]

/-- A leaf is retold as it is, unless it is a string that is no text. -/
theorem leaf_retold {l : Leaf} (hw : (Walk.leaf l).Clear ∨ raw) :
    l.retold = l ∨ ∃ b, raw ∧ l = .string b ∧ l.retold = .bytes b := by
  cases l with
  | string b =>
    rw [Leaf.retold]
    split
    · exact .inl rfl
    · rename_i hb
      rcases hw with hw | hw
      · exact absurd (hw b rfl) hb
      · exact .inr ⟨b, hw, rfl, rfl⟩
  | _ => exact .inl rfl

/-- A leaf and its retelling are refused with near errors. -/
theorem near_leaf {l : Leaf} (hw : (Walk.leaf l).Clear ∨ raw) (expected : Tag) :
    Near raw (.typeConversion l.tag expected) (.typeConversion l.retold.tag expected) := by
  rcases leaf_retold hw with h | ⟨b, hr, rfl, h⟩
  · rw [h]
    exact .refl _
  · rw [h]
    exact .kind hr expected

theorem retold_tag_eq_nil {l : Leaf} : l.retold.tag = .nil ↔ l.tag = .nil := by
  cases l with
  | string b =>
    rw [Leaf.retold]
    split <;> simp [Leaf.tag]
  | _ => rfl

theorem leaf_tag_ne (l : Leaf) (c : Container) : l.tag ≠ c.tag := by
  cases l <;> cases c <;> nofun

theorem tag_retold {w : Walk} (h : w.tag = c.tag) : w.retold.tag = c.tag := by
  cases w with
  | leaf l => exact absurd h (leaf_tag_ne l c)
  | array => exact h
  | map => exact h

/-- **Going through a container** of which the tag was observed, given an invariant that every
element carries on. -/
theorem walk_agree {n : Nat} {w : Walk} {d : δ}
    (hF : ∀ i d e e', J i d → Near raw e e' → F e d e' d) (hb : CarriesBoth raw c J F body)
    (hw : w.Clear ∨ raw) (hj : J 0 d) :
    Agree (Both (fun n n' d => n = n' ∧ w.retold.tag = w.tag ∧ J n d) F xs ys)
      (w.exchanges.tail ++ xs) (walk c n w.tag body d)
      (w.retold.exchanges.tail ++ ys) (walk c n w.retold.tag body d) := by
  have hrefl : ∀ e, F e d e d := fun e => hF 0 d e e hj (.refl e)
  have hcont : ∀ {length length' : Option Nat} {es es' : List (List Exchange)},
      c.Twins raw 0 es es' → Fits length es.length → Fits length' es'.length →
      Agree (Both (fun n n' d => n = n' ∧ c.tag = c.tag ∧ J n d) F xs ys)
        (⟨.enter c, .ok length⟩ :: (rounds c length 0 es ++ xs)) (walk c n c.tag body d)
        (⟨.enter c, .ok length'⟩ :: (rounds c length' 0 es' ++ ys)) (walk c n c.tag body d) := by
    intro length length' es es' hes hf hf'
    rw [← Nat.zero_add es.length] at hf
    rw [← Nat.zero_add es'.length] at hf'
    rw [walk_eq]
    refine .ask _ _ ((walkOut_agree hb hes hj hf hf').mono fun e us e' vs h => ?_)
    cases h with
    | ok h => exact .ok ⟨h.1, rfl, h.2⟩
    | error h => exact .error h
  cases w with
  | leaf l =>
    by_cases hn : l.tag = .nil
    · cases l with
      | nil => exact .ask (c := .nil) _ _ (.done (.ok ⟨rfl, rfl, hj⟩))
      | _ => cases hn
    · have hn' : l.retold.tag ≠ .nil := fun h => hn (retold_tag_eq_nil.1 h)
      show Agree _ _ (walk c n l.tag body d) _ (walk c n l.retold.tag body d)
      rw [walk_refused n hn (leaf_tag_ne l c), walk_refused n hn' (leaf_tag_ne l.retold c)]
      exact .done (.error (hF 0 d _ _ hj (near_leaf hw c.tag)))
  | array length count h item =>
    cases c with
    | array =>
      refine hcont (Container.twins_ofFn 0 fun i => ?_) ?_ ?_
      · exact ⟨item i, hw.imp_left fun hw => hw i, rfl, rfl⟩
      · rwa [List.length_ofFn]
      · rw [List.length_ofFn]
        exact fits_self count
    | map => exact .done (.error (hrefl _))
  | map length count h key value =>
    cases c with
    | array => exact .done (.error (hrefl _))
    | map =>
      refine hcont (Container.twins_ofFn 0 fun i => ?_) ?_ ?_
      · rw [Nat.zero_add]
        exact ⟨key i, value i, hw.imp_left fun hw => (hw i).1, hw.imp_left fun hw => (hw i).2,
          rfl, rfl⟩
      · rwa [List.length_ofFn]
      · rw [List.length_ofFn]
        exact fits_self count

theorem Tallies.walk {n : Nat} {w : Walk}
    (hb : ∀ i e e', c.Twin raw i e e' → Tallies raw fair (fun _ _ => True) e e' (body i) (body i))
    (hw : w.Clear ∨ raw) :
    Tallies raw fair Eq w.exchanges.tail w.retold.exchanges.tail (walk c n w.tag body)
      (walk c n w.retold.tag body) := by
  intro d xs ys
  have hb' : CarriesBoth raw c (fun _ _ => True) (Fails raw fair) body :=
    fun i e e' d xs ys he _ => hb i e e' he d xs ys
  apply (walk_agree (fun _ _ _ _ _ h => .of_near h) hb' hw trivial).mono
  intro e us e' vs h
  cases h with
  | ok h => exact .ok h.1
  | error h => exact .error h

end Decoding

/-! ## Strategies -/

/-- Both tags are nil, or neither is. -/
def Tag.SameNil (t t' : Tag) : Prop := t = .nil ↔ t' = .nil

/-- A strategy that makes the same of every walk and of its retelling. -/
def Strategy.Retells (raw fair : Prop) (f : Strategy) : Prop :=
  ∀ w : Walk, (w.Clear ∨ raw) →
    Decoding.Tallies raw fair Tag.SameNil w.exchanges w.retold.exchanges f f

theorem Walk.sameNil_retold (w : Walk) : w.tag.SameNil w.retold.tag := by
  cases w with
  | leaf l => exact Decoding.retold_tag_eq_nil.symm
  | array => exact .rfl
  | map => exact .rfl

namespace Decoding

variable {raw fair : Prop}

/-- A strategy that asks for the tag first. -/
theorem retells_of_tag {f : Tag → Strategy}
    (h : ∀ w : Walk, (w.Clear ∨ raw) → Tallies raw fair Tag.SameNil w.exchanges.tail
      w.retold.exchanges.tail (f w.tag) (f w.retold.tag)) :
    Strategy.Retells raw fair (ask .type >>= f) := by
  intro w hw
  rw [w.exchanges_eq, w.retold.exchanges_eq]
  exact Tallies.ask (c := .type) w.tag w.retold.tag (h w hw)

end Decoding

end Decant
