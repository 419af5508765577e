import Decant.Proofs.Enough

/-!
# Every type takes what a value of no fixed type takes

* `Tells` — a source that gives certain answers to certain calls.
* `Dialogue.Follows` — what a dialogue comes to along given exchanges.
* `Walk.value` — the value that a walk hands out.
* `Setup.direct_reads` — decoding a value of no fixed type along a walk gives its value.
* `Setup.decode_aligned` — whatever type was decoded, the source is left where decoding a value of no
  fixed type leaves it.
-/

namespace Decant

/-! ## Exchanges with a source -/

/-- Asked for these calls in turn, a source gives these answers. -/
inductive Tells {σ : Type} [TokenSource σ] : σ → List Exchange → σ → Prop
  | nil (src : σ) : Tells src [] src
  | cons {src src' src'' : σ} {x : Exchange} {xs : List Exchange}
      (hx : TokenSource.answer x.call src = (x.answer, src')) (h : Tells src' xs src'') :
      Tells src (x :: xs) src''

section Tells

variable {σ : Type} [TokenSource σ] {src src' src'' : σ} {xs ys : List Exchange}

theorem Tells.append (h : Tells src xs src') (h' : Tells src' ys src'') :
    Tells src (xs ++ ys) src'' := by
  induction h with
  | nil src => exact h'
  | cons hx _ ih => exact .cons hx (ih h')

theorem Tells.unique (h : Tells src xs src') (h' : Tells src xs src'') : src' = src'' := by
  induction h with
  | nil src =>
    cases h'
    rfl
  | cons hx _ ih =>
    cases h' with
    | cons hx' h' =>
      rw [hx] at hx'
      cases hx'
      exact ih h'

/-- A run is an exchange with its source. -/
theorem Dialogue.run_tells {α : Type} (s : Schema) (d : Dialogue α) (src : σ) (reg : Registry) :
    Tells src (d.run s src reg).exchanges (d.run s src reg).source := by
  induction d generalizing src reg with
  | done a => exact .nil src
  | exhausted => exact .nil src
  | ask c next ih => exact .cons rfl (ih _ _ reg)
  | resolve t next ih => exact ih _ src _
  | note n rest ih => exact ih src reg

end Tells

/-- Along exchanges with its source, a dialogue comes to a result and leaves some of them over,
unless the budget of steps runs out. -/
inductive Dialogue.Follows {α : Type} (Q : α → List Exchange → Prop) :
    List Exchange → Dialogue α → Prop
  | done {xs : List Exchange} {a : α} (h : Q a xs) : Follows Q xs (.done a)
  | exhausted {xs : List Exchange} : Follows Q xs .exhausted
  | ask {xs : List Exchange} {c : Call} (a : Answer c) {next : Answer c → Dialogue α}
      (h : Follows Q xs (next a)) : Follows Q (⟨c, a⟩ :: xs) (.ask c next)

namespace Dialogue.Follows

variable {α β : Type} {Q : α → List Exchange → Prop} {S : β → List Exchange → Prop}
  {xs : List Exchange} {d : Dialogue α}

theorem bind {f : α → Dialogue β} (h : d.Follows Q xs)
    (hf : ∀ a ys, Q a ys → (f a).Follows S ys) : (d.bind f).Follows S xs := by
  induction h with
  | done h => exact hf _ _ h
  | exhausted => exact .exhausted
  | ask a _ ih => exact .ask a ih

/-- Led with a source that gives these answers, the dialogue comes to that result. -/
theorem run {σ : Type} [TokenSource σ] (h : d.Follows Q xs) (s : Schema) {src src' : σ}
    (reg : Registry) (ht : Tells src xs src') :
    let r := d.run s src reg
    ∃ ys, xs = r.exchanges ++ ys ∧ ∀ a, r.answer = some a → Q a ys := by
  induction h generalizing src with
  | @done xs a h => exact ⟨xs, rfl, fun b hb => Option.some.inj hb ▸ h⟩
  | @exhausted xs => exact ⟨xs, rfl, nofun⟩
  | @ask xs c a next _ ih =>
    cases ht with
    | cons hx ht =>
      obtain ⟨ys, hys, hr⟩ := ih ht
      refine ⟨ys, ?_, ?_⟩
      · simp only [Dialogue.run, hx]
        exact congrArg (_ :: ·) hys
      · simp only [Dialogue.run, hx]
        exact hr

end Dialogue.Follows

/-! ## The value of a walk -/

/-- The value that a leaf hands out. Strings that are not well-formed text are bytes. -/
def Leaf.value : Leaf → Value
  | nil => .nil
  | bool b => .bool b
  | int n => .int n
  | uint n => .uint n
  | float x => .float x
  | string b =>
    match Utf8.read? b with
    | some s => .string s
    | none => .bytes b
  | bytes b => .bytes b
  | time t => .time t
  | duration d => .duration d
  | error e => .error e

namespace Walk

/-- The value that a walk hands out. -/
def value : Walk → Value
  | leaf l => l.value
  | array _ _ _ item => .array (List.ofFn fun i => (item i).value)
  | map _ _ _ key val => .map (List.ofFn fun i => ((key i).value, (val i).value))

/-- The tag that a walk announces first. -/
def tag : Walk → Tag
  | leaf l => l.tag
  | array _ _ _ _ => .array
  | map _ _ _ _ _ => .map

end Walk

/-! ## Decoding along a walk -/

namespace Decoding

variable {δ γ α β : Type} {m : Decoding δ α} {f : α → Decoding δ β} {xs ys : List Exchange}
  {d d' d'' : δ} {a : α} {b : β}

/-- Along exchanges, a decoding comes to a result and a destination, and leaves nothing over of
them. -/
def Reads (m : Decoding δ α) (xs : List Exchange) (d : δ) (a : α) (d' : δ) : Prop :=
  ∀ rest, (m d).Follows (fun e ys => e = ⟨.ok a, d'⟩ ∧ ys = rest) (xs ++ rest)

theorem Reads.pure (a : α) (d : δ) : Reads (pure a) [] d a d := fun _ => .done ⟨rfl, rfl⟩

theorem Reads.bind (h : Reads m xs d a d') (hf : Reads (f a) ys d' b d'') :
    Reads (m >>= f) (xs ++ ys) d b d'' := by
  intro rest
  rw [List.append_assoc]
  refine (h (ys ++ rest)).bind ?_
  rintro _ _ ⟨rfl, rfl⟩
  exact hf rest

theorem Reads.ask {c : Call} {f : c.Reply → Decoding δ β} (a : c.Reply)
    (hf : Reads (f a) xs d b d') : Reads (Decoding.ask c >>= f) (⟨c, .ok a⟩ :: xs) d b d' :=
  fun rest => .ask _ (hf rest)

/-- After the last exchange only the destination is changed, and the result made. -/
theorem Reads.andThen {f : α → Decoding δ β} (h : Reads m xs d a d')
    (hf : f a d' = .done ⟨.ok b, d''⟩) : Reads (m >>= f) xs d b d'' := by
  have hb : Reads (f a) [] d' b d'' := by
    intro rest
    rw [hf]
    exact .done ⟨rfl, rfl⟩
  have := h.bind hb
  rwa [List.append_nil] at this

theorem Reads.fresh {start x : γ} {m : Decoding γ α} (h : Reads m xs start a x) (d : δ) :
    Reads (fresh start m) xs d (a, x) d := by
  intro rest
  rw [fresh_apply]
  refine (h rest).bind ?_
  rintro _ _ ⟨rfl, rfl⟩
  exact .done ⟨rfl, rfl⟩

theorem Reads.hasNext {c : Container} {i : Nat} {f : Bool → Decoding δ β}
    (hf : Reads (f true) xs d b d') :
    Reads (Decoding.hasNext c i >>= f) (⟨.next c i, .ok ()⟩ :: xs) d b d' := by
  intro rest
  have ha : (f true d).Follows _ (xs ++ rest) := hf rest
  exact .ask (c := .next c i) (.ok ()) ha

theorem Reads.hasNext_ended {c : Container} {i : Nat} {f : Bool → Decoding δ β}
    (hf : Reads (f false) xs d b d') :
    Reads (Decoding.hasNext c i >>= f) (⟨.next c i, .error .ended⟩ :: xs) d b d' := by
  intro rest
  have ha : (f false d).Follows _ (xs ++ rest) := hf rest
  exact .ask (c := .next c i) (.error .ended) ha

theorem Reads.truncated (h : Reads m xs d a d') : Reads (truncated m) xs d a d' := by
  intro rest
  refine (h rest).bind ?_
  rintro _ _ ⟨rfl, rfl⟩
  exact .done ⟨rfl, rfl⟩

/-! ### Containers -/

section Fits

variable {length : Option Nat} {i k : Nat}

/-- A container that holds a further element is not at its declared length. -/
theorem not_any_of_fits (h : Fits length (i + (k + 1))) : ¬ length.any (· ≤ i) = true := by
  cases length with
  | none => simp
  | some n =>
    have hn : i + (k + 1) ≤ n := (h n rfl).1
    simp only [Option.any_some, decide_eq_true_eq]
    omega

/-- A container that ends before its declared length is asked for its end. -/
theorem asks_of_fits (h : Fits length i) (hl : ¬ length.any (· ≤ i) = true) :
    (length.isNone || i != 0) = true := by
  cases length with
  | none => rfl
  | some n =>
    have hn : i = 0 → n = 0 := (h n rfl).2
    simp only [Option.any_some, decide_eq_true_eq] at hl
    simp only [Option.isNone_some, Bool.false_or, bne_iff_ne]
    omega

end Fits

/-- Go through a container from element `i` on and leave it. -/
def walkOut (c : Container) (length : Option Nat) (body : Nat → Decoding δ Unit) (n i : Nat) :
    Decoding δ Nat := do
  let n ← walkFrom c length body n i
  let _ ← ask (.leave c n)
  return n

theorem walk_eq {c : Container} {body : Nat → Decoding δ Unit} (n : Nat) :
    walk c n c.tag body = (do
      let length : Option Nat ← ask (.enter c)
      walkOut c length body n 0) := by
  have hn : c.tag ≠ .nil := by
    cases c <;> decide
  rw [walk, if_neg hn, if_pos rfl]
  rfl

/-- The states are those in front of each element. -/
theorem walkOut_reads {c : Container} {length : Option Nat} {body : Nat → Decoding δ Unit}
    {S : Nat → δ} :
    ∀ (n i : Nat) (es : List (List Exchange)),
      (∀ j e, es[j]? = some e → Reads (body (i + j)) e (S (i + j)) () (S (i + j + 1))) →
      Fits length (i + es.length) →
      Reads (walkOut c length body n i) (rounds c length i es) (S i) (i + es.length)
        (S (i + es.length))
  | 0, _, _, _, _ => fun _ => .exhausted
  | n + 1, i, [], _, hl => by
    have hleave : Reads (ask (.leave c i) >>= fun _ => Pure.pure i) [⟨.leave c i, .ok ()⟩] (S i) i
        (S i) := Reads.ask (c := .leave c i) () (.pure i (S i))
    unfold walkOut walkFrom rounds
    by_cases hany : length.any (· ≤ i) = true
    · rw [if_pos hany, if_pos hany, pure_bind]
      exact hleave
    · have hgo : (length.isNone || i != 0) = true := asks_of_fits hl hany
      rw [if_neg hany, if_neg hany, goesOn, if_pos hgo, bind_assoc]
      apply Reads.hasNext_ended
      rw [if_neg Bool.false_ne_true, pure_bind]
      exact hleave
  | n + 1, i, e :: es, hb, hl => by
    have hany := not_any_of_fits hl
    have hlen : i + (e :: es).length = i + 1 + es.length := by
      rw [List.length_cons]
      omega
    rw [hlen] at hl ⊢
    have hb' : ∀ j e, es[j]? = some e →
        Reads (body (i + 1 + j)) e (S (i + 1 + j)) () (S (i + 1 + j + 1)) := by
      intro j e' he
      have := hb (j + 1) e' he
      rwa [← Nat.add_assoc, Nat.add_right_comm i j 1] at this
    have hround : Reads (body i >>= fun _ => walkOut c length body n (i + 1))
        (e ++ rounds c length (i + 1) es) (S i) (i + 1 + es.length) (S (i + 1 + es.length)) :=
      (hb 0 e rfl).bind (walkOut_reads n (i + 1) es hb' hl)
    unfold walkOut walkFrom rounds
    rw [if_neg hany, goesOn]
    by_cases hgo : (length.isNone || i != 0) = true
    · rw [if_pos hgo, if_pos hgo, bind_assoc]
      apply Reads.hasNext
      rw [if_pos rfl, bind_assoc]
      exact hround
    · rw [if_neg hgo, if_neg hgo, pure_bind, if_pos rfl, bind_assoc]
      exact hround

/-- Going through a container whose tag was announced. -/
theorem walk_reads {c : Container} {length : Option Nat} {n : Nat} {body : Nat → Decoding δ Unit}
    {S : Nat → δ} {es : List (List Exchange)}
    (hb : ∀ j e, es[j]? = some e → Reads (body j) e (S j) () (S (j + 1)))
    (hf : Fits length es.length) :
    Reads (walk c n c.tag body) (⟨.enter c, .ok length⟩ :: rounds c length 0 es) (S 0) es.length
      (S es.length) := by
  have hb' : ∀ j e, es[j]? = some e → Reads (body (0 + j)) e (S (0 + j)) () (S (0 + j + 1)) := by
    intro j e he
    rw [Nat.zero_add]
    exact hb j e he
  rw [← Nat.zero_add es.length] at hf
  have hr := walkOut_reads (c := c) n 0 es hb' hf
  rw [Nat.zero_add] at hr
  rw [walk_eq]
  exact Reads.ask (c := .enter c) length hr

/-! ### Values of no fixed type -/

theorem value_reads {f : Strategy} {t : Tag} {v : Value} (d : δ)
    (h : Reads f xs (.dynamic .nil) t (.dynamic v)) : Reads (value f : Decoding δ Value) xs d v d :=
  (h.fresh d).andThen rfl

/-- The value of a string that was taken. -/
def keepText (b : ByteArray) : Decoding Content Value :=
  match Utf8.read? b with
  | some s => pure (.string s)
  | none => pure (.bytes b)

theorem keepText_apply (b : ByteArray) (d : Content) :
    keepText b d = .done ⟨.ok (Leaf.string b).value, d⟩ := by
  simp only [keepText, Leaf.value]
  cases Utf8.read? b <;> rfl

theorem dynamicItems_reads {f : Strategy} {resolve : Ty → Decoding Content Strategy} {n : Nat}
    {length : Option Nat} {es : List (List Exchange)} {vs : List Value} (d : Content)
    (hr : resolve .dynamic = pure f) (hl : es.length = vs.length) (hf : Fits length es.length)
    (hv : ∀ (j : Nat) e v, es[j]? = some e → vs[j]? = some v →
      ∃ t, Reads f e (.dynamic .nil) t (.dynamic v)) :
    Reads (dynamicItems resolve n) (⟨.enter .array, .ok length⟩ :: rounds .array length 0 es) d vs
      d := by
  have hb : ∀ (j : Nat) e, es[j]? = some e → Reads (do
      let v ← value f
      modify (· ++ [v]) : Decoding (List Value) Unit) e (vs.take j) () (vs.take (j + 1)) := by
    intro j e he
    obtain ⟨v, hj⟩ : ∃ v, vs[j]? = some v := by
      have := (List.getElem?_eq_some_iff.1 he).1
      exact ⟨_, List.getElem?_eq_getElem (by omega)⟩
    obtain ⟨t, hread⟩ := hv j e v he hj
    refine (value_reads (vs.take j) hread).andThen ?_
    rw [List.take_add_one, hj]
    rfl
  have hw := (walk_reads (c := .array) (n := n) (S := vs.take) hb hf).fresh d
  rw [hl, List.take_length] at hw
  unfold dynamicItems
  rw [hr, pure_bind]
  exact hw.andThen rfl

theorem dynamicEntry_reads {f : Strategy} {t u : Tag} {k v : Value} {i : Nat} (d : δ)
    (hk : Reads f xs (.dynamic .nil) t (.dynamic k))
    (hv : Reads f ys (.dynamic .nil) u (.dynamic v)) :
    Reads (dynamicEntry f i : Decoding δ (Value × Value)) (joined i xs ys) d (k, v) d := by
  refine (value_reads d hk).bind ?_
  refine Reads.ask (c := .toValue i) () ?_
  exact (value_reads d hv).andThen rfl

theorem dynamicEntries_reads {f : Strategy} {resolve : Ty → Decoding Content Strategy} {n : Nat}
    {length : Option Nat} {es : List (List Exchange)} {vs : List (Value × Value)} (d : Content)
    (hr : resolve .dynamic = pure f) (hl : es.length = vs.length) (hf : Fits length es.length)
    (hv : ∀ (j : Nat) e v, es[j]? = some e → vs[j]? = some v → ∃ xs ys t u, e = joined j xs ys ∧
      Reads f xs (.dynamic .nil) t (.dynamic v.1) ∧ Reads f ys (.dynamic .nil) u (.dynamic v.2)) :
    Reads (dynamicEntries none resolve n) (⟨.enter .map, .ok length⟩ :: rounds .map length 0 es) d vs
      d := by
  have hb : ∀ (j : Nat) e, es[j]? = some e → Reads (do
      let entry ← dynamicEntry f j
      modify (· ++ [entry]) : Decoding (List (Value × Value)) Unit) e (vs.take j) ()
        (vs.take (j + 1)) := by
    intro j e he
    obtain ⟨v, hj⟩ : ∃ v, vs[j]? = some v := by
      have := (List.getElem?_eq_some_iff.1 he).1
      exact ⟨_, List.getElem?_eq_getElem (by omega)⟩
    obtain ⟨xs, ys, t, u, rfl, hkey, hvalue⟩ := hv j e v he hj
    refine (dynamicEntry_reads (vs.take j) hkey hvalue).andThen ?_
    rw [List.take_add_one, hj]
    rfl
  have hw := (walk_reads (c := .map) (n := n) (S := vs.take) hb hf).fresh d
  rw [hl, List.take_length] at hw
  unfold dynamicEntries
  simp only
  rw [hr, pure_bind]
  exact hw.andThen rfl

end Decoding

namespace Setup

open Decoding

variable {s : Schema}

theorem direct_reads_leaf (n : Nat) (l : Leaf) (d : Content) :
    Reads ((plain s).direct (n + 1) .dynamic) (Walk.leaf l).exchanges d l.tag
      (.dynamic (Walk.leaf l).value) := by
  intro rest
  cases l with
  | string b =>
    refine .ask (c := .type) (.ok .string) (.ask (c := .string) (.ok b) ?_)
    show Dialogue.Follows _ _ ((keepText b d).bind _)
    rw [keepText_apply]
    exact .done ⟨rfl, rfl⟩
  | _ => exact .ask (c := .type) (.ok _) (.ask (.ok _) (.done ⟨rfl, rfl⟩))

/-- **Decoding a value of no fixed type along a walk gives the value of the walk.** -/
theorem direct_reads (n : Nat) (w : Walk) (d : Content) :
    Reads ((plain s).direct n .dynamic) w.exchanges d w.tag (.dynamic w.value) := by
  induction n generalizing w d with
  | zero => exact fun _ => .exhausted
  | succ n ih =>
    cases w with
    | leaf l => exact direct_reads_leaf n l d
    | array length count h item =>
      have hitems : Reads (dynamicItems (fun u => pure ((plain s).direct n u)) n)
          (⟨.enter .array, .ok length⟩ ::
            rounds .array length 0 (List.ofFn fun i => (item i).exchanges)) d
          (List.ofFn fun i => (item i).value) d := by
        refine dynamicItems_reads d rfl (by simp) (by rwa [List.length_ofFn]) ?_
        intro j e v he hv
        obtain ⟨hj, rfl⟩ := List.getElem?_eq_some_iff.1 he
        obtain ⟨hj', rfl⟩ := List.getElem?_eq_some_iff.1 hv
        rw [List.getElem_ofFn, List.getElem_ofFn]
        exact ⟨_, ih _ _⟩
      have hread : Reads (readDynamic none (fun u => pure ((plain s).direct n u)) n .array) _ d
        (.array (List.ofFn fun i => (item i).value)) d := hitems.andThen rfl
      exact Reads.ask (c := .type) .array (hread.andThen rfl)
    | map length count h key value =>
      have hentries : Reads (dynamicEntries none (fun u => pure ((plain s).direct n u)) n)
          (⟨.enter .map, .ok length⟩ :: rounds .map length 0 (List.ofFn fun i =>
            joined i (key i).exchanges (value i).exchanges)) d
          (List.ofFn fun i => ((key i).value, (value i).value)) d := by
        refine dynamicEntries_reads d rfl (by simp) (by rwa [List.length_ofFn]) ?_
        intro j e v he hv
        obtain ⟨hj, rfl⟩ := List.getElem?_eq_some_iff.1 he
        obtain ⟨hj', rfl⟩ := List.getElem?_eq_some_iff.1 hv
        rw [List.getElem_ofFn, List.getElem_ofFn]
        exact ⟨_, _, _, _, rfl, ih _ _, ih _ _⟩
      have hread : Reads (readDynamic none (fun u => pure ((plain s).direct n u)) n .map) _ d
        (.map (List.ofFn fun i => ((key i).value, (value i).value))) d := hentries.andThen rfl
      exact Reads.ask (c := .type) .map (hread.andThen rfl)

variable {σ : Type} [TokenSource σ] {src src' : σ} {reg : Registry}

/-- Whatever walk a source offers, decoding a value of no fixed type takes it. -/
theorem ends_dynamic (hs : s.DecodesOne) (hr : reg.Sound s) {w : Walk}
    (ht : Tells src w.exchanges src') (dest : Content) :
    ∃ q, (plain s).Ends .dynamic dest src reg q ∧
      q.answer = some ⟨.ok (), .dynamic w.value⟩ ∧ q.exchanges = w.exchanges ∧ q.source = src' := by
  obtain ⟨n, hn⟩ := direct_dynamic_enough hs (w.exchanges.length + 1)
  have hread : Reads ((plain s).decodeDirect n .dynamic) w.exchanges dest () (.dynamic w.value) :=
    ((direct_reads n w dest).andThen rfl).truncated
  let q := ((plain s).decodeDirect n .dynamic dest).run s src (.empty false)
  obtain ⟨ys, hys, hq⟩ : ∃ ys, w.exchanges ++ [] = q.exchanges ++ ys ∧ ∀ a, q.answer = some a →
      a = ⟨.ok (), .dynamic w.value⟩ ∧ ys = [] := by
    have ht' : Tells src (w.exchanges ++ []) src' := by rwa [List.append_nil]
    exact (hread []).run s (.empty false) ht'
  rw [List.append_nil] at hys
  -- The budget lasts for one call more than the walk makes.
  have hanswer : q.answer ≠ none := by
    intro hnone
    obtain ⟨_, -, -, hlast⟩ := (decodeDirect_meets hn dest []).run s src (.empty false)
    have hlong : w.exchanges.length + 1 ≤ q.exchanges.length := hlast hnone
    have hlen := congrArg List.length hys
    rw [List.length_append] at hlen
    omega
  obtain ⟨a, ha⟩ := Option.ne_none_iff_exists'.1 hanswer
  obtain ⟨rfl, rfl⟩ := hq a ha
  rw [List.append_nil] at hys
  refine ⟨q, ends_of_answer hr hanswer, ha, hys.symm, ?_⟩
  have hrun := Dialogue.run_tells s ((plain s).decodeDirect n .dynamic dest) src (.empty false)
  exact Tells.unique hrun (hys ▸ ht)

/-- **What is consumed does not depend on the destination type.** If decoding into a type succeeds,
then so does decoding a value of no fixed type from the same source: it makes the same calls and
leaves the source in the same state. So any two types that both succeed leave it at the same
place. -/
theorem decode_aligned (hs : s.DecodesOne) (hr : reg.Reachable s) (n : Nat) (t : Ty)
    (dest d : Content) (src : σ) :
    let r := ((plain s).decode n t dest).run s src reg
    r.answer = some ⟨.ok (), d⟩ →
      (∀ (reg' : Registry) (dest' : Content), reg'.Reachable s →
        ∃ q v, (plain s).Ends .dynamic dest' src reg' q ∧ q.answer = some ⟨.ok (), .dynamic v⟩ ∧
          q.exchanges = r.exchanges ∧ q.source = r.source) ∧
      ∀ (reg' : Registry) (m : Nat) (t' : Ty) (dest' d' : Content), reg'.Reachable s →
        let r' := ((plain s).decode m t' dest').run s src reg'
        r'.answer = some ⟨.ok (), d'⟩ → r'.exchanges = r.exchanges ∧ r'.source = r.source := by
  have hone : ∀ {reg : Registry} (n : Nat) (t : Ty) (dest d : Content), reg.Reachable s →
      (((plain s).decode n t dest).run s src reg).answer = some ⟨.ok (), d⟩ →
      ∀ {reg' : Registry} (dest' : Content), reg'.Sound s → ∃ q v,
        (plain s).Ends .dynamic dest' src reg' q ∧ q.answer = some ⟨.ok (), .dynamic v⟩ ∧
          q.exchanges = (((plain s).decode n t dest).run s src reg).exchanges ∧
          q.source = (((plain s).decode n t dest).run s src reg).source := by
    intro reg n t dest d hr hd reg' dest' hr'
    obtain ⟨w, hw⟩ := decode_walk hs hr.sound hd
    have ht := Dialogue.run_tells s ((plain s).decode n t dest) src reg
    rw [hw] at ht
    obtain ⟨q, hq, ha, hx, hsrc⟩ := ends_dynamic hs hr' ht dest'
    exact ⟨q, w.value, hq, ha, hx.trans hw.symm, hsrc⟩
  intro r hd
  refine ⟨fun reg' dest' hr' => hone n t dest d hr hd dest' hr'.sound, ?_⟩
  intro reg' m t' dest' d' hr' r' hd'
  have he : (Registry.empty false).Sound s := Registry.sound_empty s false
  obtain ⟨q, _, hq, -, hx, hsrc⟩ := hone n t dest d hr hd dest he
  obtain ⟨q', _, hq', -, hx', hsrc'⟩ := hone m t' dest' d' hr' hd' dest he
  have hsame := hq.alike he he hq'
  exact ⟨hx'.symm.trans (hsame.exchanges.symm.trans hx),
    hsrc'.symm.trans (hsame.source.symm.trans hsrc)⟩

/-- A streamed map that was decoded by hand, and is taken whole as a value of no fixed type. -/
theorem decode_aligned_pairs :
    let s := Catalog.schema []
    let r := ((plain s).decode 9 (.named "Pairs") (.list [])).run s Catalog.onePair (.empty true)
    s.DecodesOne ∧ (Registry.empty true).Reachable s ∧
      r.answer = some ⟨.ok (), .list [.list [.text "a", .int 1]]⟩ ∧
      ∃ q v, (plain s).Ends .dynamic (.dynamic .nil) Catalog.onePair (.empty false) q ∧
        q.answer = some ⟨.ok (), .dynamic v⟩ ∧ q.exchanges = r.exchanges ∧ q.source = r.source := by
  have hs := Catalog.schema_decodesOne []
  have hr : (Registry.empty true).Reachable (Catalog.schema []) := .empty true
  have hd : (((plain (Catalog.schema [])).decode 9 (.named "Pairs") (.list [])).run
    (Catalog.schema []) Catalog.onePair (.empty true)).answer =
      some ⟨.ok (), .list [.list [.text "a", .int 1]]⟩ := by rfl
  have ha := decode_aligned hs hr 9 (.named "Pairs") (.list []) _ Catalog.onePair hd
  exact ⟨hs, hr, hd, ha.1 (.empty false) (.dynamic .nil) (.empty false)⟩

end Setup

end Decant
