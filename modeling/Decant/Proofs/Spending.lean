import Decant.Proofs.TwoStages

/-!
# Scripts are spent

* `Script.tokens_replay`, `Script.announce_ok`, `Script.answer_exhausted` — what a call takes from a script:
  the announcement of a value takes nothing, every other call a token, and where no tokens are left each call
  fails.
* `Leads.calls_le` — calls that keep to the protocol are paid for by the tokens that they take.
* `Dialogue.Spends` — what a dialogue comes to with a script, and how many tokens it leaves.
* `Decoding.tallied` — the callback of a container that counts how often it is run; `Decoding.walk_tallied`,
  the count changes nothing else.
* `Decoding.walk_spends` — every round of a container but the first takes a token.
* `Setup.decode_script_ends` — decoding a script comes to an end, whatever lengths its containers declare.

The bounds are in tokens that are there. A declared length is used for nothing but to stop earlier.
-/

namespace Decant

/-! ## What a call takes from a script -/

namespace Script

variable {s s' : Script} {c : Call}

theorem tokens_replay (hc : c ≠ .type) (s : Script) :
    (TokenSource.answer c s).2.tokens = s.tokens.tail := by
  have h : TokenSource.answer c s = replay c s := by
    cases c with
    | type => exact absurd rfl hc
    | _ => rfl
  obtain ⟨tokens⟩ := s
  rw [h]
  cases tokens <;> rfl

theorem announce_ok {tag : Tag} (h : TokenSource.answer .type s = (.ok tag, s')) :
    s' = s ∧ s.tokens ≠ [] := by
  obtain ⟨_ | ⟨t, rest⟩⟩ := s
  · cases h
  · change announce ⟨t :: rest⟩ = (.ok tag, s') at h
    simp only [announce] at h
    split at h
    · cases h
      exact ⟨rfl, List.cons_ne_nil t rest⟩
    · cases h

/-- Only the announcement of a value is answered by the end signal where no tokens are left. -/
theorem answer_exhausted (hs : s.tokens = []) (c : Call) :
    ∃ e, TokenSource.answer c s = (.error e, s) ∧ (c ≠ .type → e ≠ .ended) := by
  obtain ⟨tokens⟩ := s
  obtain rfl : tokens = [] := hs
  cases c with
  | type => exact ⟨.ended, rfl, fun h => absurd rfl h⟩
  | _ => exact ⟨_, rfl, fun _ => nofun⟩

/-- No call puts a token back. -/
theorem tokens_answer_le (c : Call) (s : Script) :
    (TokenSource.answer c s).2.tokens.length ≤ s.tokens.length := by
  by_cases hc : c = .type
  · subst hc
    obtain ⟨_ | ⟨t, rest⟩⟩ := s
    · exact Nat.le_refl _
    · change (announce ⟨t :: rest⟩).2.tokens.length ≤ _
      simp only [announce]
      split
      · exact Nat.le_refl _
      · exact Nat.le_succ _
  · rw [tokens_replay hc, List.length_tail]
    exact Nat.sub_le _ 1

/-- A call that takes something takes a token. -/
theorem tokens_lt_of_ok (hc : c ≠ .type) {a : c.Reply} (h : TokenSource.answer c s = (.ok a, s')) :
    s'.tokens.length < s.tokens.length := by
  have htail : s'.tokens = s.tokens.tail := by rw [← tokens_replay hc, h]
  have hne : s.tokens ≠ [] := by
    intro hs
    obtain ⟨e, he, -⟩ := answer_exhausted hs c
    rw [h] at he
    cases he
  have hpos := List.length_pos_iff.2 hne
  rw [htail, List.length_tail]
  omega

end Script

theorem Tells.tokens_le {src src' : Script} {xs : List Exchange} (h : Tells src xs src') :
    src'.tokens.length ≤ src.tokens.length := by
  induction h with
  | nil src => exact Nat.le_refl _
  | @cons src _ _ x _ hx _ ih =>
    have := Script.tokens_answer_le x.call src
    rw [hx] at this
    exact Nat.le_trans ih this

/-! ## Calls are paid for by tokens -/

namespace Due

/-- The announcement of a value is only asked for where a value is due. -/
def Proper (d : Due) : Prop := d ≠ .call .type

theorem proper_element (c : Container) (i : Nat) : ∀ d ∈ c.element i, d.Proper := by
  cases c <;> simp [Container.element, Proper]

theorem proper_onward (c : Container) (length : Option Nat) (i : Nat) :
    ∀ d ∈ onward c length i, d.Proper := by
  intro d hd
  rcases List.mem_append.1 hd with hd | hd
  · exact proper_element c i d hd
  · obtain rfl := List.mem_singleton.1 hd
    exact nofun

theorem proper_entered (c : Container) : ∀ (length : Option Nat), ∀ d ∈ entered c length, d.Proper
  | none => by simp [entered, Proper]
  | some 0 => by simp [entered, Proper]
  | some (n + 1) => proper_onward c (some (n + 1)) 0

theorem proper_due (tag : Tag) : tag.due.Proper := by
  cases tag <;> exact nofun

theorem due_ne_value (tag : Tag) : tag.due ≠ .value := by
  cases tag <;> exact nofun

theorem proper_after (d : Due) (x : Exchange) : ∀ e ∈ d.after x, e.Proper := by
  unfold after
  split
  · simpa using proper_due _
  · exact proper_entered _ _
  · exact nofun
  · exact proper_onward _ _ _
  · simp [Proper]
  · exact nofun
  · simp [Proper]

theorem value_of_next? {d : Due} (hd : d.Proper) (h : d.next? = some .type) : d = .value := by
  cases d with
  | value => rfl
  | call c =>
    cases h
    exact absurd rfl hd
  | more c length i _ =>
    simp only [next?] at h
    split at h <;> cases h
  | never => cases h

/-- After a failure that does not only say that a container holds nothing more, nothing is due. -/
theorem after_error {d : Due} {x : Exchange} {e : Error} (hx : d.next? = some x.call)
    (ha : x.answer = .error e) (he : d = .value ∨ e ≠ .ended) : d.after x = [.never] := by
  obtain ⟨c, a⟩ := x
  obtain rfl : a = .error e := ha
  cases d with
  | value =>
    cases hx
    rfl
  | call c' =>
    cases hx
    cases c <;> rfl
  | more c' length i _ =>
    replace he := he.resolve_left nofun
    rw [next?] at hx
    split at hx
    · cases hx
      rfl
    · cases hx
      cases e with
      | ended => exact absurd rfl he
      | _ => rfl
  | never => rfl

end Due

namespace Leads

variable {d : Due} {ds es : List Due} {x : Exchange} {xs : List Exchange}

/-- Such a failure is the last of the calls. -/
theorem of_failed {e : Error} (hx : d.next? = some x.call) (ha : x.answer = .error e)
    (he : d = .value ∨ e ≠ .ended) (h : Leads (d.after x ++ ds) xs es) : xs = [] := by
  rw [Due.after_error hx ha he] at h
  cases h with
  | nil => rfl
  | cons hx => cases hx

/-- **Calls that keep to the protocol are paid for by the tokens that they take.** There are at most two for
each token, the announcement and the call that takes it, and one that finds no token left. If no value is
due and there are tokens, the first call takes one, which leaves room for a call less. -/
theorem calls_le (h : Leads ds xs es) (hp : ∀ d ∈ ds, d.Proper) {src src' : Script}
    (ht : Tells src xs src') :
    xs.length + 2 * src'.tokens.length ≤ 2 * src.tokens.length + 1 ∧
      (src.tokens ≠ [] → ds.head? ≠ some .value →
        xs.length + 2 * src'.tokens.length ≤ 2 * src.tokens.length) := by
  induction h generalizing src with
  | nil ds =>
    cases ht
    simp
  | @cons d ds es x xs hx h ih =>
    cases ht with
    | @cons _ src₁ _ _ _ ha ht =>
    have hp' : ∀ e ∈ d.after x ++ ds, e.Proper := by
      intro e he
      rcases List.mem_append.1 he with he | he
      · exact d.proper_after x e he
      · exact hp e (List.mem_cons_of_mem d he)
    obtain ⟨hle, hless⟩ := ih hp' ht
    rw [List.length_cons]
    by_cases hc : x.call = .type
    · obtain rfl := Due.value_of_next? (hp d List.mem_cons_self) (hx.trans (congrArg some hc))
      refine ⟨?_, fun _ hd => absurd rfl hd⟩
      obtain ⟨c, a⟩ := x
      obtain rfl : c = .type := hc
      cases a with
      | ok tag =>
        obtain ⟨rfl, hne⟩ := Script.announce_ok ha
        have := hless hne (mt Option.some.inj (Due.due_ne_value tag))
        omega
      | error e =>
        obtain rfl := of_failed hx rfl (.inl rfl) h
        have := (Tells.cons ha ht).tokens_le
        simp only [List.length_nil]
        omega
    · have htail : src₁.tokens = src.tokens.tail := by rw [← Script.tokens_replay hc, ha]
      by_cases hs : src.tokens = []
      · obtain ⟨e, he, hne⟩ := Script.answer_exhausted hs x.call
        rw [he] at ha
        obtain rfl := of_failed hx (congrArg Prod.fst ha).symm (.inr (hne hc)) h
        have := ht.tokens_le
        rw [htail, hs] at this
        refine ⟨?_, fun h => absurd hs h⟩
        simp only [List.length_nil, List.tail_nil] at this ⊢
        omega
      · have hpos := List.length_pos_iff.2 hs
        rw [htail, List.length_tail] at hle
        constructor <;> intros <;> omega

/-- Where nothing is due any more in place of a value, a token was taken. -/
theorem tokens_lt (h : Leads [.value] xs []) {src src' : Script} (ht : Tells src xs src') :
    src'.tokens.length < src.tokens.length := by
  cases h with
  | @cons _ _ _ x xs hx h =>
  cases ht with
  | cons ha ht =>
  obtain ⟨c, a⟩ := x
  cases hx
  cases a with
  | error e => cases h with | cons hx => cases hx
  | ok tag =>
    obtain ⟨rfl, hne⟩ := Script.announce_ok ha
    have hp : ∀ d ∈ [tag.due], d.Proper := by simpa using Due.proper_due tag
    have hle := (calls_le h hp ht).2 hne (mt Option.some.inj (Due.due_ne_value tag))
    cases h with
    | cons =>
      rw [List.length_cons] at hle
      omega

end Leads

/-! ## What a dialogue leaves of a script -/

namespace Dialogue

variable {s : Schema} {short : Prop} {α β : Type} {x : Dialogue α} {src : Script}
  {P Q : α → Nat → Prop} {S : β → Nat → Prop}

/-- Led with a script, a dialogue comes to a result in keeping with the number of tokens left, or is short of
steps, which may be ruled out. -/
def Spends (s : Schema) (short : Prop) (x : Dialogue α) (src : Script) (Q : α → Nat → Prop) : Prop :=
  ∀ reg, let r := x.run s src reg
    (r.answer = none → short) ∧ ∀ a, r.answer = some a → Q a r.source.tokens.length

namespace Spends

theorem done {a : α} (h : Q a src.tokens.length) : (done a).Spends s short src Q :=
  fun _ => ⟨nofun, fun _ ha => Option.some.inj ha ▸ h⟩

theorem exhausted (h : short) : (exhausted : Dialogue α).Spends s short src Q :=
  fun _ => ⟨fun _ => h, nofun⟩

theorem ask {c : Call} {next : Answer c → Dialogue α}
    (h : (next (TokenSource.answer c src).1).Spends s short (TokenSource.answer c src).2 Q) :
    (ask c next).Spends s short src Q := h

theorem bind {f : α → Dialogue β} (h : x.Spends s short src P)
    (hf : ∀ a src', P a src'.tokens.length → (f a).Spends s short src' S) :
    (x.bind f).Spends s short src S := by
  intro reg
  obtain ⟨hnone, hsome⟩ := h reg
  rw [run_bind]
  unfold andRun
  split
  · rename_i hanswer
    exact ⟨fun _ => hnone hanswer, nofun⟩
  · rename_i a hanswer
    exact hf a _ (hsome a hanswer) _

theorem mono (h : x.Spends s short src P) (hq : ∀ a n, P a n → Q a n) : x.Spends s short src Q :=
  fun reg => ⟨(h reg).1, fun a ha => hq a _ ((h reg).2 a ha)⟩

/-- No dialogue puts a token back. -/
theorem of_answered (h : ∀ reg, (x.run s src reg).answer = none → short) :
    x.Spends s short src fun _ n => n ≤ src.tokens.length :=
  fun reg => ⟨h reg, fun _ _ => (x.run_tells s src reg).tokens_le⟩

end Spends

end Dialogue

/-! ## Callbacks that are counted -/

/-- A destination, and how often a callback was run on it. -/
structure Tally (δ : Type) where
  dest : δ
  runs : Nat

namespace Decoding

variable {δ β : Type} {s : Schema} {short : Prop} {src : Script} {body : Nat → Decoding δ Unit}
  {Q : Ending δ β → Nat → Prop} {d : δ} {t : Tally δ} {k : Nat}

/-- A callback that counts how often it is run. -/
def tallied (body : Nat → Decoding δ Unit) (i : Nat) : Decoding (Tally δ) Unit := do
  modify fun t => { t with runs := t.runs + 1 }
  focus Tally.dest (fun d t => { t with dest := d }) (body i)

theorem tallied_apply (body : Nat → Decoding δ Unit) (i : Nat) (t : Tally δ) :
    tallied body i t = (body i t.dest).bind fun e => .done ⟨e.result, ⟨e.dest, t.runs + 1⟩⟩ :=
  focus_apply Tally.dest (fun d t => { t with dest := d }) (body i) ⟨t.dest, t.runs + 1⟩

/-- A walk whose callback is counted is the walk, apart from the count. -/
theorem walk_tallied (c : Container) (rounds : Nat) (tag : Tag) (body : Nat → Decoding δ Unit)
    (t : Tally δ) :
    ((walk c rounds tag (tallied body) t).bind fun e => .done ⟨e.result, e.dest.dest⟩) =
      walk c rounds tag body t.dest := by
  have hbody : ∀ i, Follows (fun (t : Tally δ) d => t.dest = d) (fun t d => t.dest = d)
      (tallied body i) (body i) := by
    rintro i t _ rfl β k k' hok herror
    rw [tallied_apply, Dialogue.bind_bind]
    refine congrArg (body i t.dest).bind (funext fun ⟨result, d⟩ => ?_)
    cases result with
    | ok a => exact hok a ⟨d, t.runs + 1⟩ d rfl
    | error e => exact herror e ⟨d, t.runs + 1⟩ d rfl
  have hwalk := Follows.walk (fun _ _ h => h) c rounds tag hbody
  refine (hwalk t t.dest rfl _ .done ?_ ?_).trans (Dialogue.bind_done _)
  · rintro a t _ rfl
    rfl
  · rintro e t _ rfl
    rfl

/-- A call that is made in front of something else: either it fails, or it was answered. -/
theorem spends_ask {c : Call} {f : c.Reply → Decoding δ β}
    (hok : ∀ a src', TokenSource.answer c src = (.ok a, src') → (f a d).Spends s short src' Q)
    (herror : ∀ e src', TokenSource.answer c src = (.error e, src') →
      Q ⟨.error e, d⟩ src'.tokens.length) :
    ((ask c >>= f) d).Spends s short src Q := by
  refine .ask ?_
  rcases ha : TokenSource.answer c src with ⟨_ | a, src'⟩
  · exact .done (herror _ _ ha)
  · exact hok a src' ha

/-- Going on to an element takes a token. -/
theorem spends_hasNext {c : Container} {i : Nat} {f : Bool → Decoding δ β}
    (htrue : ∀ src', src'.tokens.length < src.tokens.length → (f true d).Spends s short src' Q)
    (hfalse : ∀ src', src'.tokens.length ≤ src.tokens.length → (f false d).Spends s short src' Q)
    (herror : ∀ e n, n ≤ src.tokens.length → Q ⟨.error e, d⟩ n) :
    ((hasNext c i >>= f) d).Spends s short src Q := by
  have hc : Call.next c i ≠ .type := nofun
  have hle := Script.tokens_answer_le (.next c i) src
  refine .ask ?_
  rcases ha : TokenSource.answer (.next c i) src with ⟨_ | _, src'⟩
  · rename_i e
    rw [ha] at hle
    cases e with
    | ended => exact hfalse src' hle
    | _ => exact .done (herror _ _ hle)
  · exact htrue src' (Script.tokens_lt_of_ok hc ha)

/-- A run of the callback, and what comes after it. -/
theorem spends_tallied {i bound : Nat} {m : Decoding (Tally δ) β}
    (hb : ∀ reg, ((body i t.dest).run s src reg).answer = none → short)
    (hbound : t.runs + 1 + src.tokens.length ≤ bound)
    (hm : ∀ u src', u.runs = t.runs + 1 → src'.tokens.length ≤ src.tokens.length →
      (m u).Spends s short src' fun e n => e.dest.runs + n ≤ bound) :
    ((tallied body i >>= fun _ => m) t).Spends s short src fun e n => e.dest.runs + n ≤ bound := by
  rw [bind_apply, tallied_apply, Dialogue.bind_bind]
  refine (Dialogue.Spends.of_answered hb).bind fun ⟨result, d⟩ src' hle => ?_
  cases result with
  | error e =>
    refine .done ?_
    show t.runs + 1 + src'.tokens.length ≤ bound
    omega
  | ok _ => exact hm ⟨d, t.runs + 1⟩ src' rfl hle

/-- How many rounds of a container, from element `i` on, are made without asking for an element. -/
def given (length : Option Nat) (i : Nat) : Nat := if length.isNone || i != 0 then 0 else 1

theorem given_succ (length : Option Nat) (i : Nat) : given length (i + 1) = 0 := by simp [given]

/-- Every round takes a token, except the first one if the length of the container is declared. So runs of
the callback and tokens that are left never add up to more. -/
theorem walkFrom_spends (c : Container) (length : Option Nat)
    (hb : ∀ i d src reg, src.tokens.length ≤ k →
      ((body i d).run s (src : Script) reg).answer = none → short) (rounds : Nat) :
    ∀ (i : Nat) (t : Tally δ) (src : Script), src.tokens.length ≤ k →
      (short ∨ src.tokens.length + given length i < rounds) →
        (walkFrom c length (tallied body) rounds i t).Spends s short src
          fun e n => e.dest.runs + n ≤ t.runs + src.tokens.length + given length i := by
  induction rounds with
  | zero => exact fun i t src _ hr => .exhausted (hr.resolve_right (Nat.not_lt_zero _))
  | succ rounds ih =>
    intro i t src hk hr
    have hround : ∀ src' : Script, src'.tokens.length + 1 ≤ src.tokens.length + given length i →
        src'.tokens.length ≤ src.tokens.length →
        ((tallied body i >>= fun _ => walkFrom c length (tallied body) rounds (i + 1)) t).Spends s short
          src' fun e n => e.dest.runs + n ≤ t.runs + src.tokens.length + given length i := by
      intro src' hfewer hle
      refine spends_tallied (fun reg => hb i _ src' reg (by omega)) (by omega) fun u src₂ hu hle₂ => ?_
      have hr' : short ∨ src₂.tokens.length + given length (i + 1) < rounds := by
        rw [given_succ]
        exact hr.imp_right fun hr => by omega
      refine (ih (i + 1) u src₂ (by omega) hr').mono fun e n h => ?_
      rw [given_succ] at h
      omega
    have hnone : ∀ n ≤ src.tokens.length,
        t.runs + n ≤ t.runs + src.tokens.length + given length i := by
      intro n hn
      omega
    unfold walkFrom goesOn
    split
    · exact .done (hnone _ (Nat.le_refl _))
    · split
      · rename_i hask
        have hgiven : given length i = 0 := if_pos hask
        exact spends_hasNext (fun src' hlt => hround src' (by omega) (by omega))
          (fun src' hle => .done (hnone _ hle)) fun _ n hn => hnone n hn
      · rename_i hask
        have hgiven : given length i = 1 := if_neg hask
        exact hround src (by omega) (Nat.le_refl _)

/-- **A container runs its callback at most once more than there are tokens behind its start**, whatever
length it declares, and comes to an end if the callback always does. -/
theorem walk_spends (c : Container) (rounds : Nat) (tag : Tag)
    (hb : ∀ i d src' reg, src'.tokens.length < src.tokens.length →
      ((body i d).run s (src' : Script) reg).answer = none → short)
    (hr : short ∨ src.tokens.length < rounds) (t : Tally δ) :
    (walk c rounds tag (tallied body) t).Spends s short src
      fun e _ => e.dest.runs ≤ t.runs + src.tokens.tail.length + 1 := by
  have hnone : t.runs ≤ t.runs + src.tokens.tail.length + 1 := by omega
  unfold walk
  split
  · exact spends_ask (fun _ _ _ => .done hnone) fun _ _ _ => hnone
  · split
    · refine spends_ask (fun length src' ha => ?_) fun _ _ _ => hnone
      have hc : Call.enter c ≠ .type := nofun
      have hlt := Script.tokens_lt_of_ok hc ha
      have htail : src'.tokens = src.tokens.tail := by rw [← Script.tokens_replay hc, ha]
      have hfree : given length 0 ≤ 1 := by unfold given; split <;> omega
      have hfrom := walkFrom_spends (k := src'.tokens.length) c length
        (fun i d src₂ reg h => hb i d src₂ reg (by omega)) rounds 0 t src' (Nat.le_refl _)
        (hr.imp_right fun hr => by omega)
      rw [htail] at hfrom
      refine hfrom.bind fun ⟨result, u⟩ src₂ hu => ?_
      replace hu : u.runs + src₂.tokens.length ≤ t.runs + src.tokens.tail.length + given length 0 := hu
      have hruns : u.runs ≤ t.runs + src.tokens.tail.length + 1 := by omega
      cases result with
      | error e => exact .done hruns
      | ok n => exact spends_ask (fun _ _ _ => .done hruns) fun _ _ _ => hruns
    · exact .done hnone

end Decoding

namespace Setup

open Decoding

variable {s : Schema}

/-- **Decoding a script comes to an end**, unless types that decode by hand go round in circles. It makes at
most two calls for each token and one more, and a success takes a token. A container runs its callback at
most once more than there are tokens behind its start, whatever length it declares and whatever the callback
does; and going through it comes to an end if the callback always does. -/
theorem decode_script_ends (hs : s.DecodesOne) {reg : Registry} (hr : reg.Reachable s) (t : Ty)
    (dest : Content) (tokens : List Token) :
    let src : Script := ⟨tokens⟩
    (s.Grounded → ∃ r, (plain s).Ends t dest src reg r) ∧
    (∀ n, let r := ((plain s).decode n t dest).run s src reg
      r.exchanges.length ≤ 2 * tokens.length + 1 ∧
        ∀ d, r.answer = some ⟨.ok (), d⟩ → r.source.tokens.length < tokens.length) ∧
    ∀ (δ : Type) (c : Container) (rounds : Nat) (tag : Tag) (body : Nat → Decoding δ Unit) (d : δ)
      (reg' : Registry),
      let q := (walk c rounds tag (tallied body) ⟨d, 0⟩).run s src reg'
      (walk c rounds tag body d).run s src reg' =
        ⟨q.answer.map fun e => ⟨e.result, e.dest.dest⟩, q.source, q.registry, q.exchanges, q.notes⟩ ∧
      (∀ e, q.answer = some e → e.dest.runs ≤ tokens.tail.length + 1) ∧
      (tokens.length < rounds → (∀ i d src reg, src.tokens.length < tokens.length →
        ((body i d).run s (src : Script) reg).answer ≠ none) → q.answer ≠ none) := by
  intro src
  have hp : ∀ d ∈ [Due.value], d.Proper := by simp [Due.Proper]
  refine ⟨fun hg => ?_, fun n => ?_, fun δ c rounds tag body d reg' => ⟨?_, fun e he => ?_, ?_⟩⟩
  · -- The budget lasts for one call more than a script of so many tokens allows.
    obtain ⟨n, hn⟩ := direct_enough hs hg t (2 * tokens.length + 2)
    refine ⟨_, ends_of_answer (n := n) hr.sound fun hnone => ?_⟩
    obtain ⟨es, hleads, -, hlast⟩ := (decodeDirect_meets hn dest []).run s src (.empty false)
    have hle := (hleads.calls_le hp (Dialogue.run_tells s _ src (.empty false))).1
    have hlong := hlast hnone
    have hsrc : src.tokens.length = tokens.length := rfl
    omega
  · intro r
    have htells : Tells src r.exchanges r.source := Dialogue.run_tells s _ src reg
    obtain ⟨ds, hleads, hnothing⟩ := decode_leads hs hr.sound n t dest src
    constructor
    · exact Nat.le_trans (Nat.le_add_right _ _) (hleads.calls_le hp htells).1
    · intro d hd
      obtain rfl := hnothing d hd
      exact hleads.tokens_lt htells
  · rw [← walk_tallied c rounds tag body ⟨d, 0⟩]
    exact Dialogue.run_map s _ _ src reg'
  · have hspends : Dialogue.Spends s True (walk c rounds tag (tallied body) ⟨d, 0⟩) src _ :=
      walk_spends c rounds tag (fun _ _ _ _ _ _ => trivial) (.inl trivial) _
    have hruns := (hspends reg').2 e he
    rwa [Nat.zero_add] at hruns
  · intro hrounds hb
    have hspends : Dialogue.Spends s False (walk c rounds tag (tallied body) ⟨d, 0⟩) src _ :=
      walk_spends c rounds tag hb (.inr hrounds) _
    exact (hspends reg').1

/-- An array that declares as many elements as there can be, and holds none: both bounds are reached. -/
theorem decode_script_ends_bare :
    let s := Catalog.schema []
    let src : Script := ⟨[.enter .array (some 18446744073709551615)]⟩
    let r := ((plain s).decode 9 (.named "Range") (.list [])).run s src (.empty true)
    let callback : Nat → Decoding Unit Unit := fun _ => pure ()
    let q := (walk .array 9 .array (tallied callback) ⟨(), 0⟩).run s src (.empty true)
    s.DecodesOne ∧ s.Grounded ∧ (Registry.empty true).Reachable s ∧
      (∃ r, (plain s).Ends (.named "Range") (.list []) src (.empty true) r) ∧
      r.exchanges.length ≤ 2 * src.tokens.length + 1 ∧ r.exchanges.length = 3 ∧
      q.answer ≠ none ∧ q.answer.map (·.dest.runs) = some (src.tokens.tail.length + 1) := by
  intro s src r callback q
  have hs := Catalog.schema_decodesOne []
  have hg := Catalog.schema_grounded []
  have hr : (Registry.empty true).Reachable (Catalog.schema []) := .empty true
  obtain ⟨hends, hcalls, hloop⟩ := decode_script_ends hs hr (.named "Range") (.list []) src.tokens
  obtain ⟨-, -, hend⟩ := hloop Unit .array 9 .array callback () (.empty true)
  have hfew : src.tokens.length < 9 := by decide
  have hthree : r.exchanges.length = 3 := by decide +kernel
  have hone : q.answer.map (·.dest.runs) = some (src.tokens.tail.length + 1) := by decide +kernel
  exact ⟨hs, hg, hr, hends hg, (hcalls 9).1, hthree, hend hfew fun _ _ _ _ _ => nofun, hone⟩

end Setup

end Decant
