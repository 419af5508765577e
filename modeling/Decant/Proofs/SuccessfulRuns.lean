import Decant.Proofs.WalkOfValue

/-!
# Decoding that comes to a result

* `Dialogue.Gives` — what a dialogue comes to with a source, and how it leaves the source. It does not
  run out of steps.
* `Decoding.Gives` — the same for a decoding that works on a destination and succeeds.
* `Decoding.walk_gives` — going through a container of a value, with an invariant for each element.
-/

namespace Decant

/-- Led with a source, a dialogue comes to a result and leaves the source in a state. -/
inductive Dialogue.Gives {σ α : Type} [TokenSource σ] : Dialogue α → σ → α → σ → Prop
  | done (a : α) (src : σ) : Gives (.done a) src a src
  | ask {c : Call} {next : Answer c → Dialogue α} {a : Answer c} {b : α} {src src' src'' : σ}
      (ha : TokenSource.answer c src = (a, src')) (h : Gives (next a) src' b src'') :
      Gives (.ask c next) src b src''

section Gives

variable {σ α β : Type} [TokenSource σ] {src src' src'' : σ} {a : α} {b : β} {d : Dialogue α}

theorem Dialogue.Gives.bind {f : α → Dialogue β} (h : d.Gives src a src')
    (hf : (f a).Gives src' b src'') : (d.bind f).Gives src b src'' := by
  induction h with
  | done a src => exact hf
  | ask ha _ ih => exact .ask ha (ih hf)

theorem Dialogue.Gives.run (h : d.Gives src a src') (s : Schema) (reg : Registry) :
    (d.run s src reg).answer = some a ∧ (d.run s src reg).source = src' := by
  induction h with
  | done a src => exact ⟨rfl, rfl⟩
  | ask ha _ ih =>
    simp only [Dialogue.run, ha]
    exact ih

end Gives

namespace Decoding

variable {σ δ γ α β : Type} [TokenSource σ] {src src' src'' : σ} {d d' d'' : δ} {a : α} {b : β}
  {m : Decoding δ α}

/-- Led with a source, a decoding succeeds with a result, changes the destination and leaves the source
in a state. -/
def Gives (m : Decoding δ α) (src : σ) (d : δ) (a : α) (d' : δ) (src' : σ) : Prop :=
  (m d).Gives src ⟨.ok a, d'⟩ src'

theorem Gives.pure (a : α) (src : σ) (d : δ) : Gives (pure a) src d a d src := .done _ _

theorem Gives.set (x : δ) (src : σ) (d : δ) : Gives (set x : Decoding δ Unit) src d () x src :=
  .done _ _

theorem Gives.modify (f : δ → δ) (src : σ) (d : δ) :
    Gives (modify f : Decoding δ Unit) src d () (f d) src := .done _ _

theorem Gives.bind {f : α → Decoding δ β} (h : Gives m src d a d' src')
    (hf : Gives (f a) src' d' b d'' src'') : Gives (m >>= f) src d b d'' src'' :=
  Dialogue.Gives.bind h hf

theorem Gives.ask {c : Call} {f : c.Reply → Decoding δ β} {a : c.Reply}
    (ha : TokenSource.answer c src = (.ok a, src')) (hf : Gives (f a) src' d b d' src'') :
    Gives (Decoding.ask c >>= f) src d b d' src'' :=
  Dialogue.Gives.ask ha hf

theorem Gives.fresh {start x : γ} {m : Decoding γ α} (h : Gives m src start a x src') (d : δ) :
    Gives (fresh start m) src d (a, x) d src' := by
  unfold Gives
  rw [fresh_apply]
  exact Dialogue.Gives.bind h (.done _ _)

theorem Gives.focus {part : δ → γ} {put : γ → δ → δ} {m : Decoding γ α} {x : γ}
    (h : Gives m src (part d) a x src') : Gives (focus part put m) src d a (put x d) src' := by
  unfold Gives
  rw [focus_apply]
  exact Dialogue.Gives.bind h (.done _ _)

theorem Gives.attempt (h : Gives m src d a d' src') :
    Gives (attempt m) src d (.ok a) d' src' :=
  Dialogue.Gives.bind h (.done _ _)

theorem Gives.truncated (h : Gives m src d a d' src') : Gives (truncated m) src d a d' src' :=
  Dialogue.Gives.bind h (.done _ _)

/-! ### Containers of a value -/

section walk

variable {c : Container} {f : Frame} {stack : List Frame} {body : Nat → Decoding δ Unit} {S : Nat → δ}

/-- The states are those in front of each element. -/
theorem walkOut_gives (hb : ∀ i < f.length,
      Gives (body i) (⟨f.head? i, none, f :: stack⟩ : Cursor) (S i) () (S (i + 1))
        ⟨none, none, f :: stack⟩) :
    ∀ k i n : Nat, i + k = f.length → k < n →
      Gives (walkOut f.kind (some f.length) body n i)
        (⟨if i = 0 then f.head? 0 else none, none, f :: stack⟩ : Cursor) (S i) f.length (S f.length)
        ⟨none, none, stack⟩
  | 0, i, n + 1, hi, _ => by
    have hnext : (if i = 0 then f.head? 0 else none) = none := by
      split
      · exact Frame.head?_eq_none (by omega)
      · rfl
    have hi : i = f.length := hi
    subst hi
    unfold walkOut walkFrom
    rw [hnext, if_pos (by simp), pure_bind]
    exact Gives.ask (Cursor.answer_leave none _) (.pure _ _ _)
  | k + 1, i, n + 1, hi, hn => by
    have hrest := walkOut_gives hb k (i + 1) n (by omega) (by omega)
    have hround : Gives (body i >>= fun _ => walkOut f.kind (some f.length) body n (i + 1))
        (⟨f.head? i, none, f :: stack⟩ : Cursor) (S i) f.length (S f.length) ⟨none, none, stack⟩ :=
      (hb i (by omega)).bind hrest
    unfold walkOut walkFrom
    rw [if_neg (by simp; omega), goesOn]
    by_cases h : i = 0
    · subst h
      rw [if_neg (by simp), pure_bind, if_pos rfl, bind_assoc]
      exact hround
    · rw [if_neg h, if_pos (by simpa using h), bind_assoc]
      obtain ⟨v, hv⟩ := Frame.exists_head? (f := f) (n := i) (by omega)
      rw [hv] at hround
      have hgo : Gives (hasNext f.kind i) (⟨none, none, f :: stack⟩ : Cursor) (S i) true (S i)
          ⟨some v, none, f :: stack⟩ :=
        Dialogue.Gives.ask (Cursor.answer_next hv (Option.some_ne_none v)) (.done _ _)
      refine hgo.bind ?_
      rw [if_pos rfl, bind_assoc]
      exact hround

/-- **Going through a container whose tag was announced**, with a state in front of each element. -/
theorem walk_gives (stack : List Frame) {v : Value} {n : Nat} (hc : f.kind = c) (hv : Frame.ofValue? v = some f)
    (hn : f.length < n) (hb : ∀ i < f.length,
      Gives (body i) (⟨f.head? i, none, f :: stack⟩ : Cursor) (S i) () (S (i + 1))
        ⟨none, none, f :: stack⟩) :
    Gives (walk c n c.tag body) (⟨none, some v, stack⟩ : Cursor) (S 0) f.length (S f.length)
      ⟨none, none, stack⟩ := by
  subst hc
  rw [walk_eq]
  exact Gives.ask (Cursor.answer_enter none rfl hv)
    (walkOut_gives hb f.length 0 n (Nat.zero_add _) hn)

end walk

end Decoding

end Decant
