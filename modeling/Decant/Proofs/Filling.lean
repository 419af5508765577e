import Decant.Decoding.Container

/-!
# Filling a map in place

* `Decoding.Follows` — two decodings that ask the same questions and end with the same results,
  while what they work on is related by one relation as long as they succeed, and by another where
  they fail.
* `Decoding.Follows.walk` — walks whose bodies follow each other do.
* `Decoding.refill` — a map from text decoded into the emptied destination, each entry afresh.
* `Decoding.textMap_eq` — filling a map through one scratch entry is decoding each entry afresh.

The scratch entry is empty again before every key, because what was decoded is moved out of it. An
entry that fails leaves something in it, but then no other entry is decoded.
-/

namespace Decant

namespace Decoding

variable {δ γ α β : Type} {R E : δ → γ → Prop}

/-- Decoding goes exactly as some other decoding goes that starts from a related destination:
whatever goes on alike after related ends, the two dialogues are the same. The first relation is
the one of destinations after success, the second of those after a failure. -/
def Follows (R E : δ → γ → Prop) (m : Decoding δ α) (m' : Decoding γ α) : Prop :=
  ∀ d d', R d d' → ∀ {β : Type} (k : Ending δ α → Dialogue β) (k' : Ending γ α → Dialogue β),
    (∀ a c c', R c c' → k ⟨.ok a, c⟩ = k' ⟨.ok a, c'⟩) →
    (∀ e c c', E c c' → k ⟨.error e, c⟩ = k' ⟨.error e, c'⟩) →
    (m d).bind k = (m' d').bind k'

namespace Follows

theorem pure (a : α) : Follows R E (Pure.pure a : Decoding δ α) (Pure.pure a) :=
  fun d d' hr _ _ _ hk _ => hk a d d' hr

theorem fail (hRE : ∀ d d', R d d' → E d d') (e : Error) :
    Follows R E (fail e : Decoding δ α) (Decoding.fail e) :=
  fun d d' hr _ _ _ _ hk => hk e d d' (hRE d d' hr)

theorem exhausted : Follows R E (exhausted : Decoding δ α) Decoding.exhausted :=
  fun _ _ _ _ _ _ _ _ => rfl

theorem ask (hRE : ∀ d d', R d d' → E d d') (c : Call) :
    Follows R E (ask c : Decoding δ c.Reply) (Decoding.ask c) := by
  intro d d' hr β k k' hok herror
  refine congrArg (Dialogue.ask c) (funext fun a => ?_)
  cases a with
  | ok a => exact hok a d d' hr
  | error e => exact herror e d d' (hRE d d' hr)

theorem attempt_ask (c : Call) :
    Follows R E (attempt (Decoding.ask c) : Decoding δ (Except Error c.Reply))
      (attempt (Decoding.ask c)) :=
  fun d d' hr _ _ _ hok _ => congrArg (Dialogue.ask c) (funext fun a => hok a d d' hr)

theorem bind {m : Decoding δ α} {m' : Decoding γ α} {f : α → Decoding δ β} {f' : α → Decoding γ β}
    (hm : Follows R E m m') (hf : ∀ a, Follows R E (f a) (f' a)) :
    Follows R E (m >>= f) (m' >>= f') := by
  intro d d' hr β k k' hok herror
  rw [bind_apply, bind_apply, Dialogue.bind_bind, Dialogue.bind_bind]
  refine hm d d' hr _ _ (fun a c c' hc => ?_) (fun e c c' hc => ?_)
  · exact hf a c c' hc k k' hok herror
  · exact herror e c c' hc

/-- A decoding that works on a fresh destination of its own follows itself. -/
theorem fresh {ρ : Type} (hRE : ∀ d d', R d d' → E d d') (start : ρ) (m : Decoding ρ α) :
    Follows R E (fresh start m : Decoding δ (α × ρ)) (Decoding.fresh start m) := by
  intro d d' hr β k k' hok herror
  rw [fresh_apply, fresh_apply, Dialogue.bind_bind, Dialogue.bind_bind]
  refine congrArg (m start).bind (funext fun e => ?_)
  obtain ⟨result, dest⟩ := e
  cases result with
  | ok a => exact hok (a, dest) d d' hr
  | error e => exact herror e d d' (hRE d d' hr)

theorem modify {f : δ → δ} {g : γ → γ} (h : ∀ d d', R d d' → R (f d) (g d')) :
    Follows R E (modify f : Decoding δ Unit) (modify g) :=
  fun d d' hr _ _ _ hok _ => hok () (f d) (g d') (h d d' hr)

private theorem goesOn (hRE : ∀ d d', R d d' → E d d') (c : Container) (length : Option Nat)
    (i : Nat) :
    Follows R E (goesOn c length i : Decoding δ Bool) (Decoding.goesOn c length i) := by
  unfold Decoding.goesOn
  split
  · refine (attempt_ask (.next c i)).bind fun a => ?_
    cases a with
    | ok _ => exact pure true
    | error e =>
      cases e with
      | ended => exact pure false
      | _ => exact fail hRE _
  · exact pure true

private theorem walkFrom (hRE : ∀ d d', R d d' → E d d') (c : Container) (length : Option Nat)
    {body : Nat → Decoding δ Unit} {body' : Nat → Decoding γ Unit}
    (hbody : ∀ i, Follows R E (body i) (body' i)) (rounds i : Nat) :
    Follows R E (walkFrom c length body rounds i) (Decoding.walkFrom c length body' rounds i) := by
  induction rounds generalizing i with
  | zero => exact exhausted
  | succ rounds ih =>
    unfold Decoding.walkFrom
    split
    · exact pure i
    · refine (goesOn hRE c length i).bind fun more => ?_
      cases more with
      | true => exact (hbody i).bind fun _ => ih (i + 1)
      | false => exact pure i

/-- Walks follow each other if their bodies do. -/
theorem walk (hRE : ∀ d d', R d d' → E d d') (c : Container) (rounds : Nat) (tag : Tag)
    {body : Nat → Decoding δ Unit} {body' : Nat → Decoding γ Unit}
    (hbody : ∀ i, Follows R E (body i) (body' i)) :
    Follows R E (walk c rounds tag body) (Decoding.walk c rounds tag body') := by
  unfold Decoding.walk
  split
  · exact (ask hRE .nil).bind fun _ => pure 0
  · split
    · exact (ask hRE (.enter c)).bind fun length =>
        (walkFrom hRE c length hbody rounds 0).bind fun n =>
          (ask hRE (.leave c n)).bind fun _ => pure n
    · exact fail hRE _

end Follows

/-- Decode a map from text into the emptied destination, each entry afresh. -/
def refill (s : Schema) (resolve : Ty → Decoding Content Strategy) (rounds : Nat) (value : Ty) :
    Strategy := do
  let kf ← resolve .text
  let vf ← resolve value
  let tag : Tag ← ask .type
  set (Content.map [])
  let _ ← walk .map rounds tag fun i => do
    let (k, v) ← entry s .text value kf vf i
    modify (Content.putEntry k v)
  return tag

/-- One round through the scratch entry is one entry decoded afresh. Before it, the scratch entry is
empty; after a failure, only the map counts. -/
theorem fillEntry_follows (s : Schema) (value : Ty) (kf vf : Strategy) (i : Nat) :
    Follows (fun m c => m = Filling.after s value c) (fun m c => m.made = c)
      (fillEntry s value kf vf i) (do
        let (k, v) ← entry s .text value kf vf i
        modify (Content.putEntry k v)) := by
  rintro _ c rfl β k k' hok herror
  unfold fillEntry entry
  simp only [bind_assoc]
  simp only [bind_apply, focus_apply, fresh_apply, Dialogue.bind_bind]
  refine congrArg (kf (s.initial .text)).bind (funext fun ek => ?_)
  obtain ⟨rk, key⟩ := ek
  cases rk with
  | error e => exact herror e _ c rfl
  | ok _ =>
    refine congrArg (Dialogue.ask (.toValue i)) (funext fun a => ?_)
    cases a with
    | error e => exact herror e _ c rfl
    | ok _ =>
      change ((vf (s.initial value)).bind _).bind k = ((vf (s.initial value)).bind _).bind k'
      rw [Dialogue.bind_bind, Dialogue.bind_bind]
      refine congrArg (vf (s.initial value)).bind (funext fun ev => ?_)
      obtain ⟨rv, v⟩ := ev
      cases rv with
      | error e => exact herror e _ c rfl
      | ok _ => exact hok () _ (Content.putEntry key v c) rfl

/-- Filling a map through one scratch entry is decoding each entry afresh. -/
theorem textMap_eq (s : Schema) (resolve : Ty → Decoding Content Strategy) (rounds : Nat)
    (value : Ty) : textMap s resolve rounds value = refill s resolve rounds value := by
  unfold textMap refill
  refine congrArg (resolve .text >>= ·) (funext fun kf => ?_)
  refine congrArg (resolve value >>= ·) (funext fun vf => ?_)
  refine congrArg ((ask .type : Decoding Content Tag) >>= ·) (funext fun tag => ?_)
  refine congrArg (set (Content.map []) >>= ·) (funext fun _ => ?_)
  refine congrArg (· >>= fun _ => Pure.pure tag) (funext fun c => ?_)
  have hwalk := Follows.walk (R := fun m c => m = Filling.after s value c)
    (E := fun (m : Filling) c => m.made = c) (fun _ _ h => by rw [h]; rfl) .map rounds tag
    (fillEntry_follows s value kf vf)
  refine (focus_apply _ _ _ c).trans ((hwalk _ c rfl _ _ ?_ ?_).trans (Dialogue.bind_done _))
  · rintro n _ d rfl
    rfl
  · rintro e m d rfl
    rfl

end Decoding

end Decant
