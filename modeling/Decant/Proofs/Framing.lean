import Decant.Proofs.Moves
import Decant.Source.Cursor

/-!
# Decoding a value wherever it stands

* `Above` — exchanges that touch no container but those entered among them.
* `Calls.above` — the calls of a decoder do not touch the containers around its value.
* `Dialogue.run_onto`, `Dialogue.run_current` — so a cursor answers them as if there were none, and
  whatever was left in its current slot.
* `Setup.decodeDirect_framed` — decoding a value in front of which a cursor stands goes as decoding it
  on its own.
-/

namespace Decant

/-! ## Calls above a number of containers -/

/-- Whether a call has to do with the container that was entered last. -/
def Call.isInner : Call → Bool
  | next _ _ | leave _ _ | toValue _ => true
  | _ => false

/-- How many containers are open after an exchange. -/
def Exchange.level : Exchange → Nat → Nat
  | ⟨.enter _, .ok _⟩, k => k + 1
  | ⟨.leave _ _, .ok _⟩, k => k - 1
  | _, k => k

/-- Exchanges that touch no containers but `k` that are open, and those entered on the way. -/
def Above : Nat → List Exchange → Prop
  | _, [] => True
  | k, x :: xs => (x.call.isInner = true → 0 < k) ∧ Above (x.level k) xs

theorem Exchange.level_mono (x : Exchange) {k k' : Nat} (h : k ≤ k') : x.level k ≤ x.level k' := by
  unfold level
  split <;> omega

theorem Above.mono {xs : List Exchange} : ∀ {k k' : Nat}, Above k xs → k ≤ k' → Above k' xs := by
  induction xs with
  | nil => exact fun _ _ => trivial
  | cons x xs ih =>
    intro k k' h hk
    exact ⟨fun hx => Nat.lt_of_lt_of_le (h.1 hx) hk, ih h.2 (x.level_mono hk)⟩

/-- Whether so many containers are open as calls are made in. -/
def Place.Within : Place → Nat → Prop
  | .free none, _ => True
  | .free (some _), k | .inside _ _, k => 0 < k

/-- How many containers are open at least after the calls. -/
def Place.floor : Place → Nat → Nat
  | .free _, k => k
  | .inside _ _, k => k - 1

theorem Place.floor_le (p : Place) (k : Nat) : p.floor k ≤ k := by
  cases p with
  | free p => exact Nat.le_refl k
  | inside c i => exact Nat.sub_le k 1

theorem Place.within_entry (c : Container) (i : Nat) {k : Nat} (hk : 0 < k) :
    (Place.free (c.entry? i)).Within k := by
  cases c with
  | array => trivial
  | map => exact hk

/-- **Decoders touch no containers but their own.** What follows their calls may rely on as many
containers as are left open. -/
theorem Calls.above {p : Place} {xs : List Exchange} (h : Calls p xs) :
    ∀ {k : Nat} {ys : List Exchange}, p.Within k → Above (p.floor k) ys → Above k (xs ++ ys) := by
  induction h with
  | nil p => exact fun _ hy => hy
  | @plain p x xs hx _ ih =>
    intro k ys hk hy
    obtain ⟨c, a⟩ := x
    cases c with
    | enter | next | leave | toValue => cases hx
    | _ => exact ⟨nofun, ih hk hy⟩
  | move a _ ih => exact fun hk hy => ⟨fun _ => hk, ih hk hy⟩
  | barred c e _ ih => exact fun hk hy => ⟨nofun, ih hk hy⟩
  | enter c length _ _ ihc ih =>
    intro k ys hk hy
    have hinside := ihc (Nat.succ_pos k) (ih hk hy)
    rw [← List.append_assoc] at hinside
    exact ⟨nofun, hinside⟩
  | givenUp c i => exact fun _ hy => hy.mono (Place.floor_le _ _)
  | first _ _ ihb ih =>
    intro k ys hk hy
    rw [List.append_assoc]
    exact ihb (Place.within_entry _ _ hk) (ih hk hy)
  | next u _ _ ihb ih =>
    intro k ys hk hy
    have hround := ihb (Place.within_entry _ _ hk) (ih hk hy)
    rw [← List.append_assoc] at hround
    exact ⟨fun _ => hk, hround⟩
  | failed c i e => exact fun hk hy => ⟨fun _ => hk, hy.mono (Place.floor_le _ _)⟩
  | ended c i a =>
    intro k ys hk hy
    refine ⟨fun _ => hk, fun _ => hk, ?_⟩
    cases a with
    | ok a => exact hy
    | error e => exact hy.mono (Place.floor_le _ _)
  | leave c i a =>
    intro k ys hk hy
    refine ⟨fun _ => hk, ?_⟩
    cases a with
    | ok a => exact hy
    | error e => exact hy.mono (Place.floor_le _ _)

theorem Fresh.above {xs : List Exchange} (h : Fresh xs) : Above 0 xs := by
  have ha : Above 0 (xs ++ []) := h.calls.above trivial trivial
  rwa [List.append_nil] at ha

/-! ## Cursors -/

namespace Cursor

/-- A position with more containers around it. -/
def onto (s : Cursor) (stack : List Frame) : Cursor := { s with stack := s.stack ++ stack }

theorem innermost_onto {s : Cursor} (stack : List Frame) (h : 0 < s.stack.length) (c : Container) :
    (s.onto stack).innermost c = s.innermost c := by
  obtain ⟨next, cur, frames⟩ := s
  cases frames with
  | nil => cases h
  | cons f frames => rfl

theorem go_onto {s : Cursor} (stack : List Frame) (h : 0 < s.stack.length) (c : Container)
    (pick : Frame → Option Value) :
    go c pick (s.onto stack) = ((go c pick s).1, (go c pick s).2.onto stack) := by
  unfold go
  rw [innermost_onto stack h]
  cases s.innermost c with
  | error e => rfl
  | ok f =>
    dsimp only
    cases pick f <;> rfl

theorem leave_onto {s : Cursor} (stack : List Frame) (h : 0 < s.stack.length) (c : Container) :
    leave c (s.onto stack) = ((leave c s).1, (leave c s).2.onto stack) := by
  unfold leave
  rw [innermost_onto stack h]
  obtain ⟨next, cur, frames⟩ := s
  cases frames with
  | nil => cases h
  | cons f frames => cases innermost c ⟨next, cur, f :: frames⟩ <;> rfl

theorem enter_onto (s : Cursor) (stack : List Frame) (c : Container) :
    enter c (s.onto stack) = ((enter c s).1, (enter c s).2.onto stack) := by
  have hcurrent : (s.onto stack).current = s.current := rfl
  unfold enter
  rw [hcurrent]
  cases s.current.bind Frame.ofValue? with
  | none => rfl
  | some f =>
    dsimp only
    split <;> rfl

theorem announce_onto (s : Cursor) (stack : List Frame) :
    announce (s.onto stack) = ((announce s).1, (announce s).2.onto stack) := by
  obtain ⟨next, cur, frames⟩ := s
  cases next <;> rfl

/-- More containers around are not noticed, unless the call has to do with one and there are none
further in. -/
theorem answer_onto {c : Call} {s : Cursor} (stack : List Frame)
    (h : c.isInner = true → 0 < s.stack.length) : TokenSource.answer c (s.onto stack) =
      ((TokenSource.answer c s).1, (TokenSource.answer c s).2.onto stack) := by
  cases c with
  | type => exact announce_onto s stack
  | enter c => exact enter_onto s stack c
  | next c n => exact go_onto stack (h rfl) c _
  | leave c n => exact leave_onto stack (h rfl) c
  | toValue n => exact go_onto stack (h rfl) .map _
  | _ => rfl

/-- At least as many containers are left as the exchange says. -/
theorem level_le (c : Call) {s : Cursor} {k : Nat} (hk : k ≤ s.stack.length) :
    Exchange.level ⟨c, (TokenSource.answer c s).1⟩ k ≤ (TokenSource.answer c s).2.stack.length := by
  obtain ⟨next, cur, frames⟩ := s
  cases c with
  | type => cases next <;> exact hk
  | enter c =>
    show Exchange.level ⟨.enter c, (enter c _).1⟩ k ≤ (enter c _).2.stack.length
    unfold enter
    split
    · split
      · exact Nat.succ_le_succ hk
      · exact hk
    · exact hk
  | next c n =>
    show k ≤ (go c _ _).2.stack.length
    unfold go
    split
    · exact hk
    · split <;> exact hk
  | leave c n =>
    show Exchange.level ⟨.leave c n, (leave c _).1⟩ k ≤ (leave c _).2.stack.length
    unfold leave
    split
    · exact hk
    · show k - 1 ≤ frames.tail.length
      rw [List.length_tail]
      exact Nat.sub_le_sub_right hk 1
  | toValue n =>
    show k ≤ (go .map _ _).2.stack.length
    unfold go
    split
    · exact hk
    · split <;> exact hk
  | _ => exact hk

end Cursor

namespace Dialogue

variable {α β : Type} {d : Dialogue α}

/-- A dialogue that touches no containers but its own goes alike with more containers around. -/
theorem run_onto {k : Nat} (h : d.Says fun xs _ => Above k xs) (s : Schema) (src : Cursor)
    (hk : k ≤ src.stack.length) (stack : List Frame) (reg : Registry) :
    let r := d.run s src reg
    d.run s (src.onto stack) reg = { r with source := r.source.onto stack } := by
  induction d generalizing k src reg with
  | done a => rfl
  | exhausted => rfl
  | ask c next ih =>
    have hinner : c.isInner = true → 0 < src.stack.length := by
      obtain ⟨xs, -, habove⟩ := (h (.error .ended)).exists_course
      exact fun hc => Nat.lt_of_lt_of_le (habove.1 hc) hk
    have hrest := ih _ ((h _).mono fun xs r ha => ha.2) _ (Cursor.level_le c hk) reg
    simp only [run, Cursor.answer_onto stack hinner]
    rw [hrest]
  | resolve t next ih => exact ih _ (h _) _ hk _
  | note n rest ih =>
    simp only [run]
    rw [ih h _ hk reg]

/-- Whatever is in the current slot, a dialogue that asks for the tag first takes no notice of it. -/
theorem run_current (h : d.Says fun xs _ => Typed xs) (s : Schema) (w : Value) (cur cur' : Option Value)
    (stack : List Frame) (reg : Registry) :
    let r := d.run s (⟨some w, cur, stack⟩ : Cursor) reg
    let q := d.run s (⟨some w, cur', stack⟩ : Cursor) reg
    r.answer = q.answer ∧ r.exchanges = q.exchanges ∧ r.notes = q.notes := by
  induction d generalizing reg with
  | done a => exact ⟨rfl, rfl, rfl⟩
  | exhausted => exact ⟨rfl, rfl, rfl⟩
  | ask c next ih =>
    obtain ⟨xs, -, htyped⟩ := (h (.error .ended)).exists_course
    obtain rfl : c = .type := htyped _ rfl
    exact ⟨rfl, rfl, rfl⟩
  | resolve t next ih => exact ih _ (h _) _
  | note n rest ih =>
    obtain ⟨ha, hx, hn⟩ := ih h reg
    exact ⟨ha, hx, congrArg (n :: ·) hn⟩

end Dialogue

namespace Setup

open Decoding

variable {reg reg' : Registry}

/-- **Decoding a value where it stands** gives the answer, the exchanges and the notes that decoding it
on its own gives. -/
theorem decodeDirect_framed (s : Setup) (n : Nat) (t : Ty) (dest : Content) (w : Value)
    (cur : Option Value) (stack : List Frame) (reg : Registry) :
    let r := (s.decodeDirect n t dest).run s.schema (⟨some w, cur, stack⟩ : Cursor) reg
    let q := (s.decodeDirect n t dest).run s.schema (Cursor.ofValue w) reg
    r.answer = q.answer ∧ r.exchanges = q.exchanges ∧ r.notes = q.notes := by
  intro r q
  have hd := s.decodeDirect_calls n t dest
  obtain ⟨ha, hx, hn⟩ := Dialogue.run_current (hd.mono fun _ _ h => h.typed) s.schema w cur none stack reg
  have honto := Dialogue.run_onto (hd.mono fun _ _ h => h.above) s.schema (Cursor.ofValue w)
    (Nat.zero_le _) stack reg
  change (s.decodeDirect n t dest).run s.schema (⟨some w, none, stack⟩ : Cursor) reg = _ at honto
  rw [honto] at ha hx hn
  exact ⟨ha, hx, hn⟩

end Setup

end Decant
