import Decant.Source

/-!
# The protocol of a source

* `Tag.token?` — the call that takes a value which holds no others.
* `Due` — what the protocol asks for, and `Due.after`, what an exchange puts in its place.
* `prescribed?` — the call that comes next, given the exchanges made so far.
* `Walk` — the ways in which a source can hand out one value, from the request for its type to the
  call that takes or leaves it; `Walk.exchanges` are the calls and answers.
* `Leads.walk` — exchanges that keep to the protocol until nothing is due are a walk.
-/

namespace Decant

/-- The call that takes a value of a tag whose values hold no others. -/
def Tag.token? : Tag → Option Call
  | .nil => some .nil
  | .bool => some .bool
  | .int => some .int
  | .uint => some .uint
  | .float => some .float
  | .string => some .string
  | .bytes => some .bytes
  | .time => some .time
  | .duration => some .duration
  | .error => some .error
  | .array | .map | .unknown => none

/-! ## Calls that are due -/

/-- What the protocol asks for. -/
inductive Due where
  /-- A value comes next. -/
  | value
  /-- One call comes next. -/
  | call (c : Call)
  /-- So many elements of a container were gone through, and whether there is a further one has to
  be asked for. -/
  | more (c : Container) (length : Option Nat) (i : Nat) (h : (length.isNone || i != 0) = true)
  /-- Nothing may be asked any more. -/
  | never
  deriving DecidableEq, Repr

/-- What an announced tag asks for. -/
def Tag.due : Tag → Due
  | .array => .call (.enter .array)
  | .map => .call (.enter .map)
  | tag => (tag.token?.map Due.call).getD .never

/-- What an element of a container asks for. -/
def Container.element : Container → Nat → List Due
  | .array, _ => [.value]
  | .map, i => [.value, .call (.toValue i), .value]

namespace Due

/-- The call that comes next. In a container, elements are gone on to until the declared number is
reached. -/
def next? : Due → Option Call
  | value => some .type
  | call c => some c
  | more c length i _ => some (if length.any (· ≤ i) then .leave c i else .next c i)
  | never => none

/-- What a container asks for from element `i` on, if there is such an element. -/
def onward (c : Container) (length : Option Nat) (i : Nat) : List Due :=
  c.element i ++ [more c length (i + 1) (by simp)]

/-- What a container that was entered asks for. The first element of a container that declares some
is there without asking. -/
def entered (c : Container) : Option Nat → List Due
  | none => [more c none 0 rfl]
  | some 0 => [call (.leave c 0)]
  | some (n + 1) => onward c (some (n + 1)) 0

/-- What is due in place of something after its next call was answered. Only the call that goes on
to an element may be answered by the end signal; any other failure ends the conversation. -/
def after : Due → Exchange → List Due
  | value, ⟨.type, .ok tag⟩ => [tag.due]
  | call _, ⟨.enter c, .ok length⟩ => entered c length
  | call _, ⟨_, .ok _⟩ => []
  | more c length i _, ⟨.next _ _, .ok _⟩ => onward c length i
  | more c _ i _, ⟨.next _ _, .error .ended⟩ => [call (.leave c i)]
  | more _ _ _ _, ⟨.leave _ _, .ok _⟩ => []
  | _, _ => [never]

/-- What is due after one more exchange. -/
def advance : List Due → Exchange → List Due
  | [], _ => [never]
  | d :: ds, x => d.after x ++ ds

end Due

/-- The call that the protocol prescribes after the exchanges made so far, for one value. -/
def prescribed? (earlier : List Exchange) : Option Call :=
  (earlier.foldl Due.advance [.value]).head?.bind Due.next?

/-- Exchanges that keep to the protocol lead from what is due to what is due then. -/
inductive Leads : List Due → List Exchange → List Due → Prop
  | nil (ds : List Due) : Leads ds [] ds
  | cons {d : Due} {ds es : List Due} {x : Exchange} {xs : List Exchange}
      (hx : d.next? = some x.call) (h : Leads (d.after x ++ ds) xs es) : Leads (d :: ds) (x :: xs) es

namespace Leads

variable {ds es : List Due} {xs ys : List Exchange}

theorem drop (h : Leads ds (xs ++ ys) es) : Leads (xs.foldl Due.advance ds) ys es := by
  induction xs generalizing ds with
  | nil => exact h
  | cons x xs ih =>
    cases h with
    | cons hx h => exact ih h

/-- Every call on the way is the one that was prescribed. -/
theorem prescribed (h : Leads [.value] xs es) {pre post : List Exchange} {x : Exchange}
    (hx : xs = pre ++ x :: post) : prescribed? pre = some x.call := by
  subst hx
  have hd := h.drop
  unfold prescribed?
  generalize pre.foldl Due.advance [.value] = ds at hd
  cases hd with
  | cons hx _ => exact hx

end Leads

/-! ## Walks -/

/-- A value that holds no others, as a source hands it out. -/
inductive Leaf where
  | nil
  | bool (b : Bool)
  | int (n : Int64)
  | uint (n : UInt64)
  | float (x : Float)
  /-- A string value, given by its bytes. -/
  | string (b : ByteArray)
  | bytes (b : ByteArray)
  | time (t : Timestamp)
  | duration (d : Duration)
  | error (e : ErrorValue)

namespace Leaf

/-- The tag that is announced. -/
def tag : Leaf → Tag
  | nil => .nil
  | bool _ => .bool
  | int _ => .int
  | uint _ => .uint
  | float _ => .float
  | string _ => .string
  | bytes _ => .bytes
  | time _ => .time
  | duration _ => .duration
  | error _ => .error

/-- The exchange that takes the value. -/
def taken : Leaf → Exchange
  | nil => ⟨.nil, .ok ()⟩
  | bool b => ⟨.bool, .ok b⟩
  | int n => ⟨.int, .ok n⟩
  | uint n => ⟨.uint, .ok n⟩
  | float x => ⟨.float, .ok x⟩
  | string b => ⟨.string, .ok b⟩
  | bytes b => ⟨.bytes, .ok b⟩
  | time t => ⟨.time, .ok t⟩
  | duration d => ⟨.duration, .ok d⟩
  | error e => ⟨.error, .ok e⟩

theorem exists_of_token {tag : Tag} {c : Call} (hc : tag.token? = some c) (a : c.Reply) :
    ∃ l : Leaf, l.tag = tag ∧ l.taken = ⟨c, .ok a⟩ := by
  cases tag <;> cases hc
  · exact ⟨nil, rfl, rfl⟩
  · exact ⟨bool a, rfl, rfl⟩
  · exact ⟨int a, rfl, rfl⟩
  · exact ⟨uint a, rfl, rfl⟩
  · exact ⟨float a, rfl, rfl⟩
  · exact ⟨string a, rfl, rfl⟩
  · exact ⟨bytes a, rfl, rfl⟩
  · exact ⟨time a, rfl, rfl⟩
  · exact ⟨duration a, rfl, rfl⟩
  · exact ⟨error a, rfl, rfl⟩

end Leaf

/-- Whether a container of some declared length can turn out to hold so many elements. It may hold
fewer than it declares, but not none. -/
def Fits (length : Option Nat) (count : Nat) : Prop :=
  ∀ n ∈ length, count ≤ n ∧ (count = 0 → n = 0)

/-- A way in which a source hands out a value. -/
inductive Walk where
  | leaf (l : Leaf)
  | array (length : Option Nat) (count : Nat) (h : Fits length count) (item : Fin count → Walk)
  | map (length : Option Nat) (count : Nat) (h : Fits length count) (key value : Fin count → Walk)

/-- The exchanges inside a container from element `i` on, given those of its elements. The call that
goes on to an element stands before each of them, except before the first one if the length is
declared; it is answered by the end signal if a container ends before a declared length. -/
def rounds (c : Container) (length : Option Nat) : Nat → List (List Exchange) → List Exchange
  | i, [] =>
    (if length.any (· ≤ i) then [] else [⟨.next c i, .error .ended⟩]) ++ [⟨.leave c i, .ok ()⟩]
  | i, e :: es =>
    (if length.isNone || i != 0 then [⟨.next c i, .ok ()⟩] else []) ++ e ++
      rounds c length (i + 1) es

/-- The exchanges of entry `i` of a map, given those of its key and its value. -/
def joined (i : Nat) (key value : List Exchange) : List Exchange :=
  key ++ ⟨.toValue i, .ok ()⟩ :: value

/-- The calls made on a walk, with their answers. -/
def Walk.exchanges : Walk → List Exchange
  | leaf l => [⟨.type, .ok l.tag⟩, l.taken]
  | array length _ _ item =>
    ⟨.type, .ok .array⟩ :: ⟨.enter .array, .ok length⟩ ::
      rounds .array length 0 (List.ofFn fun i => (item i).exchanges)
  | map length _ _ key value =>
    ⟨.type, .ok .map⟩ :: ⟨.enter .map, .ok length⟩ ::
      rounds .map length 0 (List.ofFn fun i => joined i (key i).exchanges (value i).exchanges)

/-! ## Conversations that were completed are walks -/

/-- The exchanges of one element of a container. -/
def Container.Piece : Container → Nat → List Exchange → Prop
  | .array, _, e => ∃ w : Walk, e = w.exchanges
  | .map, i, e => ∃ k v : Walk, e = joined i k.exchanges v.exchanges

/-- The exchanges of the elements of a container from element `i` on. -/
def Container.Pieces (c : Container) : Nat → List (List Exchange) → Prop
  | _, [] => True
  | i, e :: es => c.Piece i e ∧ c.Pieces (i + 1) es

theorem Container.Pieces.items : ∀ {i : Nat} {es : List (List Exchange)},
    Container.array.Pieces i es →
      ∃ item : Fin es.length → Walk, es = List.ofFn fun j => (item j).exchanges
  | _, [], _ => ⟨Fin.elim0, rfl⟩
  | i, e :: es, ⟨⟨w, hw⟩, hes⟩ => by
    obtain ⟨item, h⟩ := hes.items
    refine ⟨Fin.cases w item, .trans ?_ List.ofFn_succ.symm⟩
    subst hw
    exact congrArg (w.exchanges :: ·) h

theorem Container.Pieces.entries : ∀ {i : Nat} {es : List (List Exchange)},
    Container.map.Pieces i es → ∃ key value : Fin es.length → Walk,
      es = List.ofFn fun j => joined (i + j) (key j).exchanges (value j).exchanges
  | _, [], _ => ⟨Fin.elim0, Fin.elim0, rfl⟩
  | i, e :: es, ⟨⟨k, v, hkv⟩, hes⟩ => by
    obtain ⟨key, value, h⟩ := hes.entries
    refine ⟨Fin.cases k key, Fin.cases v value, .trans ?_ List.ofFn_succ.symm⟩
    subst hkv
    refine congrArg (_ :: ·) (h.trans (congrArg List.ofFn (funext fun j => ?_)))
    have hj : i + 1 + j.val = i + (j.val + 1) := by omega
    exact congrArg (joined · (key j).exchanges (value j).exchanges) hj

namespace Due

/-- Exchanges that settle what is due. -/
inductive Settled : Due → List Exchange → Prop
  | value (w : Walk) : Settled .value w.exchanges
  | call {c : Call} (hc : ∀ k, c ≠ .enter k) (a : c.Reply) : Settled (.call c) [⟨c, .ok a⟩]
  | enter {c : Container} (length : Option Nat) {es : List (List Exchange)} (hes : c.Pieces 0 es)
      (hf : Fits length es.length) :
      Settled (.call (.enter c)) (⟨.enter c, .ok length⟩ :: rounds c length 0 es)
  | more {c : Container} {length : Option Nat} {i : Nat} (h : (length.isNone || i != 0) = true)
      {es : List (List Exchange)} (hes : c.Pieces i es)
      (hl : es ≠ [] → ∀ n ∈ length, i + es.length ≤ n) :
      Settled (.more c length i h) (rounds c length i es)

/-- Exchanges that settle one thing after the other. -/
def SettledAll : List Due → List Exchange → Prop
  | [], xs => xs = []
  | d :: ds, xs => ∃ ys zs, xs = ys ++ zs ∧ d.Settled ys ∧ SettledAll ds zs

theorem SettledAll.split {es ds : List Due} : ∀ {xs : List Exchange}, SettledAll (ds ++ es) xs →
    ∃ ys zs, xs = ys ++ zs ∧ SettledAll ds ys ∧ SettledAll es zs := by
  induction ds with
  | nil => exact fun {xs} h => ⟨[], xs, rfl, rfl, h⟩
  | cons d ds ih =>
    rintro xs ⟨ys, zs, rfl, hd, h⟩
    obtain ⟨us, vs, rfl, hds, hes⟩ := ih h
    exact ⟨ys ++ us, vs, (List.append_assoc ..).symm, ⟨ys, us, rfl, hd, hds⟩, hes⟩

theorem SettledAll.single {d : Due} {xs : List Exchange} (h : SettledAll [d] xs) : d.Settled xs := by
  obtain ⟨ys, zs, rfl, hd, rfl⟩ := h
  rw [List.append_nil]
  exact hd

theorem SettledAll.element {c : Container} {i : Nat} {xs : List Exchange}
    (h : SettledAll (c.element i) xs) : c.Piece i xs := by
  cases c with
  | array =>
    obtain ⟨w⟩ := h.single
    exact ⟨w, rfl⟩
  | map =>
    obtain ⟨_, _, rfl, ⟨k⟩, _, _, rfl, hm, hv⟩ := h
    obtain ⟨v⟩ := SettledAll.single hv
    cases hm with
    | call _ a => exact ⟨k, v, rfl⟩

/-- An element, and what comes after it. -/
theorem SettledAll.round {c : Container} {length : Option Nat} {i : Nat} {xs : List Exchange}
    (hi : ∀ n ∈ length, i < n) (h : SettledAll (onward c length i) xs) :
    ∃ e es, xs = e ++ rounds c length (i + 1) es ∧ c.Pieces i (e :: es) ∧
      ∀ n ∈ length, i + (e :: es).length ≤ n := by
  obtain ⟨e, zs, rfl, he, hm⟩ := SettledAll.split h
  cases hm.single with
  | @more _ _ _ _ es hes hl =>
    refine ⟨e, es, rfl, ⟨he.element, hes⟩, fun n hn => ?_⟩
    cases es with
    | nil => exact hi n hn
    | cons e' es =>
      have := hl nofun n hn
      simp only [List.length_cons] at this ⊢
      omega

theorem settled_of_token {tag : Tag} {c : Call} (hc : tag.token? = some c) {xs : List Exchange}
    (h : (call c).Settled xs) : value.Settled (⟨.type, .ok tag⟩ :: xs) := by
  cases h with
  | call _ a =>
    obtain ⟨l, rfl, hl⟩ := Leaf.exists_of_token hc a
    rw [← hl]
    exact .value (.leaf l)
  | enter length hes hf => cases tag <;> cases hc

/-- The announcement of a tag, and what the tag asks for. -/
theorem settled_of_due {tag : Tag} {xs : List Exchange} (h : tag.due.Settled xs) :
    value.Settled (⟨.type, .ok tag⟩ :: xs) := by
  cases tag with
  | array =>
    cases h with
    | call hc _ => exact absurd rfl (hc .array)
    | @enter _ length es hes hf =>
      obtain ⟨item, hi⟩ := hes.items
      have := Settled.value (.array length es.length hf item)
      rw [Walk.exchanges, ← hi] at this
      exact this
  | map =>
    cases h with
    | call hc _ => exact absurd rfl (hc .map)
    | @enter _ length es hes hf =>
      obtain ⟨key, value, hi⟩ := hes.entries
      simp only [Nat.zero_add] at hi
      have := Settled.value (.map length es.length hf key value)
      rw [Walk.exchanges, ← hi] at this
      exact this
  | unknown => cases h
  | _ => exact settled_of_token rfl h

theorem settled_of_entered {c : Container} {length : Option Nat} {xs : List Exchange}
    (h : SettledAll (entered c length) xs) :
    (call (.enter c)).Settled (⟨.enter c, .ok length⟩ :: xs) := by
  match length, h with
  | some (n + 1), h =>
    have hi : ∀ m ∈ some (n + 1), 0 < m := by
      intro m hm
      cases hm
      exact n.succ_pos
    obtain ⟨e, es, rfl, hes, hl⟩ := SettledAll.round hi h
    refine .enter (some (n + 1)) hes fun m hm => ⟨?_, nofun⟩
    have := hl m hm
    omega
  | some 0, h =>
    cases h.single with
    | call _ _ =>
      have hf : Fits (some 0) 0 := fun m hm => ⟨m.zero_le, fun _ => (Option.some.inj hm).symm⟩
      have hs : (call (.enter c)).Settled (⟨.enter c, .ok (some 0)⟩ :: rounds c (some 0) 0 []) :=
        .enter (some 0) trivial hf
      exact hs
  | none, h =>
    cases h.single with
    | more _ hes _ => exact .enter none hes nofun

section more

variable {c : Container} {length : Option Nat} {i : Nat} {h : (length.isNone || i != 0) = true}

theorem settled_leave (hl : length.any (· ≤ i) = true) (a : Unit) :
    (more c length i h).Settled [⟨.leave c i, .ok a⟩] := by
  have hs : (more c length i h).Settled (rounds c length i []) := .more h trivial nofun
  unfold rounds at hs
  rw [if_pos hl] at hs
  exact hs

theorem settled_cut (hl : ¬ length.any (· ≤ i) = true) (a : Unit) :
    (more c length i h).Settled [⟨.next c i, .error .ended⟩, ⟨.leave c i, .ok a⟩] := by
  have hs : (more c length i h).Settled (rounds c length i []) := .more h trivial nofun
  unfold rounds at hs
  rw [if_neg hl] at hs
  exact hs

theorem settled_next (a : Unit) {e : List Exchange} {es : List (List Exchange)}
    (hes : c.Pieces i (e :: es)) (hn : ∀ n ∈ length, i + (e :: es).length ≤ n) :
    (more c length i h).Settled (⟨.next c i, .ok a⟩ :: (e ++ rounds c length (i + 1) es)) := by
  have hs : (more c length i h).Settled (rounds c length i (e :: es)) := .more h hes fun _ => hn
  unfold rounds at hs
  rw [if_pos h] at hs
  exact hs

end more

/-- An exchange with the call that is due, and exchanges that settle what is due then. -/
theorem settled_of_after {d : Due} {x : Exchange} {xs : List Exchange}
    (hx : d.next? = some x.call) (h : SettledAll (d.after x) xs) : d.Settled (x :: xs) := by
  obtain ⟨c, a⟩ := x
  cases d with
  | value =>
    cases hx
    cases a with
    | error e => cases h.single
    | ok tag => exact settled_of_due h.single
  | call c' =>
    cases hx
    cases a with
    | error e => cases c <;> cases h.single
    | ok a =>
      cases c with
      | enter k => exact settled_of_entered h
      | _ =>
        cases h
        exact .call (fun _ h => by cases h) a
  | more k length i h' =>
    by_cases hl : length.any (· ≤ i) = true
    · rw [next?, if_pos hl] at hx
      cases hx
      cases a with
      | error e => cases h.single
      | ok a =>
        cases h
        exact settled_leave hl a
    · rw [next?, if_neg hl] at hx
      cases hx
      cases a with
      | ok a =>
        have hi : ∀ n ∈ length, i < n := by
          rintro n rfl
          simpa using hl
        obtain ⟨e, es, rfl, hes, hn⟩ := SettledAll.round hi h
        exact settled_next a hes hn
      | error e =>
        cases e with
        | ended =>
          cases h.single with
          | call _ a => exact settled_cut hl a
        | _ => cases h.single
  | never => cases hx

theorem SettledAll.of_leads {ds : List Due} {xs : List Exchange} (h : Leads ds xs []) :
    SettledAll ds xs := by
  generalize hes : ([] : List Due) = es at h
  induction h with
  | nil ds => exact hes ▸ rfl
  | cons hx _ ih =>
    obtain ⟨ys, zs, rfl, hd, hds⟩ := (ih hes).split
    exact ⟨_, zs, rfl, settled_of_after hx hd, hds⟩

end Due

/-- **Exchanges that keep to the protocol until nothing is due are one complete walk.** -/
theorem Leads.walk {xs : List Exchange} (h : Leads [.value] xs []) : ∃ w : Walk, xs = w.exchanges := by
  obtain ⟨w⟩ := (Due.SettledAll.of_leads h).single
  exact ⟨w, rfl⟩

end Decant
