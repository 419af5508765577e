import Decant.Proofs.KeyOrder

/-!
# What maps keep of their entries

* `Content.code` — a list of numbers for each content, so that contents compare as their codes do. It
  makes the order of contents a lawful one (`Std.TransCmp`).
* `Content.under?` — what entries have under a key, the first one counting.
* `Content.ascending_putAll` — a map that was filled is in the order of its keys, no two of them equal.
* `Content.under?_putAll` — of several entries under one key, the last one that was put counts.
* `Content.put_comm` — entries with different keys may be put in either order.
-/

namespace Decant

namespace Content

/-! ## The order as one of numbers -/

/-- The code of a sequence of bytes. Each byte is announced, and so is the end. -/
def codeBytes : List UInt8 → List Int
  | [] => [0]
  | b :: bs => 1 :: (b.toNat : Int) :: codeBytes bs

mutual
/-- The code of a content: its rank, and what it is compared by. No code goes on with another one, so
codes may be put one behind the other. -/
def code : Content → List Int
  | unit => [0]
  | bool b => [1, if b then 1 else 0]
  | int n => [2, n]
  | single _ => [3]
  | double _ => [4]
  | text s => 5 :: codeBytes s.toUTF8.toList
  | blob b => 6 :: codeBytes b.toList
  | time t => [7, t.seconds, t.nanos]
  | duration d => [8, d.nanos]
  | error e => 9 :: codeBytes e.message.toUTF8.toList
  | dynamic _ => [10]
  | list items => 11 :: codeItems items
  | map entries => 12 :: codeEntries entries
  | absent => [13]
  | present c => 14 :: code c
  | record members => 15 :: codeItems members

/-- The code of a list. -/
def codeItems : List Content → List Int
  | [] => [0]
  | c :: cs => 1 :: (code c ++ codeItems cs)

/-- The code of the entries of a map. -/
def codeEntries : List (Content × Content) → List Int
  | [] => [0]
  | (k, v) :: es => 1 :: (code k ++ (code v ++ codeEntries es))
end

/-- The lexicographic order of codes. -/
abbrev compareCodes : List Int → List Int → Ordering := List.compareLex Ord.compare

theorem compareCodes_cons (a b : Int) (x y : List Int) :
    compareCodes (a :: x) (b :: y) = (Ord.compare a b).then (compareCodes x y) :=
  List.compareLex_cons_cons

theorem compareCodes_same (a : Int) (x y : List Int) :
    compareCodes (a :: x) (a :: y) = compareCodes x y := by
  rw [compareCodes_cons, (Std.ReflOrd.compare_self : Ord.compare a a = .eq)]
  rfl

theorem compare_toNat (a b : UInt8) : Ord.compare (a.toNat : Int) (b.toNat : Int) = Ord.compare a b := by
  show compareOfLessAndEq (a.toNat : Int) (b.toNat : Int) = compareOfLessAndEq a b
  unfold compareOfLessAndEq
  simp only [Int.ofNat_lt, Int.natCast_inj, UInt8.lt_iff_toNat_lt, UInt8.toNat_inj]

theorem compare_cast (m n : Nat) : Ord.compare (m : Int) (n : Int) = Ord.compare m n := by
  show compareOfLessAndEq (m : Int) (n : Int) = compareOfLessAndEq m n
  unfold compareOfLessAndEq
  simp only [Int.ofNat_lt, Int.natCast_inj]

theorem compareCodes_bytes (x y : List Int) : ∀ as bs : List UInt8,
    compareCodes (codeBytes as ++ x) (codeBytes bs ++ y) = (compareBytes as bs).then (compareCodes x y)
  | [], [] => compareCodes_same 0 x y
  | [], _ :: _ => rfl
  | _ :: _, [] => rfl
  | a :: as, b :: bs => by
    simp only [codeBytes, compareBytes, List.cons_append, compareCodes_same, compareCodes_cons,
      compare_toNat, compareCodes_bytes x y as bs, Ordering.then_assoc]

mutual
theorem compareCodes_code (a b : Content) (x y : List Int) :
    compareCodes (code a ++ x) (code b ++ y) = (compare a b).then (compareCodes x y) := by
  cases a with
  | bool a => cases b with
    | bool b => cases a <;> cases b <;> rfl
    | _ => rfl
  | int a => cases b with
    | int b => exact (compareCodes_same _ _ _).trans (compareCodes_cons _ _ _ _)
    | _ => rfl
  | text a => cases b with
    | text b => exact (compareCodes_same _ _ _).trans (compareCodes_bytes x y _ _)
    | _ => rfl
  | blob a => cases b with
    | blob b => exact (compareCodes_same _ _ _).trans (compareCodes_bytes x y _ _)
    | _ => rfl
  | time a => cases b with
    | time b =>
      refine (compareCodes_same _ _ _).trans ((compareCodes_cons _ _ _ _).trans ?_)
      rw [compare, Timestamp.compare, Ordering.then_assoc]
      exact congrArg _ ((compareCodes_cons _ _ _ _).trans (by rw [compare_cast]; rfl))
    | _ => rfl
  | duration a => cases b with
    | duration b => exact (compareCodes_same _ _ _).trans (compareCodes_cons _ _ _ _)
    | _ => rfl
  | error a => cases b with
    | error b => exact (compareCodes_same _ _ _).trans (compareCodes_bytes x y _ _)
    | _ => rfl
  | list as => cases b with
    | list bs => exact (compareCodes_same _ _ _).trans (compareCodes_items as bs x y)
    | _ => rfl
  | map as => cases b with
    | map bs => exact (compareCodes_same _ _ _).trans (compareCodes_entries as bs x y)
    | _ => rfl
  | present a => cases b with
    | present b => exact (compareCodes_same _ _ _).trans (compareCodes_code a b x y)
    | _ => rfl
  | record as => cases b with
    | record bs => exact (compareCodes_same _ _ _).trans (compareCodes_items as bs x y)
    | _ => rfl
  | _ => cases b <;> rfl

theorem compareCodes_items : ∀ (as bs : List Content) (x y : List Int),
    compareCodes (codeItems as ++ x) (codeItems bs ++ y) = (compareItems as bs).then (compareCodes x y)
  | [], [], x, y => compareCodes_same 0 x y
  | [], _ :: _, _, _ => rfl
  | _ :: _, [], _, _ => rfl
  | a :: as, b :: bs, x, y => by
    simp only [codeItems, compareItems, List.cons_append, List.append_assoc, compareCodes_same,
      compareCodes_code a b, compareCodes_items as bs, Ordering.then_assoc]

theorem compareCodes_entries : ∀ (as bs : List (Content × Content)) (x y : List Int),
    compareCodes (codeEntries as ++ x) (codeEntries bs ++ y) =
      (compareEntries as bs).then (compareCodes x y)
  | [], [], x, y => compareCodes_same 0 x y
  | [], _ :: _, _, _ => rfl
  | _ :: _, [], _, _ => rfl
  | (k, v) :: as, (l, w) :: bs, x, y => by
    simp only [codeEntries, compareEntries, List.cons_append, List.append_assoc, compareCodes_same,
      compareCodes_code k l, compareCodes_code v w, compareCodes_entries as bs, Ordering.then_assoc]
end

/-- Contents compare as their codes do. -/
theorem compare_eq (a b : Content) : compare a b = compareCodes (code a) (code b) := by
  have h := compareCodes_code a b [] []
  rw [List.append_nil, List.append_nil] at h
  exact Ordering.then_eq.symm.trans h.symm

/-- **The order of contents is a lawful one.** -/
instance : Std.TransCmp compare where
  eq_swap := compare_swap _ _
  isLE_trans hab hbc := by
    rw [compare_eq] at *
    exact Std.TransCmp.isLE_trans hab hbc

/-! ## Entries under a key -/

/-- What entries have under a key; the first entry under it counts. -/
def under? (key : Content) (entries : List (Content × Content)) : Option Content :=
  (entries.find? fun e => compare key e.1 == .eq).map (·.2)

variable {key k v : Content} {entries : List (Content × Content)}

theorem under?_cons (e : Content × Content) (entries : List (Content × Content)) :
    under? key (e :: entries) = if compare key e.1 = .eq then some e.2 else under? key entries := by
  unfold under?
  by_cases h : compare key e.1 = .eq
  · rw [if_pos h, List.find?_cons_of_pos (by simpa using h)]
    rfl
  · rw [if_neg h, List.find?_cons_of_neg (by simpa using h)]

/-- Putting an entry changes what is under its key, and nothing else. -/
theorem under?_put : under? key (put k v entries) =
    if compare key k = .eq then some v else under? key entries := by
  induction entries with
  | nil => exact under?_cons _ _
  | cons e entries ih =>
    obtain ⟨l, w⟩ := e
    rw [put]
    split
    · exact under?_cons _ _
    · rename_i hkl
      rw [under?_cons, under?_cons, Std.TransCmp.congr_right hkl]
      split <;> rfl
    · rename_i hkl
      rw [under?_cons, under?_cons, ih]
      by_cases hk : compare key k = .eq
      · have hl : compare key l = .gt := by rw [Std.TransCmp.congr_left hk, hkl]
        simp [hk, hl]
      · rw [if_neg hk, if_neg hk]

/-- **The last entry under a key counts** when a map is filled. -/
theorem under?_putAll (key : Content) (entries : List (Content × Content)) :
    under? key (putAll entries) = under? key entries.reverse := by
  induction entries using List.reverseRecOn with
  | nil => rfl
  | append_singleton entries e ih =>
    rw [putAll_append, under?_put, ih, List.reverse_append, List.reverse_singleton,
      List.singleton_append, under?_cons]

/-! ## Maps that were filled -/

theorem put_mem {e : Content × Content} (h : e ∈ put k v entries) : e = (k, v) ∨ e ∈ entries := by
  induction entries with
  | nil => exact .inl (List.mem_singleton.1 h)
  | cons x entries ih =>
    obtain ⟨l, w⟩ := x
    rw [put] at h
    split at h
    · exact List.mem_cons.1 h
    · rcases List.mem_cons.1 h with h | h
      · exact .inl h
      · exact .inr (List.mem_cons_of_mem _ h)
    · rcases List.mem_cons.1 h with h | h
      · exact .inr (h ▸ List.mem_cons_self)
      · exact (ih h).imp id (List.mem_cons_of_mem _)

/-- A new entry keeps the order. -/
theorem ascending_put (h : Ascending entries) : Ascending (put k v entries) := by
  induction entries with
  | nil => exact List.pairwise_singleton _ _
  | cons x entries ih =>
    obtain ⟨l, w⟩ := x
    obtain ⟨hx, hentries⟩ := List.pairwise_cons.1 h
    rw [put]
    split
    · rename_i hkl
      refine List.pairwise_cons.2 ⟨fun e he => ?_, h⟩
      rcases List.mem_cons.1 he with rfl | he
      · exact hkl
      · exact Std.TransCmp.lt_trans hkl (hx e he)
    · rename_i hkl
      refine List.pairwise_cons.2 ⟨fun e he => ?_, hentries⟩
      exact (Std.TransCmp.congr_left hkl).trans (hx e he)
    · rename_i hkl
      refine List.pairwise_cons.2 ⟨fun e he => ?_, ih hentries⟩
      rcases put_mem he with rfl | he
      · rw [compare_swap, hkl]
        rfl
      · exact hx e he

/-- **A map that was filled is in the order of its keys**, and no two of them are equal. -/
theorem ascending_putAll (entries : List (Content × Content)) : Ascending (putAll entries) := by
  induction entries using List.reverseRecOn with
  | nil => exact .nil
  | append_singleton entries e ih =>
    rw [putAll_append]
    exact ascending_put ih

/-- Entries with different keys may be put in either order. -/
theorem put_comm {l w : Content} (h : compare k l ≠ .eq) (entries : List (Content × Content)) :
    put k v (put l w entries) = put l w (put k v entries) := by
  have hlk : compare l k = (compare k l).swap := compare_swap k l
  induction entries with
  | nil => cases hkl : compare k l <;> simp_all [put]
  | cons e entries ih =>
    obtain ⟨m, u⟩ := e
    have heq : compare k m = .eq → compare l m = (compare k l).swap := fun hkm => by
      rw [← hlk, Std.TransCmp.congr_right hkm]
    have heq' : compare l m = .eq → compare k m = compare k l := fun hlm =>
      (Std.TransCmp.congr_right hlm).symm
    have hlt : compare k m = .lt → compare l m = .gt → compare k l = .lt := fun hkm hlm =>
      Std.TransCmp.lt_trans hkm (Std.OrientedCmp.lt_of_gt hlm)
    have hgt : compare k m = .gt → compare l m = .lt → compare k l = .gt := fun hkm hlm =>
      Std.TransCmp.gt_trans hkm (Std.OrientedCmp.gt_of_lt hlm)
    cases hkm : compare k m <;> cases hlm : compare l m <;> cases hkl : compare k l <;> simp_all [put]

end Content

end Decant
