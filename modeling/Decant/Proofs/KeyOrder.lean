import Mathlib.Data.List.Induction
import Decant.Content

/-!
# Maps that are filled in any order

* `Content.compare_swap` — comparing the other way round gives the other answer.
* `Content.Ascending` — entries in the order of their keys, no two of which are equal.
* `Content.putAll_perm` — entries with different keys make the same map, whatever order they come in.
-/

namespace Decant

theorem Timestamp.compare_swap (s t : Timestamp) : t.compare s = (s.compare t).swap := by
  rw [Timestamp.compare, Timestamp.compare, Ordering.swap_then,
    Std.OrientedOrd.eq_swap (a := t.seconds), Std.OrientedOrd.eq_swap (a := t.nanos)]

namespace Content

theorem compareBytes_swap : ∀ as bs : List UInt8, compareBytes bs as = (compareBytes as bs).swap
  | [], [] => rfl
  | [], _ :: _ => rfl
  | _ :: _, [] => rfl
  | a :: as, b :: bs => by
    rw [compareBytes, compareBytes, Ordering.swap_then, ← compareBytes_swap as bs,
      Std.OrientedOrd.eq_swap (a := b)]

mutual
theorem compare_swap (a b : Content) : compare b a = (compare a b).swap := by
  cases a with
  | bool a => cases b with
    | bool b => exact Std.OrientedOrd.eq_swap
    | _ => rfl
  | int a => cases b with
    | int b => exact Std.OrientedOrd.eq_swap
    | _ => rfl
  | text a => cases b with
    | text b => exact compareBytes_swap _ _
    | _ => rfl
  | blob a => cases b with
    | blob b => exact compareBytes_swap _ _
    | _ => rfl
  | time a => cases b with
    | time b => exact Timestamp.compare_swap a b
    | _ => rfl
  | duration a => cases b with
    | duration b => exact Std.OrientedOrd.eq_swap
    | _ => rfl
  | error a => cases b with
    | error b => exact compareBytes_swap _ _
    | _ => rfl
  | list as => cases b with
    | list bs => exact compareItems_swap as bs
    | _ => rfl
  | map as => cases b with
    | map bs => exact compareEntries_swap as bs
    | _ => rfl
  | present a => cases b with
    | present b => exact compare_swap a b
    | _ => rfl
  | record as => cases b with
    | record bs => exact compareItems_swap as bs
    | _ => rfl
  | _ => cases b <;> rfl

theorem compareItems_swap : ∀ as bs : List Content, compareItems bs as = (compareItems as bs).swap
  | [], [] => rfl
  | [], _ :: _ => rfl
  | _ :: _, [] => rfl
  | a :: as, b :: bs => by
    rw [compareItems, compareItems, Ordering.swap_then, compare_swap a b, compareItems_swap as bs]

theorem compareEntries_swap :
    ∀ as bs : List (Content × Content), compareEntries bs as = (compareEntries as bs).swap
  | [], [] => rfl
  | [], _ :: _ => rfl
  | _ :: _, [] => rfl
  | (k, v) :: as, (l, w) :: bs => by
    rw [compareEntries, compareEntries, Ordering.swap_then, Ordering.swap_then, compare_swap k l,
      compare_swap v w, compareEntries_swap as bs]
end

/-- Entries in the order of their keys, no two of which are equal. -/
def Ascending (entries : List (Content × Content)) : Prop :=
  entries.Pairwise fun a b => compare a.1 b.1 = .lt

/-- A new entry is put at its place. -/
theorem put_between {k v : Content} {as bs : List (Content × Content)}
    (h : Ascending (as ++ (k, v) :: bs)) : put k v (as ++ bs) = as ++ (k, v) :: bs := by
  induction as with
  | nil =>
    cases bs with
    | nil => rfl
    | cons b bs =>
      have hlt : compare k b.1 = .lt := List.rel_of_pairwise_cons h List.mem_cons_self
      simp only [List.nil_append, put, hlt]
  | cons a as ih =>
    have hlt : compare a.1 k = .lt :=
      List.rel_of_pairwise_cons h (List.mem_append_right _ List.mem_cons_self)
    have hgt : compare k a.1 = .gt := by rw [compare_swap, hlt]; rfl
    simp only [List.cons_append, put, hgt]
    rw [ih (List.Pairwise.of_cons h)]

/-- Put entries into a map one after the other. -/
def putAll (entries : List (Content × Content)) : List (Content × Content) :=
  entries.foldl (fun made e => put e.1 e.2 made) []

theorem putAll_append (entries : List (Content × Content)) (e : Content × Content) :
    putAll (entries ++ [e]) = put e.1 e.2 (putAll entries) := by
  rw [putAll, List.foldl_append]
  rfl

/-- **The order in which entries are put does not count**, if no two keys are equal. -/
theorem putAll_perm {entries made : List (Content × Content)} (hm : Ascending made)
    (hp : entries.Perm made) : putAll entries = made := by
  induction entries using List.reverseRecOn generalizing made with
  | nil => exact (List.nil_perm.1 hp).symm
  | append_singleton entries e ih =>
    have hmem : e ∈ made := hp.mem_iff.1 (List.mem_append_right _ List.mem_cons_self)
    obtain ⟨as, bs, rfl⟩ := List.append_of_mem hmem
    have hrest : entries.Perm (as ++ bs) := by
      have hfront : (e :: entries).Perm (e :: (as ++ bs)) :=
        (List.perm_append_singleton e entries).symm.trans (hp.trans List.perm_middle)
      exact (List.perm_cons e).1 hfront
    have hsub : (as ++ bs).Sublist (as ++ e :: bs) :=
      (List.Sublist.refl as).append (List.sublist_cons_self e bs)
    rw [putAll_append, ih (hm.sublist hsub) hrest, put_between hm]

end Content

end Decant
