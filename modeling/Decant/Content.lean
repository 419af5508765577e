import Decant.Value

/-!
# What destinations hold

* `Content` — the content of a destination, in a shape that its type lays down.
* `Content.compare` — the order of contents, in which maps keep their keys.
* `Content.put` — set the value under a key of a map that is kept in order.

The order is lexicographic on lists and on records, by bytes on strings, and puts an absent content
first. Floats and values of no fixed type are no keys; the order takes any two of them for equal.
-/

namespace Decant

/-- The content of a destination. -/
inductive Content where
  | unit
  | bool (b : Bool)
  | int (n : Int)
  | single (x : Float32)
  | double (x : Float)
  | text (s : String)
  | blob (b : ByteArray)
  | time (t : Timestamp)
  | duration (d : Duration)
  | error (e : ErrorValue)
  | dynamic (v : Value)
  | list (items : List Content)
  /-- Entries in the order of their keys, no two of which are equal. -/
  | map (entries : List (Content × Content))
  | absent
  | present (c : Content)
  /-- The members of a record, by position. -/
  | record (members : List Content)

namespace Content

instance : Inhabited Content := ⟨unit⟩

/-- The order of byte sequences. -/
def compareBytes : List UInt8 → List UInt8 → Ordering
  | [], [] => .eq
  | [], _ :: _ => .lt
  | _ :: _, [] => .gt
  | a :: as, b :: bs => (Ord.compare a b).then (compareBytes as bs)

/-- The rank of a kind of content; contents of different kinds are ordered by it. -/
def rank : Content → Nat
  | unit => 0
  | bool _ => 1
  | int _ => 2
  | single _ => 3
  | double _ => 4
  | text _ => 5
  | blob _ => 6
  | time _ => 7
  | duration _ => 8
  | error _ => 9
  | dynamic _ => 10
  | list _ => 11
  | map _ => 12
  | absent => 13
  | present _ => 14
  | record _ => 15

mutual
/-- The order of contents. -/
def compare : Content → Content → Ordering
  | bool a, bool b => Ord.compare a b
  | int a, int b => Ord.compare a b
  | text a, text b => compareBytes a.toUTF8.toList b.toUTF8.toList
  | blob a, blob b => compareBytes a.toList b.toList
  | time a, time b => a.compare b
  | duration a, duration b => Ord.compare a.nanos b.nanos
  | error a, error b => compareBytes a.message.toUTF8.toList b.message.toUTF8.toList
  | list a, list b => compareItems a b
  | map a, map b => compareEntries a b
  | present a, present b => compare a b
  | record a, record b => compareItems a b
  | a, b => Ord.compare a.rank b.rank

/-- The lexicographic order of lists. -/
def compareItems : List Content → List Content → Ordering
  | [], [] => .eq
  | [], _ :: _ => .lt
  | _ :: _, [] => .gt
  | a :: as, b :: bs => (compare a b).then (compareItems as bs)

/-- The lexicographic order of maps. -/
def compareEntries : List (Content × Content) → List (Content × Content) → Ordering
  | [], [] => .eq
  | [], _ :: _ => .lt
  | _ :: _, [] => .gt
  | (k, v) :: as, (l, w) :: bs =>
    ((compare k l).then (compare v w)).then (compareEntries as bs)
end

/-- Set the value under a key of entries that are kept in order. -/
def put (key value : Content) : List (Content × Content) → List (Content × Content)
  | [] => [(key, value)]
  | (k, v) :: rest =>
    match compare key k with
    | .lt => (key, value) :: (k, v) :: rest
    | .eq => (key, value) :: rest
    | .gt => (k, v) :: put key value rest

/-- The items of a list. -/
def items : Content → List Content
  | list items => items
  | _ => []

/-- The entries of a map. -/
def entries : Content → List (Content × Content)
  | map entries => entries
  | _ => []

/-- The members of a record. -/
def members : Content → List Content
  | record members => members
  | _ => []

/-- The item of a list at a position. -/
def item (n : Nat) (c : Content) : Content := c.items.getD n unit

/-- Replace the item of a list at a position. -/
def setItem (n : Nat) (x : Content) : Content → Content
  | list items => list (items.set n x)
  | c => c

/-- The member of a record at a position. -/
def member (n : Nat) (c : Content) : Content := c.members.getD n unit

/-- Replace the member of a record at a position. -/
def setMember (n : Nat) (x : Content) : Content → Content
  | record members => record (members.set n x)
  | c => c

/-- Set the value under a key of a map. -/
def putEntry (key value : Content) (c : Content) : Content := map (put key value c.entries)

/-- The value of a content of no fixed type. -/
def toDynamic : Content → Value
  | dynamic v => v
  | _ => .nil

end Content

end Decant
