import Decant.Proofs.Slots

/-!
# Numbers in integer types

A number comes as a token of 64 bits, with or without a sign, whatever the type of the destination is.

* `IntKind.range` — the ten integer types, by name, with the least and the greatest number of each.
* `Leaf.number?` — the number that a token stands for.
* `Setup.decode_number` — a number in the range of a type is stored as it is, and any other is refused by its
  value and the name of the type, with the destination left alone.
-/

namespace Decant

/-! ## Ranges -/

/-- The name of an integer type, and what it holds. -/
structure Range where
  name : String
  least : Int
  greatest : Int

namespace IntKind

/-- The range of each integer type. -/
def range : IntKind → Range
  | i8 => ⟨"i8", -128, 127⟩
  | i16 => ⟨"i16", -32768, 32767⟩
  | i32 => ⟨"i32", -2147483648, 2147483647⟩
  | i64 => ⟨"i64", -9223372036854775808, 9223372036854775807⟩
  | isize => ⟨"isize", -9223372036854775808, 9223372036854775807⟩
  | u8 => ⟨"u8", 0, 255⟩
  | u16 => ⟨"u16", 0, 65535⟩
  | u32 => ⟨"u32", 0, 4294967295⟩
  | u64 => ⟨"u64", 0, 18446744073709551615⟩
  | usize => ⟨"usize", 0, 18446744073709551615⟩

/-- The bounds that are computed from the width of a type are those of its range. -/
theorem range_eq (k : IntKind) : k.range = ⟨k.name, k.low, k.high⟩ := by cases k <;> rfl

theorem holds_iff_range {k : IntKind} {v : Int} :
    k.holds v = true ↔ k.range.least ≤ v ∧ v ≤ k.range.greatest := by
  rw [range_eq]
  exact holds_iff

end IntKind

/-! ## Tokens -/

/-- The number that a token stands for. -/
def Leaf.number? : Leaf → Option Int
  | int n => some n.toInt
  | uint n => some n.toNat
  | _ => none

namespace Decoding

variable {σ : Type} [TokenSource σ]

/-- What an integer type makes of a number. -/
def stored (k : IntKind) (v : Int) (dest : Content) (tag : Tag) : Ending Content Tag :=
  if k.holds v then ⟨.ok tag, .int v⟩ else ⟨.error (.outOfRange v k.name), dest⟩

theorem narrow_passes (s : Schema) (k : IntKind) (v : Int) (dest : Content) (tag : Tag) (src : σ) :
    Dialogue.Passes s ((narrow k v >>= fun c => set c >>= fun _ => pure tag : Strategy) dest) src []
      (stored k v dest tag) src := by
  unfold narrow stored
  split <;> exact .done _ _

/-- A number is taken after its tag was observed, and then it is stored or refused. -/
theorem scalar_passes (s : Schema) (k : IntKind) {l : Leaf} {v : Int} (hl : l.number? = some v)
    {src src' : σ} (ht : Tells src (Walk.leaf l).exchanges src') (dest : Content) :
    (scalar s.times (.int k) dest).Passes s src (Walk.leaf l).exchanges (stored k v dest l.tag) src' := by
  obtain _ | ⟨htype, _ | ⟨htaken, ⟨⟩⟩⟩ := ht
  cases l with
  | int n =>
    cases hl
    exact .ask htype (.ask htaken (narrow_passes s k n.toInt dest .int src'))
  | uint n =>
    cases hl
    exact .ask htype (.ask htaken (narrow_passes s k n.toNat dest .uint src'))
  | _ => cases hl

end Decoding

namespace Setup

open Decoding

variable {σ : Type} [TokenSource σ] {reg : Registry}

/-- **Numbers are stored exactly or not at all.** A number that comes as a token, with or without a sign,
is decoded into an integer type with success exactly if it is in the range of the type, and then the
destination holds that number. Otherwise the error names the number and the type, and the destination is
as it was. Either way the token is taken, and nothing else. -/
theorem decode_number (s : Setup) (hr : reg.Reachable s.schema) (k : IntKind) {l : Leaf} {v : Int}
    (hl : l.number? = some v) {src src' : σ} (ht : Tells src (Walk.leaf l).exchanges src') (n : Nat)
    (dest : Content) :
    let r := (s.decode (n + 1) (.int k) dest).run s.schema src reg
    let fits := k.range.least ≤ v ∧ v ≤ k.range.greatest
    (r.answer = some ⟨.ok (), .int v⟩ ↔ fits) ∧
      (r.answer = some ⟨.error (.outOfRange v k.range.name), dest⟩ ↔ ¬ fits) ∧
      r.source = src' ∧ r.exchanges = (Walk.leaf l).exchanges := by
  intro r fits
  have ha : r.Alike _ := s.decode_alike_direct hr.sound (n + 1) (.int k) dest src
  have hpasses : (s.decodeDirect (n + 1) (.int k) dest).Passes s.schema src (Walk.leaf l).exchanges
      (shut (stored k v dest l.tag)) src' := by
    rw [decodeDirect_eq]
    exact (scalar_passes s.schema k hl ht dest).map shut
  obtain ⟨hanswer, hexchanges, hsource⟩ := hpasses (.empty false)
  have hfits : fits ↔ k.holds v = true := IntKind.holds_iff_range.symm
  have hname : k.range.name = k.name := by rw [k.range_eq]
  refine ⟨?_, ?_, ha.source.trans hsource, ha.exchanges.trans hexchanges⟩
  · rw [hfits, ha.answer, hanswer, stored]
    split
    · rename_i h
      exact iff_of_true rfl h
    · rename_i h
      exact iff_of_false nofun h
  · rw [hfits, ha.answer, hanswer, stored, hname]
    split
    · rename_i h
      exact iff_of_false nofun (not_not_intro h)
    · rename_i h
      exact iff_of_true rfl h

/-- Numbers at the ends of the narrowest types, and past them; and the largest token without a sign, which is
not taken for `-1`. -/
theorem decode_number_edges :
    let s := plain Schema.empty
    let src := fun v => (⟨[.int v, .close]⟩ : Script)
    let decoded := fun k v => ((s.decode 1 (.int k) (.int 7)).run s.schema (src v) (.empty true)).answer
    let largest : Script := ⟨[.uint 18446744073709551615, .close]⟩
    let decodedLargest := fun k => ((s.decode 1 (.int k) (.int 7)).run s.schema largest (.empty true)).answer
    (Registry.empty true).Reachable s.schema ∧
      (∀ v, (Leaf.int v).number? = some v.toInt ∧
        Tells (src v) (Walk.leaf (.int v)).exchanges (⟨[.close]⟩ : Script)) ∧
      (decoded .i8 127 = some ⟨.ok (), .int 127⟩ ∧ decoded .i8 (-128) = some ⟨.ok (), .int (-128)⟩ ∧
        decoded .i8 128 = some ⟨.error (.outOfRange 128 "i8"), .int 7⟩ ∧
        decoded .i8 300 = some ⟨.error (.outOfRange 300 "i8"), .int 7⟩ ∧
        decoded .u8 255 = some ⟨.ok (), .int 255⟩ ∧
        decoded .u8 (-1) = some ⟨.error (.outOfRange (-1) "u8"), .int 7⟩) ∧
      (Leaf.uint 18446744073709551615).number? = some 18446744073709551615 ∧
      Tells largest (Walk.leaf (.uint 18446744073709551615)).exchanges (⟨[.close]⟩ : Script) ∧
      decodedLargest .u64 = some ⟨.ok (), .int 18446744073709551615⟩ ∧
      decodedLargest .i64 = some ⟨.error (.outOfRange 18446744073709551615 "i64"), .int 7⟩ := by
  intro s src decoded largest decodedLargest
  have hr : (Registry.empty true).Reachable s.schema := .empty true
  have ht : ∀ v, Tells (src v) (Walk.leaf (.int v)).exchanges (⟨[.close]⟩ : Script) :=
    fun v => .cons rfl (.cons rfl (.nil _))
  have hnumber := fun (k : IntKind) (v : Int64) => decode_number s hr k (l := .int v) rfl (ht v) 0 (.int 7)
  have hl : (Leaf.uint 18446744073709551615).number? = some 18446744073709551615 := rfl
  have hlargest : Tells largest (Walk.leaf (.uint 18446744073709551615)).exchanges (⟨[.close]⟩ : Script) :=
    .cons rfl (.cons rfl (.nil _))
  refine ⟨hr, fun v => ⟨rfl, ht v⟩, ⟨?_, ?_, ?_, ?_, ?_, ?_⟩, hl, hlargest, ?_, ?_⟩
  · exact (hnumber .i8 127).1.2 (by decide)
  · exact (hnumber .i8 (-128)).1.2 (by decide)
  · exact (hnumber .i8 128).2.1.2 (by decide)
  · exact (hnumber .i8 300).2.1.2 (by decide)
  · exact (hnumber .u8 255).1.2 (by decide)
  · exact (hnumber .u8 (-1)).2.1.2 (by decide)
  · exact (decode_number s hr .u64 hl hlargest 0 (.int 7)).1.2 (by decide)
  · exact (decode_number s hr .i64 hl hlargest 0 (.int 7)).2.1.2 (by decide)

end Setup

end Decant
