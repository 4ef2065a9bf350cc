import Mathlib.Algebra.Group.Nat.Defs
import Mathlib.Data.List.Basic
import SourceIndex.Idiom.FoxPro.Form

/-!
# Writing numbers as octets

A number is written with a fixed number of octets and read back from them, in either order, as long
as it fits.  A part of joined octets is read back by its offset and its size.
-/

namespace SourceIndex.Octets

/-- A number as so many octets, the lowest digit first. -/
def ofNatLittle : Nat → Nat → List UInt8
  | 0, _ => []
  | size + 1, n => n.toUInt8 :: ofNatLittle size (n / 0x100)

/-- A number as so many octets, the highest digit first. -/
def ofNatBig (size n : Nat) : List UInt8 :=
  (ofNatLittle size n).reverse

@[simp] theorem length_ofNatLittle (size n : Nat) : (ofNatLittle size n).length = size := by
  induction size generalizing n with
  | zero => rfl
  | succ size ih => simp only [ofNatLittle, List.length_cons, ih]

@[simp] theorem length_ofNatBig (size n : Nat) : (ofNatBig size n).length = size := by
  simp only [ofNatBig, List.length_reverse, length_ofNatLittle]

theorem little_ofNatLittle {size n : Nat} (h : n < 0x100 ^ size) :
    little (ofNatLittle size n) = n := by
  induction size generalizing n with
  | zero =>
      have hzero : n = 0 := by simpa using h
      simp only [ofNatLittle, little, hzero]
  | succ size ih =>
      have hquotient : n / 0x100 < 0x100 ^ size := by
        rw [Nat.div_lt_iff_lt_mul (by decide), ← Nat.pow_succ]
        exact h
      have hdigit : n.toUInt8.toNat = n % 0x100 := UInt8.toNat_ofNat'
      rw [ofNatLittle, little, ih hquotient, hdigit]
      omega

theorem big_ofNatBig {size n : Nat} (h : n < 0x100 ^ size) : big (ofNatBig size n) = n := by
  rw [big, ofNatBig, List.reverse_reverse, little_ofNatLittle h]

/-- The middle of three parts is read by the length of the first and its own length. -/
theorem slice?_append (before part after : List UInt8) :
    slice? (before ++ (part ++ after)) before.length part.length = some part := by
  have hpart : ((before ++ (part ++ after)).drop before.length).take part.length = part := by
    rw [List.drop_left, List.take_left]
  have hlength : before.length ≤ (before ++ (part ++ after)).length := by
    rw [List.length_append]
    omega
  simp only [slice?, hpart, hlength, and_self, if_true]

theorem slice?_of_append {bytes before part after : List UInt8} {offset size : Nat}
    (h : bytes = before ++ (part ++ after)) (hoffset : before.length = offset)
    (hsize : part.length = size) : slice? bytes offset size = some part := by
  subst h hoffset hsize
  exact slice?_append before part after

/-- Do some octets stand in others, from an offset on? -/
def IsAt (part bytes : List UInt8) (offset : Nat) : Prop :=
  offset + part.length ≤ bytes.length ∧ (bytes.drop offset).take part.length = part

theorem isAt_take_drop {bytes : List UInt8} {offset size : Nat} (h : offset + size ≤ bytes.length) :
    IsAt ((bytes.drop offset).take size) bytes offset ∧
      ((bytes.drop offset).take size).length = size := by
  have hlength : ((bytes.drop offset).take size).length = size := by
    rw [List.length_take, List.length_drop]
    omega
  exact ⟨⟨by rwa [hlength], by rw [hlength]⟩, hlength⟩

/-- What is read at an offset are as many octets that stand there. -/
theorem slice?_eq_some_iff {bytes part : List UInt8} {offset size : Nat} :
    slice? bytes offset size = some part ↔ IsAt part bytes offset ∧ part.length = size := by
  have hlength : ((bytes.drop offset).take size).length = min size (bytes.length - offset) := by
    rw [List.length_take, List.length_drop]
  simp only [slice?]
  constructor
  · intro h
    split at h
    · rename_i hinside
      obtain rfl := Option.some.inj h
      refine ⟨⟨?_, ?_⟩, hinside.1⟩
      · omega
      · rw [hinside.1]
    · cases h
  · rintro ⟨⟨hinside, hpart⟩, rfl⟩
    rw [hpart, if_pos ⟨rfl, by omega⟩]

/-- A number is read where it was written, the lowest digit first. -/
theorem littleAt?_of_append {bytes before after : List UInt8} {offset size n : Nat}
    (h : bytes = before ++ (ofNatLittle size n ++ after)) (hoffset : before.length = offset)
    (hn : n < 0x100 ^ size) : littleAt? bytes offset size = some n := by
  rw [littleAt?, slice?_of_append h hoffset (length_ofNatLittle size n), Option.map_some,
    little_ofNatLittle hn]

/-- A number is read where it was written, the highest digit first. -/
theorem bigAt?_of_append {bytes before after : List UInt8} {offset size n : Nat}
    (h : bytes = before ++ (ofNatBig size n ++ after)) (hoffset : before.length = offset)
    (hn : n < 0x100 ^ size) : bigAt? bytes offset size = some n := by
  rw [bigAt?, slice?_of_append h hoffset (length_ofNatBig size n), Option.map_some,
    big_ofNatBig hn]

end SourceIndex.Octets
