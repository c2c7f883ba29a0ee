import Mathlib.Algebra.Group.Nat.Defs

/-!
# Natural numbers in an `int`

A 32-bit `int` that counts up from zero is the number as long as it is below `2 ^ 31`, and negative from there on.
Compared with an unsigned number it is converted first, so as an unsigned number it is right up to `2 ^ 32`.
-/

namespace Dbms18.Offset

variable {k : Nat}

theorem nonneg (hk : k < 2 ^ 31) : 0 ≤ Int32.ofNat k := by
  rw [Int32.le_iff_toInt_le, Int32.toInt_ofNat_of_lt hk]
  exact Int.natCast_nonneg k

theorem not_nonneg (hk : 2 ^ 31 ≤ k) (hlt : k < 2 ^ 32) : ¬ 0 ≤ Int32.ofNat k := by
  rw [Int32.le_iff_toInt_le, Int32.toInt_ofNat', Int.bmod_def]
  change ¬ (0 : Int) ≤ _
  split <;> simp only [Int32.size] at * <;> omega

theorem toUInt32_ofNat (k : Nat) : (Int32.ofNat k).toUInt32 = UInt32.ofNat k := rfl

theorem toNat_toUInt32 (hk : k < 2 ^ 32) : (Int32.ofNat k).toUInt32.toNat = k := by
  rw [toUInt32_ofNat, UInt32.toNat_ofNat_of_lt' hk]

theorem lt_iff {len : UInt32} (hk : k < 2 ^ 32) : (Int32.ofNat k).toUInt32 < len ↔ k < len.toNat := by
  rw [UInt32.lt_iff_toNat_lt, toNat_toUInt32 hk]

theorem add_succ (k n : Nat) : Int32.ofNat k + Int32.ofNat n + 1 = Int32.ofNat (k + n + 1) := by
  rw [Int32.ofNat_add, Int32.ofNat_add]
  rfl

end Dbms18.Offset
