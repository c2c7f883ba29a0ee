import Mathlib.Data.Nat.Log
import Mathlib.Tactic.Ring

/-!
# Double precision

`roundDouble n` is the IEEE 754 double nearest to the integer `n` (ties to even), for values below
the overflow threshold: doubles have 53 significant bits, so `n < 2 ^ 53` is exact. A product with a
constant that is a dyadic fraction `c / 2 ^ k` is rounded as `roundDouble (n * c)`, since scaling by a
power of two is exact.

`Double.compare` compares two doubles given by their bits.
-/

namespace Dbms18

/-- The double nearest to `n`, ties to even. -/
def roundDouble (n : Nat) : Nat :=
  let e := n.log2 - 52
  let q := n / 2 ^ e
  let r := n % 2 ^ e
  if 2 ^ e < 2 * r ∨ (2 * r = 2 ^ e ∧ q % 2 = 1) then (q + 1) * 2 ^ e else q * 2 ^ e

theorem roundDouble_le_two_mul (n : Nat) : roundDouble n ≤ 2 * n := by
  unfold roundDouble
  have hq : n / 2 ^ (n.log2 - 52) * 2 ^ (n.log2 - 52) ≤ n := Nat.div_mul_le_self _ _
  dsimp only
  split
  · rcases Nat.eq_zero_or_pos n with rfl | hn
    · simp at *
    · have he : 2 ^ (n.log2 - 52) ≤ n :=
        (Nat.pow_le_pow_right (by decide) (Nat.sub_le _ _)).trans (Nat.log2_self_le hn.ne')
      rw [Nat.add_mul, Nat.one_mul]
      omega
  · omega

namespace Double

/-- The double with these bits as a number that is ordered as the doubles are: the bits below the sign
are the magnitude, and both zeros are 0. `none` is not a number. -/
def key (bits : UInt64) : Option Int :=
  let magnitude : Nat := bits.toNat % 2 ^ 63
  if 0x7FF0000000000000 < magnitude then none
  else some (if bits.toNat < 2 ^ 63 then (magnitude : Int) else -magnitude)

/-- How two doubles compare; `none` if one of them is not a number. -/
def compare (a b : UInt64) : Option Ordering := do
  return Ord.compare (← key a) (← key b)

end Double

end Dbms18
