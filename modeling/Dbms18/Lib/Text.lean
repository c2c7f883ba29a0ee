import Mathlib.Algebra.Group.Int.Defs
import Mathlib.Algebra.Group.Nat.Defs
import Dbms18.Lib.Block

/-!
# Text as bytes
-/

namespace Dbms18

/-- The bytes of an ASCII literal. -/
def ascii (s : String) : Bytes := s.toList.map fun c => c.toNat.toUInt8

/-- What a stream's `<<` writes for a number. -/
def decimal (i : Int) : Bytes := ascii (toString i)

theorem toNat_lt_of_isDigit {c : Char} (h : c.isDigit = true) : c.toNat < 256 := by
  simp only [Char.isDigit, Bool.and_eq_true, decide_eq_true_eq] at h
  exact Nat.lt_of_le_of_lt h.2 (by decide)

theorem toList_toString (i : Int) : (toString i).toList =
    if 0 ≤ i then Nat.toDigits 10 i.toNat else '-' :: Nat.toDigits 10 (-i).toNat := by
  rw [Int.toString_eq_repr, Int.repr_eq_if]
  split
  · rw [Nat.repr_eq_ofList_toDigits, String.toList_ofList]
  · simp [Nat.repr_eq_ofList_toDigits]

theorem isDigit_of_mem {n : Nat} {c : Char} (h : c ∈ Nat.toDigits 10 n) : c.isDigit = true :=
  Nat.isDigit_of_mem_toDigits (by decide) (by decide) h

theorem toDigits_injective {m n : Nat} (h : Nat.toDigits 10 m = Nat.toDigits 10 n) : m = n := by
  rw [← Nat.ofDigitChars_toDigits (b := 10) (n := m) (by decide) (by decide), h,
    Nat.ofDigitChars_toDigits (by decide) (by decide)]

theorem toString_injective {i j : Int} (h : (toString i).toList = (toString j).toList) : i = j := by
  rw [toList_toString, toList_toString] at h
  have hsign : ∀ (n : Nat) cs, Nat.toDigits 10 n ≠ '-' :: cs := by
    intro n cs heq
    have hdigit := isDigit_of_mem (heq ▸ List.mem_cons_self)
    exact absurd hdigit (by decide)
  split at h <;> split at h
  · have := toDigits_injective h
    omega
  · exact absurd h (hsign _ _)
  · exact absurd h.symm (hsign _ _)
  · have := toDigits_injective (List.cons.inj h).2
    omega

theorem length_decimal_le {i : Int} {n : Nat} (hn : 0 < n) (hi : i.natAbs < 10 ^ n) : (decimal i).length ≤ n + 1 := by
  rw [decimal, ascii, List.length_map, toList_toString]
  split
  · have hlen := (Nat.length_toDigits_le_iff (b := 10) (n := i.toNat) (by decide) hn).2 (by omega)
    exact Nat.le_succ_of_le hlen
  · have hlen := (Nat.length_toDigits_le_iff (b := 10) (n := (-i).toNat) (by decide) hn).2 (by omega)
    exact Nat.succ_le_succ hlen

theorem chars_decimal (i : Int) : (decimal i).map (fun b => Char.ofNat b.toNat) = (toString i).toList := by
  rw [decimal, ascii, List.map_map]
  refine (List.map_congr_left fun c hc => ?_).trans (List.map_id _)
  have hsmall : c.toNat < 256 := by
    rw [toList_toString] at hc
    split at hc
    · exact toNat_lt_of_isDigit (isDigit_of_mem hc)
    · rcases List.mem_cons.1 hc with rfl | hc
      · decide
      · exact toNat_lt_of_isDigit (isDigit_of_mem hc)
  simp [Nat.mod_eq_of_lt hsmall]

theorem decimal_injective {i j : Int} (h : decimal i = decimal j) : i = j :=
  toString_injective (by rw [← chars_decimal i, h, chars_decimal j])

end Dbms18
