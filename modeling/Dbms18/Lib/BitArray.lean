import Mathlib.Data.Nat.Bitwise
import Mathlib.Data.Nat.Find
import Dbms18.Lib.Endian

/-!
# Arrays of bits

A list of bytes read as an array of bits, eight to a byte and the lowest bit first. The little-endian
number that the bytes stand for has the same bits (`testBit_ofLE`), so a program may change the array byte
by byte and search it word by word. `x &&& -x` picks the lowest set bit of a word (`and_neg_of_lowest`).
-/

namespace Dbms18

namespace BitArray

/-- Bit `j` of the bytes. The bits past the end are clear. -/
def bit (bs : Bytes) (j : Nat) : Bool := (bs[j / 8]?.getD 0).toNat.testBit (j % 8)

theorem bit_replicate_zero (n j : Nat) : bit (List.replicate n 0) j = false := by
  rw [bit, List.getElem?_replicate]
  split <;> exact Nat.zero_testBit _

theorem bit_of_length_le {bs : Bytes} {j : Nat} (h : 8 * bs.length ≤ j) : bit bs j = false := by
  rw [bit, List.getElem?_eq_none (by omega)]
  exact Nat.zero_testBit _

theorem bit_set {bs : Bytes} {o : Nat} {old new : UInt8} {v : Bool} (hold : bs[o / 8]? = some old)
    (hnew : ∀ k < 8, new.toNat.testBit k = if k = o % 8 then v else old.toNat.testBit k) (j : Nat) :
    bit (bs.set (o / 8) new) j = if j = o then v else bit bs j := by
  obtain ⟨hlt, -⟩ := List.getElem?_eq_some_iff.1 hold
  by_cases hbyte : j / 8 = o / 8
  · have hnew' := hnew (j % 8) (Nat.mod_lt _ (by decide))
    have hiff : j % 8 = o % 8 ↔ j = o := by omega
    rw [bit, bit, hbyte, List.getElem?_set_self hlt, hold, Option.getD_some, Option.getD_some, hnew']
    simp only [hiff]
  · have hne : j ≠ o := by
      rintro rfl
      exact hbyte rfl
    rw [bit, bit, List.getElem?_set_ne (Ne.symm hbyte), if_neg hne]

theorem bit_cons (b : UInt8) (bs : Bytes) (j : Nat) :
    bit (b :: bs) j = if j < 8 then b.toNat.testBit j else bit bs (j - 8) := by
  unfold bit
  split
  · next h => rw [Nat.div_eq_of_lt h, Nat.mod_eq_of_lt h, List.getElem?_cons_zero, Option.getD_some]
  · next h =>
    obtain ⟨i, rfl⟩ := Nat.exists_eq_add_of_le (Nat.not_lt.1 h)
    rw [Nat.add_div_left _ (by decide), Nat.add_mod_left, Nat.add_sub_cancel_left, List.getElem?_cons_succ]

theorem testBit_ofLE (bs : Bytes) (j : Nat) : (ofLE bs).testBit j = bit bs j := by
  induction bs generalizing j with
  | nil =>
    rw [bit_of_length_le (Nat.zero_le _)]
    exact Nat.zero_testBit j
  | cons b bs ih =>
    have hbyte : b.toNat < 2 ^ 8 := b.toNat_lt
    have hsplit : ofLE (b :: bs) = 2 ^ 8 * ofLE bs + b.toNat := Nat.add_comm _ _
    rw [hsplit, Nat.testBit_two_pow_mul_add _ hbyte, bit_cons]
    split
    · rfl
    · exact ih _

theorem bit_read {bs : Bytes} {off n j : Nat} (h : j < 8 * n) : bit (Block.read bs off n) j = bit bs (8 * off + j) := by
  have hdiv : (8 * off + j) / 8 = off + j / 8 := by omega
  have hmod : (8 * off + j) % 8 = j % 8 := by omega
  rw [bit, bit, Block.read, List.getElem?_take_of_lt (by omega), List.getElem?_drop, hdiv, hmod]

/-! ## The lowest set bit of a word -/

theorem and_neg_of_lowest {w k : Nat} {x : BitVec w} (hk : x.getLsbD k = true) (hlow : ∀ i < k, x.getLsbD i = false) :
    x &&& -x = BitVec.twoPow w k := by
  have hkw : k < w := BitVec.lt_of_getLsbD hk
  apply BitVec.eq_of_getLsbD_eq
  intro i hi
  rw [BitVec.getLsbD_and, BitVec.getLsbD_neg, BitVec.getLsbD_twoPow]
  -- below `k` there is nothing, at `k` only the carry is missing, above it the two are complements
  rcases Nat.lt_trichotomy i k with hlt | rfl | hgt
  · simp [hlow i hlt, hlt.ne']
  · have hnone : ¬ ∃ j, j < i ∧ x.getLsbD j = true := by
      rintro ⟨j, hj, htrue⟩
      rw [hlow j hj] at htrue
      cases htrue
    simp [hk, hnone, hkw]
  · have hsome : ∃ j, j < i ∧ x.getLsbD j = true := ⟨k, hgt, hk⟩
    simp [hsome, hi, hgt.ne]

theorem exists_lowest {n : Nat} (h : n ≠ 0) : ∃ k, n.testBit k = true ∧ ∀ i < k, n.testBit i = false := by
  classical
  have hsome := Nat.exists_testBit_of_ne_zero h
  refine ⟨Nat.find hsome, Nat.find_spec hsome, fun i hi => ?_⟩
  exact Bool.eq_false_iff.2 (Nat.find_min hsome hi)

end BitArray

end Dbms18
