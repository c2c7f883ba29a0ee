import Mathlib.Data.List.Induction
import Dbms18.Lib.BitArray
import Dbms18.Lib.Loop
import Dbms18.Lib.Offset

/-!
# `Bitmap` (`include/common/bitmap.h`, `common/bitmap.cpp`)

A header of two 32-bit numbers, with the bits behind it. `SetBit` and `GetBit` work on single bytes and
make a boolean array of them (`getBit_setBits`). `FindFirstZeroBit` reads 32-bit words, but the bound of
its loop counts eight bytes for each word: of a bitmap of more than four bytes it searches only the lower
half, and reports a bitmap as full as soon as that half is (`findFirstZeroBit_iff`).
-/

namespace Dbms18

open Res

structure Bitmap where
  length : UInt32
  bitcount : UInt32
  bits : Bytes
  length_bits : bits.length = length.toNat
deriving DecidableEq

namespace Bitmap

/-- The constructor. `length * 8` is 32-bit arithmetic. -/
def new (length : UInt32) : Bitmap := ⟨length, length * 8, List.replicate length.toNat 0, List.length_replicate⟩

def bitCount (b : Bitmap) : UInt32 := b.bitcount

/-- The assignment `bits_[i] = byte`. -/
def store (b : Bitmap) (i : Nat) (byte : UInt8) : Bitmap :=
  { b with bits := b.bits.set i byte, length_bits := by rw [List.length_set, b.length_bits] }

/-- `1 << (offset % 8)`, an `int`. -/
def bitmask (offset : UInt32) : UInt32 := 1 <<< (offset % 8)

/-- The byte that `SetBit` stores: of an `int` only the low byte. -/
def masked (bits : UInt8) (offset : UInt32) (bit : Bool) : UInt8 :=
  if bit then (bits.toUInt32 ||| bitmask offset).toUInt8 else (bits.toUInt32 &&& ~~~bitmask offset).toUInt8

def setBit (b : Bitmap) (offset : UInt32) (bit : Bool) : Res Bitmap := do
  let bits ← Res.getD b.bits[offset.toNat / 8]? .outOfBounds
  return b.store (offset.toNat / 8) (masked bits offset bit)

def getBit (b : Bitmap) (offset : UInt32) : Res Bool := do
  Res.check (offset < b.bitcount) .assertion
  let bits ← Res.getD b.bits[offset.toNat / 8]? .outOfBounds
  return decide (bits.toUInt32 &&& bitmask offset ≠ 0)

/-- The macro `step` in `msb32_idx`. -/
def msbStep (bn : Int32 × UInt32) (x : UInt32) : Int32 × UInt32 :=
  if bn.2 ≥ 1 <<< x then (bn.1 + x.toInt32, bn.2 >>> x) else bn

def msb32Idx (n : UInt32) : Int32 := if n = 0 then -1 else ([16, 8, 4, 2, 1].foldl msbStep (0, n)).1

def lsb32 (n : UInt32) : UInt32 := n &&& -n

def lsb32Idx (n : UInt32) : Int32 := msb32Idx (lsb32 n)

/-- `*((uint32_t*) bits_ + i)`. -/
def word (b : Bitmap) (i : Int32) : Res UInt32 := do
  Res.check (0 ≤ i ∧ 4 * i.toNatClampNeg + 4 ≤ b.bits.length) .outOfBounds
  return (ofLE (Block.read b.bits (4 * i.toNatClampNeg) 4)).toUInt32

/-- One pass of the loop in `FindFirstZeroBit`, with the test of its condition. `i` is an `int`, and the
comparison with `length_` is one of unsigned numbers. -/
def searchStep (b : Bitmap) (i : Int32) : Res (Int32 ⊕ UInt32) :=
  if (i * 8).toUInt32 < b.length then do
    let bits ← b.word i
    return if bits ≠ ~~~0 then .inr (i * 32 + lsb32Idx (~~~bits)).toUInt32 else .inl (i + 1)
  else .ok (.inr b.bitcount)

def findFirstZeroBit (fuel : Nat) (b : Bitmap) : Res UInt32 := Res.loop b.searchStep fuel 0

def setBits (b : Bitmap) (calls : List (UInt32 × Bool)) : Res Bitmap := calls.foldlM (fun b c => b.setBit c.1 c.2) b

def lastSet (calls : List (UInt32 × Bool)) (j : UInt32) : Bool := (calls.reverse.lookup j).getD false

/-! ## Single bits -/

theorem toNat_bitmask (offset : UInt32) : (bitmask offset).toNat = 2 ^ (offset.toNat % 8) := by
  have hlt : offset.toNat % 8 < 8 := Nat.mod_lt _ (by decide)
  have hpow : 2 ^ (offset.toNat % 8) < 2 ^ 32 := Nat.pow_lt_pow_right (by decide) (by omega)
  have hmod : offset.toNat % 8 % 32 = offset.toNat % 8 := Nat.mod_eq_of_lt (by omega)
  rw [bitmask, UInt32.toNat_shiftLeft, UInt32.toNat_mod]
  show 1 <<< (offset.toNat % 8 % 32) % 2 ^ 32 = _
  rw [hmod, Nat.one_shiftLeft, Nat.mod_eq_of_lt hpow]

theorem testBit_not (n : UInt32) {k : Nat} (hk : k < 32) : (~~~n).toNat.testBit k = !n.toNat.testBit k := by
  have hnot : (~~~n.toBitVec).getLsbD k = (decide (k < 32) && !n.toBitVec.getLsbD k) := BitVec.getLsbD_not
  rwa [decide_eq_true hk, Bool.true_and] at hnot

theorem testBit_masked (byte : UInt8) (offset : UInt32) (bit : Bool) (k : Nat) (hk : k < 8) :
    (masked byte offset bit).toNat.testBit k = if k = offset.toNat % 8 then bit else byte.toNat.testBit k := by
  have hmask : (bitmask offset).toNat.testBit k = decide (k = offset.toNat % 8) := by
    rw [toNat_bitmask, Nat.testBit_two_pow]
    simp only [eq_comm]
  cases bit with
  | true =>
    rw [masked, if_pos rfl, UInt32.toNat_toUInt8, Nat.testBit_mod_two_pow, UInt32.toNat_or, Nat.testBit_or, hmask,
      decide_eq_true hk, Bool.true_and]
    by_cases h : k = offset.toNat % 8 <;> simp [h]
  | false =>
    rw [masked, if_neg Bool.false_ne_true, UInt32.toNat_toUInt8, Nat.testBit_mod_two_pow, UInt32.toNat_and, Nat.testBit_and,
      testBit_not _ (by omega), hmask, decide_eq_true hk, Bool.true_and]
    by_cases h : k = offset.toNat % 8 <;> simp [h]

theorem and_bitmask_ne_zero (byte : UInt8) (offset : UInt32) :
    decide (byte.toUInt32 &&& bitmask offset ≠ 0) = byte.toNat.testBit (offset.toNat % 8) := by
  have hand : byte.toUInt32 &&& bitmask offset = 0 ↔ byte.toNat &&& 2 ^ (offset.toNat % 8) = 0 := by
    rw [← UInt32.toNat_inj, UInt32.toNat_and, toNat_bitmask]
    rfl
  simp only [ne_eq, hand, Nat.and_two_pow]
  cases byte.toNat.testBit (offset.toNat % 8) <;> simp

/-! ## Runs of `SetBit` -/

theorem toNat_bitcount_le (length : UInt32) : (new length).bitcount.toNat ≤ 8 * length.toNat := by
  show (length * 8).toNat ≤ _
  rw [UInt32.toNat_mul, Nat.mul_comm 8]
  exact Nat.mod_le _ _

/-- The state after the calls: the header is that of the constructor, the bits below `bitcount_` are those
of the boolean array, and nothing is set behind them. -/
structure After (b : Bitmap) (length : UInt32) (calls : List (UInt32 × Bool)) : Prop where
  bitcount : b.bitcount = (new length).bitcount
  length : b.length = length
  bit : ∀ j : UInt32, BitArray.bit b.bits j.toNat = lastSet calls j
  beyond : ∀ j, b.bitcount.toNat ≤ j → BitArray.bit b.bits j = false

theorem after_new (length : UInt32) : (new length).After length [] :=
  ⟨rfl, rfl, fun _ => BitArray.bit_replicate_zero _ _, fun _ _ => BitArray.bit_replicate_zero _ _⟩

theorem lastSet_concat (calls : List (UInt32 × Bool)) (c : UInt32 × Bool) (j : UInt32) :
    lastSet (calls ++ [c]) j = if j = c.1 then c.2 else lastSet calls j := by
  rw [lastSet, List.reverse_concat, List.lookup_cons]
  split <;> simp_all [lastSet]

variable {b : Bitmap} {length : UInt32} {calls : List (UInt32 × Bool)}

namespace After

theorem inside (h : b.After length calls) {j : Nat} (hj : j < b.bitcount.toNat) : ∃ byte, b.bits[j / 8]? = some byte := by
  have hle := toNat_bitcount_le length
  rw [← h.bitcount, ← h.length, ← b.length_bits] at hle
  exact ⟨_, List.getElem?_eq_getElem (by omega)⟩

theorem setBit (h : b.After length calls) {c : UInt32 × Bool} (hc : c.1 < b.bitcount) :
    ∃ b', b.setBit c.1 c.2 = .ok b' ∧ b'.After length (calls ++ [c]) := by
  obtain ⟨byte, hbyte⟩ := h.inside (UInt32.lt_iff_toNat_lt.1 hc)
  have hset := BitArray.bit_set hbyte (testBit_masked byte c.1 c.2)
  refine ⟨b.store (c.1.toNat / 8) (masked byte c.1 c.2), by simp [Bitmap.setBit, hbyte], h.bitcount, h.length,
    fun j => ?_, fun j hj => ?_⟩
  · rw [lastSet_concat, ← h.bit j]
    simp only [store, hset, UInt32.toNat_inj]
  · have hne : j ≠ c.1.toNat := by
      rintro rfl
      exact Nat.not_lt.2 hj (UInt32.lt_iff_toNat_lt.1 hc)
    simp only [store, hset, if_neg hne]
    exact h.beyond j hj

theorem getBit (h : b.After length calls) {j : UInt32} (hj : j < b.bitcount) :
    b.getBit j = .ok (BitArray.bit b.bits j.toNat) := by
  obtain ⟨byte, hbyte⟩ := h.inside (UInt32.lt_iff_toNat_lt.1 hj)
  rw [BitArray.bit, Bitmap.getBit, hbyte, check_of hj, ok_bind, getD_some, ok_bind,
    and_bitmask_ne_zero]
  rfl

theorem getBit_eq_ok (h : b.After length calls) {j : UInt32} (hj : j < b.bitcount) {v : Bool} :
    b.getBit j = .ok v ↔ BitArray.bit b.bits j.toNat = v := by
  rw [h.getBit hj]
  exact ⟨Except.ok.inj, congrArg _⟩

end After

theorem after_setBits (h : ∀ c ∈ calls, c.1 < (new length).bitcount) :
    ∃ b, (new length).setBits calls = .ok b ∧ b.After length calls := by
  induction calls using List.reverseRecOn with
  | nil => exact ⟨_, rfl, after_new length⟩
  | append_singleton calls c ih =>
    obtain ⟨b, hb, hafter⟩ := ih fun c' hc' => h c' (List.mem_append_left _ hc')
    obtain ⟨b', hb', hafter'⟩ := hafter.setBit (hafter.bitcount ▸ h c (by simp))
    refine ⟨b', ?_, hafter'⟩
    rw [setBits, List.foldlM_append, ← setBits, hb]
    simpa using hb'

/-- The bitmap is a boolean array, whatever its length. -/
theorem getBit_setBits (h : ∀ c ∈ calls, c.1 < (new length).bitCount) :
    ∃ b, (new length).setBits calls = .ok b ∧ ∀ j < b.bitCount, b.getBit j = .ok (lastSet calls j) := by
  obtain ⟨b, hb, hafter⟩ := after_setBits h
  exact ⟨b, hb, fun j hj => by rw [hafter.getBit hj, hafter.bit j]⟩

theorem getBit_setBits_cleared : ∃ b, (new 1).setBits [(3, true), (4, true), (3, false)] = .ok b ∧
    b.getBit 3 = .ok false ∧ b.getBit 4 = .ok true := by
  have hoffsets : ∀ c ∈ [((3 : UInt32), true), (4, true), (3, false)], c.1 < (new 1).bitCount := by
    simp [bitCount, new]
  obtain ⟨b, hb, hget⟩ := getBit_setBits hoffsets
  obtain rfl := Except.ok.inj hb
  exact ⟨_, rfl, hget 3 (by decide), hget 4 (by decide)⟩

/-! ## The search -/

theorem msb32Idx_one_shiftLeft (k : Fin 32) : msb32Idx (1 <<< UInt32.ofNat k.val) = Int32.ofNat k.val := by
  revert k
  decide

theorem lsb32Idx_of_lowest {n : UInt32} {k : Nat} (hk : n.toNat.testBit k = true)
    (hlow : ∀ i < k, n.toNat.testBit i = false) : k < 32 ∧ lsb32Idx n = Int32.ofNat k := by
  have hlt : k < 32 := BitVec.lt_of_getLsbD (show n.toBitVec.getLsbD k = true from hk)
  have hpower : lsb32 n = 1 <<< UInt32.ofNat k := by
    rw [← UInt32.toBitVec_inj]
    refine (BitArray.and_neg_of_lowest (x := n.toBitVec) hk hlow).trans ?_
    rw [UInt32.toBitVec_shiftLeft, BitVec.twoPow_eq]
    simp [Nat.mod_eq_of_lt hlt, Nat.mod_eq_of_lt (show k < 4294967296 by omega)]
  rw [lsb32Idx, hpower]
  exact ⟨hlt, msb32Idx_one_shiftLeft ⟨k, hlt⟩⟩

theorem testBit_full {i : Nat} (hi : i < 32) : (~~~(0 : UInt32)).toNat.testBit i = true := by
  rw [testBit_not _ hi]
  exact congrArg (! ·) (Nat.zero_testBit i)

theorem lsb32Idx_not {w : UInt32} (h : w ≠ ~~~0) :
    ∃ i < 32, lsb32Idx (~~~w) = Int32.ofNat i ∧ w.toNat.testBit i = false ∧ ∀ j < i, w.toNat.testBit j = true := by
  have hne : (~~~w).toNat ≠ 0 := by
    intro hzero
    have hzero : ~~~w = 0 := UInt32.toNat_inj.1 hzero
    rw [← UInt32.not_not (a := w), hzero] at h
    exact h rfl
  obtain ⟨i, hi, hlow⟩ := BitArray.exists_lowest hne
  obtain ⟨hlt, hidx⟩ := lsb32Idx_of_lowest hi hlow
  refine ⟨i, hlt, hidx, ?_, fun j hj => ?_⟩
  · rw [testBit_not _ hlt] at hi
    exact Bool.not_eq_true' _ ▸ hi
  · have hj' := hlow j hj
    rw [testBit_not _ (hj.trans hlt)] at hj'
    exact Bool.not_eq_false' _ ▸ hj'

theorem toNat_mul_eight {k : Nat} (hk : k < 2 ^ 27) : (Int32.ofNat k * 8).toUInt32.toNat = 8 * k := by
  show (Int32.ofNat k * Int32.ofNat 8).toUInt32.toNat = _
  rw [← Int32.ofNat_mul, Nat.mul_comm, Offset.toNat_toUInt32 (by omega)]

theorem word_eq {k : Nat} (hk : k < 2 ^ 31) (h : 4 * k + 4 ≤ b.bits.length) :
    ∃ w, b.word (Int32.ofNat k) = .ok w ∧ ∀ i < 32, w.toNat.testBit i = BitArray.bit b.bits (32 * k + i) := by
  have hclamp : (Int32.ofNat k).toNatClampNeg = k := Int32.toNatClampNeg_ofNat_of_lt hk
  have hnonneg := Offset.nonneg hk
  refine ⟨(ofLE (Block.read b.bits (4 * k) 4)).toUInt32, ?_, fun i hi => ?_⟩
  · simp [word, hclamp, check_of, hnonneg, h]
  · have hoff : 8 * (4 * k) + i = 32 * k + i := by omega
    show ((ofLE _) % 2 ^ 32).testBit i = _
    rw [Nat.testBit_mod_two_pow, decide_eq_true hi, Bool.true_and, BitArray.testBit_ofLE, BitArray.bit_read (by omega), hoff]

namespace After

variable (h : b.After length calls)
include h

theorem le_bitcount {n : Nat} (hset : ∀ j < n, BitArray.bit b.bits j = true) : n ≤ b.bitcount.toNat := by
  by_contra hlt
  have hset := hset _ (Nat.lt_of_not_le hlt)
  rw [h.beyond _ le_rfl] at hset
  cases hset

theorem searchStep_word (hpos : 0 < length) (hwords : length % 4 = 0) {k : Nat} (hk : k < 2 ^ 27)
    (hlt : 8 * k < b.length.toNat) :
    ∃ w : UInt32, (∀ i < 32, w.toNat.testBit i = BitArray.bit b.bits (32 * k + i)) ∧
      b.searchStep (Int32.ofNat k) = .ok (if w ≠ ~~~0 then
        .inr (Int32.ofNat k * 32 + lsb32Idx (~~~w)).toUInt32 else .inl (Int32.ofNat k + 1)) := by
  have hlength : 4 * k + 4 ≤ b.bits.length := by
    have hpos' : 0 < length.toNat := UInt32.lt_iff_toNat_lt.1 hpos
    have hwords' : length.toNat % 4 = 0 := congrArg UInt32.toNat hwords
    rw [h.length] at hlt
    rw [b.length_bits, h.length]
    omega
  obtain ⟨w, hw, hbits⟩ := word_eq (by omega) hlength
  refine ⟨w, hbits, ?_⟩
  rw [searchStep, if_pos (UInt32.lt_iff_toNat_lt.2 (by rwa [toNat_mul_eight hk])), hw]
  rfl

theorem searchStep_eq (hpos : 0 < length) (hwords : length % 4 = 0) {k : Nat}
    (hset : ∀ j < 32 * k, BitArray.bit b.bits j = true) :
    b.length.toNat ≤ 8 * k ∧ b.searchStep (Int32.ofNat k) = .ok (.inr b.bitcount) ∨
    (∃ n, n / 32 = k ∧ 8 * k < b.length.toNat ∧ BitArray.bit b.bits n = false ∧ (∀ j < n, BitArray.bit b.bits j = true) ∧
      b.searchStep (Int32.ofNat k) = .ok (.inr (UInt32.ofNat n))) ∨ (∀ j < 32 * (k + 1), BitArray.bit b.bits j = true) ∧
      b.searchStep (Int32.ofNat k) = .ok (.inl (Int32.ofNat (k + 1))) := by
  have hbound := h.le_bitcount hset
  have hbitcount := b.bitcount.toNat_lt
  have hk : k < 2 ^ 27 := by omega
  by_cases hlt : 8 * k < b.length.toNat
  · obtain ⟨w, hbits, hstep⟩ := h.searchStep_word hpos hwords hk hlt
    have hextend : ∀ i ≤ 32, (∀ j < i, w.toNat.testBit j = true) → ∀ j < 32 * k + i, BitArray.bit b.bits j = true := by
      intro i hi hword j hj
      by_cases hold : j < 32 * k
      · exact hset j hold
      · obtain ⟨j, rfl⟩ := Nat.exists_eq_add_of_le (Nat.not_lt.1 hold)
        rw [← hbits j (by omega)]
        exact hword j (by omega)
    by_cases hfull : w = ~~~0
    · refine .inr (.inr ⟨hextend 32 le_rfl fun j hj => hfull ▸ testBit_full hj, ?_⟩)
      rw [hstep, if_neg (not_not_intro hfull), Int32.ofNat_add]
      rfl
    · obtain ⟨i, hi, hidx, hclear, hbelow⟩ := lsb32Idx_not hfull
      refine .inr (.inl ⟨32 * k + i, by omega, hlt, hbits i hi ▸ hclear, hextend i hi.le hbelow, ?_⟩)
      rw [hstep, if_pos hfull, hidx, ← Offset.toUInt32_ofNat, Int32.ofNat_add, Nat.mul_comm, Int32.ofNat_mul]
      rfl
  · refine .inl ⟨Nat.not_lt.1 hlt, if_neg fun hlt' => hlt ?_⟩
    rw [← toNat_mul_eight hk]
    exact UInt32.lt_iff_toNat_lt.1 hlt'

theorem findFirstZeroBit_eq (hpos : 0 < length) (hwords : length % 4 = 0) :
    ∃ r, b.findFirstZeroBit (2 ^ 27 + 1) = .ok r ∧
      (8 * (r.toNat / 32) < b.length.toNat ∧ BitArray.bit b.bits r.toNat = false ∧
          (∀ j < r.toNat, BitArray.bit b.bits j = true) ∨
        r = b.bitcount ∧ ∀ j, 8 * (j / 32) < b.length.toNat → BitArray.bit b.bits j = true) := by
  have hbitcount := b.bitcount.toNat_lt
  refine loop_total (I := fun m i => ∃ k, i = Int32.ofNat k ∧ m = 2 ^ 27 - k ∧
    ∀ j < 32 * k, BitArray.bit b.bits j = true) ?_ ⟨0, rfl, rfl, fun j hj => absurd hj (Nat.not_lt_zero j)⟩ (Nat.lt_succ_self _)
  rintro m i ⟨k, rfl, rfl, hset⟩
  rcases h.searchStep_eq hpos hwords hset with ⟨hend, hstep⟩ | ⟨n, hn, hlt, hclear, hbelow, hstep⟩ | ⟨hset', hstep⟩
  · exact .inr ⟨_, hstep, .inr ⟨rfl, fun j hj => hset j (by omega)⟩⟩
  · have hnat : (UInt32.ofNat n).toNat = n :=
      UInt32.toNat_ofNat_of_lt' ((h.le_bitcount hbelow).trans_lt hbitcount)
    refine .inr ⟨_, hstep, .inl ?_⟩
    rw [hnat, hn]
    exact ⟨hlt, hclear, hbelow⟩
  · have hle := h.le_bitcount hset'
    exact .inl ⟨_, _, hstep, ⟨k + 1, rfl, rfl, hset'⟩, by omega⟩

end After

/-- `r` is the least offset whose bit is clear, or `bitcount_` if every bit is set. -/
def FirstZero (b : Bitmap) (r : UInt32) : Prop :=
  r ≤ b.bitCount ∧ (∀ j < r, b.getBit j = .ok true) ∧ (r < b.bitCount → b.getBit r = .ok false)

/-- The search is right exactly if the bitmap is full or a clear bit is in one of the words that the loop reads. -/
theorem findFirstZeroBit_iff (hpos : 0 < length) (hwords : length % 4 = 0)
    (hcalls : ∀ c ∈ calls, c.1 < (new length).bitCount) (hb : (new length).setBits calls = .ok b) :
    (∃ r, b.FirstZero r ∧ ∃ N, ∀ fuel ≥ N, b.findFirstZeroBit fuel = .ok r) ↔
      (∀ j < b.bitCount, b.getBit j = .ok true) ∨
        ∃ j < b.bitCount, 8 * (j.toNat / 32) < b.length.toNat ∧ b.getBit j = .ok false := by
  obtain ⟨b', hb', h⟩ := after_setBits hcalls
  obtain rfl : b' = b := Except.ok.inj (hb'.symm.trans hb)
  obtain ⟨r, hr, hresult⟩ := h.findFirstZeroBit_eq hpos hwords
  have hreturns : ∀ fuel ≥ 2 ^ 27 + 1, b'.findFirstZeroBit fuel = .ok r := fun fuel hfuel => loop_mono hr hfuel
  rcases hresult with ⟨hreached, hclear, hbelow⟩ | ⟨rfl, hfull⟩
  · have hle : r ≤ b'.bitCount := UInt32.le_iff_toNat_le.2 (h.le_bitcount hbelow)
    have hbelow' : ∀ j < r, b'.getBit j = .ok true := fun j hj =>
      (h.getBit_eq_ok (UInt32.lt_of_lt_of_le hj hle)).2 (hbelow _ (UInt32.lt_iff_toNat_lt.1 hj))
    refine iff_of_true ⟨r, ⟨hle, hbelow', fun hlt => (h.getBit_eq_ok hlt).2 hclear⟩, _, hreturns⟩ ?_
    by_cases hlt : r < b'.bitCount
    · exact .inr ⟨r, hlt, hreached, (h.getBit_eq_ok hlt).2 hclear⟩
    · exact .inl fun j hj => hbelow' j (UInt32.lt_of_lt_of_le hj (UInt32.not_lt.1 hlt))
  · constructor
    · rintro ⟨r, ⟨-, hbelow, -⟩, hr'⟩
      obtain rfl := loop_unique hr hr'
      exact .inl hbelow
    · rintro (hall | ⟨j, hj, hreached, hclear⟩)
      · exact ⟨_, ⟨UInt32.le_refl _, hall, fun hlt => absurd hlt (UInt32.lt_irrefl _)⟩, _, hreturns⟩
      · have hset := hfull _ hreached
        rw [(h.getBit_eq_ok hj).1 hclear] at hset
        cases hset

theorem findFirstZeroBit_iff_one_word : ∃ b, (new 4).setBits [(0, true), (1, true)] = .ok b ∧
    ∃ r, b.FirstZero r ∧ ∃ N, ∀ fuel ≥ N, b.findFirstZeroBit fuel = .ok r := by
  have hoffsets : ∀ c ∈ [((0 : UInt32), true), (1, true)], c.1 < (new 4).bitCount := by
    simp [bitCount, new]
  exact ⟨_, rfl, (findFirstZeroBit_iff (by decide) (by decide) hoffsets rfl).2 (.inr ⟨2, by decide, by decide, rfl⟩)⟩

def lowerHalf : List (UInt32 × Bool) := (List.range 32).map fun i => (UInt32.ofNat i, true)

/-- Of the 64 bits of a bitmap the lower half is set: the search says that all are. -/
theorem findFirstZeroBit_lowerHalf : ∃ b, (new 8).setBits lowerHalf = .ok b ∧ (∀ c ∈ lowerHalf, c.1 < (new 8).bitCount) ∧
    b.findFirstZeroBit 2 = .ok 64 ∧ b.getBit 32 = .ok false ∧
    ¬ ∃ r, b.FirstZero r ∧ ∃ N, ∀ fuel ≥ N, b.findFirstZeroBit fuel = .ok r := by
  have hoffsets : lowerHalf.all (fun c => decide (c.1 < (new 8).bitCount)) = true := by decide
  refine ⟨_, rfl, fun c hc => of_decide_eq_true (List.all_eq_true.1 hoffsets c hc), rfl, rfl, ?_⟩
  rintro ⟨r, ⟨-, hbelow, -⟩, hr⟩
  obtain rfl : r = 64 := loop_unique (rfl : findFirstZeroBit 2 _ = .ok 64) hr
  cases hbelow 32 (by decide)

end Bitmap

end Dbms18
