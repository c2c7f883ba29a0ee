import Mathlib.Data.Nat.Bitwise
import Dbms18.Lib.Decode

/-!
# Base-128 numbers

`varint v` is `v` in groups of seven bits, the lowest group first; every byte but the last has its high
bit set. `readVarint w last` is the loop that reads one into a word of `w` bits, group by group, and gives
up when a group would start above bit `last` or the bytes end.
-/

namespace Dbms18

def varint (v : Nat) : Bytes :=
  if v < 128 then [v.toUInt8] else (v % 128 + 128).toUInt8 :: varint (v / 128)

def readVarint (w last shift result : Nat) : Bytes → Option (Nat × Bytes)
  | [] => none
  | byte :: rest =>
    if last < shift then
      none
    else if byte.toNat &&& 128 ≠ 0 then
      readVarint w last (shift + 7) (result ||| ((byte.toNat &&& 127) <<< shift) % 2 ^ w) rest
    else
      some (result ||| (byte.toNat <<< shift) % 2 ^ w, rest)

theorem varint_of_lt {v : Nat} (h : v < 128) : varint v = [v.toUInt8] := by
  rw [varint, if_pos h]

theorem varint_of_le {v : Nat} (h : 128 ≤ v) : varint v = (v % 128 + 128).toUInt8 :: varint (v / 128) := by
  rw [varint, if_neg (Nat.not_lt.2 h)]

theorem toNat_toUInt8 {v : Nat} (h : v < 256) : v.toUInt8.toNat = v := by
  change v % 256 = v
  omega

theorem and_127 (b : Nat) : b &&& 127 = b % 128 := Nat.and_two_pow_sub_one_eq_mod b 7

theorem and_128_eq_zero_iff {b : Nat} (h : b < 256) : b &&& 128 = 0 ↔ b < 128 := by
  have hbits : ∀ c : Fin 256, c.val &&& 128 = 0 ↔ c.val < 128 := by decide +kernel
  exact hbits ⟨b, h⟩

section Read

variable {w last shift result : Nat} {bs rest : Bytes} {b : UInt8}

theorem readVarint_high (hshift : shift ≤ last) (hb : 128 ≤ b.toNat) : readVarint w last shift result (b :: rest) =
    readVarint w last (shift + 7) (result ||| ((b.toNat % 128) <<< shift) % 2 ^ w) rest := by
  have hbit : b.toNat &&& 128 ≠ 0 := fun h => absurd ((and_128_eq_zero_iff b.toNat_lt).1 h) (by omega)
  rw [readVarint, if_neg (by omega), if_pos hbit, and_127]

theorem readVarint_low (hshift : shift ≤ last) (hb : b.toNat < 128) : readVarint w last shift result (b :: rest) =
    some (result ||| (b.toNat <<< shift) % 2 ^ w, rest) := by
  have hbit : b.toNat &&& 128 = 0 := (and_128_eq_zero_iff b.toNat_lt).2 hb
  rw [readVarint, if_neg (by omega), if_neg (not_not.2 hbit)]

theorem or_group {x : Nat} (hresult : result < 2 ^ shift) (hx : x * 2 ^ shift < 2 ^ w) :
    result ||| (x <<< shift) % 2 ^ w = result + x * 2 ^ shift := by
  have hshl : x <<< shift = x * 2 ^ shift := Nat.shiftLeft_eq x shift
  rw [hshl, Nat.mod_eq_of_lt hx, ← hshl, Nat.or_comm, ← Nat.shiftLeft_add_eq_or_of_lt hresult, Nat.add_comm]

theorem readVarint_varint {v : Nat} (k : Nat) (hlast : last = shift + 7 * k) (hv : v < 128 ^ (k + 1))
    (hresult : result < 2 ^ shift) (hw : v * 2 ^ shift < 2 ^ w) :
    readVarint w last shift result (varint v ++ rest) = some (result + v * 2 ^ shift, rest) := by
  induction k generalizing shift result v with
  | zero =>
    have hv : v < 128 := by simpa using hv
    have hbyte : v.toUInt8.toNat = v := toNat_toUInt8 (by omega)
    rw [varint_of_lt hv, List.singleton_append, readVarint_low (by omega) (by omega), hbyte, or_group hresult hw]
  | succ k ih =>
    by_cases hsmall : v < 128
    · have hbyte : v.toUInt8.toNat = v := toNat_toUInt8 (by omega)
      rw [varint_of_lt hsmall, List.singleton_append, readVarint_low (by omega) (by omega), hbyte, or_group hresult hw]
    · have hbyte : (v % 128 + 128).toUInt8.toNat = v % 128 + 128 := toNat_toUInt8 (by omega)
      have hlow : v % 128 * 2 ^ shift < 2 ^ w :=
        Nat.lt_of_le_of_lt (Nat.mul_le_mul_right _ (Nat.mod_le v 128)) hw
      have hpow : 2 ^ (shift + 7) = 128 * 2 ^ shift := by rw [pow_add, Nat.mul_comm]; rfl
      -- the groups above the first one
      have hsplit : v * 2 ^ shift = v % 128 * 2 ^ shift + v / 128 * 2 ^ (shift + 7) := by
        rw [hpow, ← Nat.mul_assoc, ← Nat.add_mul, Nat.mul_comm (v / 128), Nat.mod_add_div]
      have hresult' : result + v % 128 * 2 ^ shift < 2 ^ (shift + 7) := by
        have hgroup : v % 128 * 2 ^ shift ≤ 127 * 2 ^ shift := Nat.mul_le_mul_right _ (by omega)
        omega
      have hv' : v / 128 < 128 ^ (k + 1) := by
        rw [Nat.div_lt_iff_lt_mul (by decide)]
        exact hv
      rw [varint_of_le (by omega), List.cons_append, readVarint_high (by omega) (by omega), hbyte,
        Nat.add_mod_right, Nat.mod_mod, or_group hresult hlow,
        ih (by omega) hv' hresult' (by omega), hsplit, Nat.add_assoc]

theorem readVarint_of_high (h : ∀ b ∈ bs, 128 ≤ b.toNat) : readVarint w last shift result bs = none := by
  induction bs generalizing shift result with
  | nil => rfl
  | cons b bs ih =>
    by_cases hshift : shift ≤ last
    · rw [readVarint_high hshift (h b List.mem_cons_self)]
      exact ih fun b hb => h b (List.mem_cons_of_mem _ hb)
    · rw [readVarint, if_pos (by omega)]

end Read

theorem high_of_varint_cut (v : Nat) {bs cs : Bytes} (h : varint v = bs ++ cs) (hcs : cs ≠ []) :
    ∀ b ∈ bs, 128 ≤ b.toNat := by
  induction v using Nat.strongRecOn generalizing bs with
  | ind v ih =>
    cases bs with
    | nil => simp
    | cons b bs =>
      by_cases hsmall : v < 128
      · rw [varint_of_lt hsmall, List.cons_append] at h
        obtain ⟨-, h⟩ := List.cons.inj h
        exact absurd (List.append_eq_nil_iff.1 h.symm).2 hcs
      · rw [varint_of_le (by omega), List.cons_append] at h
        obtain ⟨hb, hrest⟩ := List.cons.inj h
        have hbyte : b.toNat = v % 128 + 128 := by rw [← hb, toNat_toUInt8 (by omega)]
        intro b' hb'
        rcases List.mem_cons.1 hb' with rfl | hb'
        · omega
        · exact ih (v / 128) (by omega) hrest b' hb'

end Dbms18
