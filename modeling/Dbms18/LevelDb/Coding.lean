import Dbms18.Lib.Fault
import Dbms18.Lib.Varint

/-!
# Numbers and strings in leveldb's files (`util/coding.cc`, `util/coding.h`)

Fixed-width numbers are little-endian, the others are varints, and a string has its length before it.
`PutVarint32` writes its number with the five cases spelled out where `PutVarint64` runs a loop;
`encodeVarint32_eq` says that the bytes are the same.

A slice that is parsed is the list of its bytes, and a parser is a `Decoder`: what it leaves is the rest of
the slice, and no result is the `false` or the null pointer of the source.
-/

namespace Dbms18.LevelDb

/-! ## Writing -/

def encodeFixed32 (value : Nat) : Bytes := leBytes 4 value

def encodeFixed64 (value : Nat) : Bytes := leBytes 8 value

def putFixed32 (dst : Bytes) (value : Nat) : Bytes := dst ++ encodeFixed32 value

def putFixed64 (dst : Bytes) (value : Nat) : Bytes := dst ++ encodeFixed64 value

def encodeVarint32 (v : Nat) : Bytes :=
  if v < 1 <<< 7 then
    [v.toUInt8]
  else if v < 1 <<< 14 then
    [(v ||| 128).toUInt8, (v >>> 7).toUInt8]
  else if v < 1 <<< 21 then
    [(v ||| 128).toUInt8, (v >>> 7 ||| 128).toUInt8, (v >>> 14).toUInt8]
  else if v < 1 <<< 28 then
    [(v ||| 128).toUInt8, (v >>> 7 ||| 128).toUInt8, (v >>> 14 ||| 128).toUInt8, (v >>> 21).toUInt8]
  else
    [(v ||| 128).toUInt8, (v >>> 7 ||| 128).toUInt8, (v >>> 14 ||| 128).toUInt8, (v >>> 21 ||| 128).toUInt8,
      (v >>> 28).toUInt8]

def encodeVarint64 (v : Nat) : Bytes :=
  if 128 ≤ v then ((v &&& 127) ||| 128).toUInt8 :: encodeVarint64 (v >>> 7) else [v.toUInt8]
termination_by v
decreasing_by
  rw [Nat.shiftRight_eq_div_pow]
  omega

/-- `PutVarint32`; a larger number is converted to `uint32_t` first. -/
def putVarint32 (dst : Bytes) (v : Nat) : Bytes := dst ++ encodeVarint32 (v % 2 ^ 32)

def putVarint64 (dst : Bytes) (v : Nat) : Bytes := dst ++ encodeVarint64 v

def putLengthPrefixedSlice (dst value : Bytes) : Bytes := putVarint32 dst value.length ++ value

def varintLength (v : Nat) : Nat := if 128 ≤ v then varintLength (v >>> 7) + 1 else 1
termination_by v
decreasing_by
  rw [Nat.shiftRight_eq_div_pow]
  omega

/-! ## Reading -/

def decodeFixed32 (ptr : Bytes) : Res Nat := do
  Res.check (4 ≤ ptr.length) .outOfBounds
  return ofLE (ptr.take 4)

def decodeFixed64 (ptr : Bytes) : Res Nat := do
  Res.check (8 ≤ ptr.length) .outOfBounds
  return ofLE (ptr.take 8)

def getVarint32PtrFallback : Decoder Nat := readVarint 32 28 0 0

/-- `GetVarint32Ptr`, with its short way for numbers of one byte. -/
def getVarint32Ptr : Decoder Nat := fun p =>
  match p with
  | [] => getVarint32PtrFallback p
  | result :: rest => if result.toNat &&& 128 = 0 then some (result.toNat, rest) else getVarint32PtrFallback p

def getVarint32 : Decoder Nat := getVarint32Ptr

def getVarint64Ptr : Decoder Nat := readVarint 64 63 0 0

def getVarint64 : Decoder Nat := getVarint64Ptr

def getLengthPrefixedSlice : Decoder Bytes := do
  let len ← getVarint32
  Decoder.bytes len

/-! ## What is written is read back -/

theorem or_128_toUInt8 (v : Nat) : (v ||| 128).toUInt8 = (v % 128 + 128).toUInt8 := by
  rw [← UInt8.toNat_inj]
  change (v ||| 128) % 256 = (v % 128 + 128) % 256
  have hmod : (v ||| 128) % 256 = v % 256 ||| 128 := Nat.or_mod_two_pow (n := 8)
  have hbits : ∀ c : Fin 256, c.val ||| 128 = c.val % 128 + 128 := by decide +kernel
  have hlow : v % 256 ||| 128 = v % 256 % 128 + 128 := hbits ⟨v % 256, Nat.mod_lt _ (by decide)⟩
  omega

theorem shiftRight_seven (v : Nat) : v >>> 7 = v / 128 := Nat.shiftRight_eq_div_pow v 7

theorem encodeVarint64_eq (v : Nat) : encodeVarint64 v = varint v := by
  induction v using Nat.strongRecOn with
  | ind v ih =>
    rw [encodeVarint64]
    split
    · next hle =>
      rw [varint_of_le hle, and_127, or_128_toUInt8, Nat.mod_mod, shiftRight_seven, ih (v / 128) (by omega)]
    · next hlt => rw [varint_of_lt (by omega)]

theorem encodeVarint32_eq {v : Nat} (h : v < 2 ^ 32) : encodeVarint32 v = varint v := by
  have hshift : ∀ n, v >>> n / 128 = v >>> (n + 7) := fun n => by
    rw [Nat.shiftRight_add, shiftRight_seven]
  have hbound : ∀ {n}, v >>> n < 128 ↔ v < 2 ^ (n + 7) := fun {n} => by
    rw [Nat.shiftRight_eq_div_pow, Nat.div_lt_iff_lt_mul (Nat.two_pow_pos n), pow_add, Nat.mul_comm]
    rfl
  have hnext : ∀ n, ¬ v < 2 ^ (n + 7) → varint (v >>> n) = (v >>> n ||| 128).toUInt8 :: varint (v >>> (n + 7)) := by
    intro n hn
    rw [varint_of_le (by rw [← hbound] at hn; omega), or_128_toUInt8, hshift]
  have hlast : ∀ n, v < 2 ^ (n + 7) → varint (v >>> n) = [(v >>> n).toUInt8] := fun n hn => varint_of_lt (hbound.2 hn)
  have hzero : varint v = varint (v >>> 0) := rfl
  rw [hzero]
  unfold encodeVarint32
  split
  · next h7 => exact (hlast 0 h7).symm
  split
  · next h7 h14 => rw [hnext 0 h7, hlast 7 h14]; rfl
  split
  · next h7 h14 h21 => rw [hnext 0 h7, hnext 7 h14, hlast 14 h21]; rfl
  split
  · next h7 h14 h21 h28 => rw [hnext 0 h7, hnext 7 h14, hnext 14 h21, hlast 21 h28]; rfl
  · next h7 h14 h21 h28 =>
    rw [hnext 0 h7, hnext 7 h14, hnext 14 h21, hnext 21 h28, hlast 28 (Nat.lt_trans h (by decide))]; rfl

theorem putVarint32_eq (dst : Bytes) {v : Nat} (h : v < 2 ^ 32) : putVarint32 dst v = dst ++ varint v := by
  rw [putVarint32, Nat.mod_eq_of_lt h, encodeVarint32_eq h]

theorem varintLength_eq (v : Nat) : varintLength v = (varint v).length := by
  induction v using Nat.strongRecOn with
  | ind v ih =>
    rw [varintLength]
    split
    · next hle => rw [varint_of_le hle, shiftRight_seven, ih (v / 128) (by omega), List.length_cons]
    · next hlt => rw [varint_of_lt (by omega), List.length_singleton]

theorem getVarint32Ptr_eq : getVarint32Ptr = getVarint32PtrFallback := by
  funext p
  cases p with
  | nil => rfl
  | cons result rest =>
    rw [getVarint32Ptr]
    split
    · next hbit =>
      have hlow := (and_128_eq_zero_iff result.toNat_lt).1 hbit
      have hread : readVarint 32 28 0 0 (result :: rest) = _ := readVarint_low (Nat.zero_le 28) hlow
      rw [getVarint32PtrFallback, hread, or_group (by decide) (by omega)]
      simp
    · rfl

theorem reads_getVarint32 {v : Nat} (h : v < 2 ^ 32) : getVarint32.Reads (varint v) v := by
  intro rest
  have hread : readVarint 32 28 0 0 (varint v ++ rest) = _ :=
    readVarint_varint 4 rfl (Nat.lt_trans h (by decide)) (by decide) (by omega)
  rw [Nat.zero_add, pow_zero, Nat.mul_one] at hread
  rw [getVarint32, getVarint32Ptr_eq]
  exact hread

theorem reads_getVarint64 {v : Nat} (h : v < 2 ^ 64) : getVarint64.Reads (varint v) v := by
  intro rest
  have hread : readVarint 64 63 0 0 (varint v ++ rest) = _ :=
    readVarint_varint 9 rfl (Nat.lt_trans h (by decide)) (by decide) (by omega)
  rw [Nat.zero_add, pow_zero, Nat.mul_one] at hread
  exact hread

def lengthPrefixed (value : Bytes) : Bytes := varint value.length ++ value

theorem putLengthPrefixedSlice_eq (dst : Bytes) {value : Bytes} (h : value.length < 2 ^ 32) :
    putLengthPrefixedSlice dst value = dst ++ lengthPrefixed value := by
  rw [putLengthPrefixedSlice, putVarint32_eq dst h, List.append_assoc, lengthPrefixed]

theorem reads_getLengthPrefixedSlice {value : Bytes} (h : value.length < 2 ^ 32) :
    getLengthPrefixedSlice.Reads (lengthPrefixed value) value :=
  (reads_getVarint32 h).bind (Decoder.reads_bytes value)

/-! ## Cut input -/

theorem getVarint32_cut {v : Nat} {bs cs : Bytes} (h : varint v = bs ++ cs) (hcs : cs ≠ []) : getVarint32.run bs = none := by
  rw [getVarint32, getVarint32Ptr_eq]
  exact readVarint_of_high (high_of_varint_cut v h hcs)

theorem getLengthPrefixedSlice_cut {value bs cs : Bytes} (hlen : value.length < 2 ^ 32)
    (h : lengthPrefixed value = bs ++ cs) (hcs : cs ≠ []) : getLengthPrefixedSlice.run bs = none := by
  rw [getLengthPrefixedSlice, StateT.run_bind]
  rcases List.append_eq_append_iff.1 h with ⟨as, rfl, hvalue⟩ | ⟨as, hvarint, rfl⟩
  · -- the length is there, the string is not
    have hshort : ¬ value.length ≤ as.length := by
      have := List.length_pos_of_ne_nil hcs
      rw [hvalue, List.length_append]
      omega
    rw [reads_getVarint32 hlen as]
    change Decoder.bytes value.length as = none
    rw [Decoder.bytes, if_neg hshort]
  · cases as with
    | nil =>
      have hshort : ¬ value.length ≤ ([] : Bytes).length := by simpa [List.length_pos_iff] using hcs
      have hread := reads_getVarint32 hlen []
      rw [List.append_nil] at hvarint hread
      rw [hvarint] at hread
      rw [hread]
      change Decoder.bytes value.length [] = none
      rw [Decoder.bytes, if_neg hshort]
    | cons a as =>
      rw [getVarint32_cut hvarint (List.cons_ne_nil _ _)]
      rfl

end Dbms18.LevelDb
