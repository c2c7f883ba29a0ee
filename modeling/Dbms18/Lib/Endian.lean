import Mathlib.Data.Nat.ModEq
import Dbms18.Lib.Block

/-!
# Fixed-width numbers as bytes

`leBytes w n` are the `w` low bytes of `n`, least significant first, as a little-endian machine stores
it; `beBytes` is network order.
-/

namespace Dbms18

def leBytes : Nat → Nat → Bytes
  | 0, _ => []
  | w + 1, n => n.toUInt8 :: leBytes w (n / 256)

def beBytes (w n : Nat) : Bytes := (leBytes w n).reverse

def ofLE : Bytes → Nat
  | [] => 0
  | b :: bs => b.toNat + 256 * ofLE bs

def ofBE (bs : Bytes) : Nat := ofLE bs.reverse

@[simp] theorem length_leBytes (w n : Nat) : (leBytes w n).length = w := by
  induction w generalizing n with
  | zero => rfl
  | succ w ih => simp [leBytes, ih]

@[simp] theorem ofLE_leBytes (w n : Nat) : ofLE (leBytes w n) = n % 256 ^ w := by
  induction w generalizing n with
  | zero => simp [leBytes, ofLE, Nat.mod_one]
  | succ w ih =>
    have hbyte : n.toUInt8.toNat = n % 256 := UInt8.toNat_ofNat'
    rw [leBytes, ofLE, ih, hbyte, pow_succ', Nat.mod_mul]

@[simp] theorem length_beBytes (w n : Nat) : (beBytes w n).length = w := by simp [beBytes]

@[simp] theorem ofBE_beBytes (w n : Nat) : ofBE (beBytes w n) = n % 256 ^ w := by simp [ofBE, beBytes]

theorem ofLE_append (bs bs' : Bytes) : ofLE (bs ++ bs') = ofLE bs + 256 ^ bs.length * ofLE bs' := by
  induction bs with
  | nil => simp [ofLE]
  | cons b bs ih =>
    simp only [List.cons_append, ofLE, ih, List.length_cons, pow_succ']
    rw [Nat.mul_add, Nat.add_assoc, Nat.mul_assoc]

theorem ofLE_lt (bs : Bytes) : ofLE bs < 256 ^ bs.length := by
  induction bs with
  | nil => exact Nat.one_pos
  | cons b bs ih =>
    have hb : b.toNat < 256 := b.toNat_lt
    rw [ofLE, List.length_cons, pow_succ']
    omega

theorem ofBE_lt (bs : Bytes) : ofBE bs < 256 ^ bs.length := by
  rw [← List.length_reverse]
  exact ofLE_lt bs.reverse

theorem leBytes_ofLE (bs : Bytes) : leBytes bs.length (ofLE bs) = bs := by
  induction bs with
  | nil => rfl
  | cons b bs ih =>
    have hb : b.toNat < 256 := b.toNat_lt
    have hlow : (b.toNat + 256 * ofLE bs).toUInt8 = b := by
      rw [← UInt8.toNat_inj]
      change (b.toNat + 256 * ofLE bs) % 256 = b.toNat
      omega
    have hhigh : (b.toNat + 256 * ofLE bs) / 256 = ofLE bs := by omega
    rw [ofLE, List.length_cons, leBytes, hlow, hhigh, ih]

theorem beBytes_ofBE (bs : Bytes) : beBytes bs.length (ofBE bs) = bs := by
  rw [beBytes, ofBE, ← List.length_reverse, leBytes_ofLE, List.reverse_reverse]

end Dbms18
