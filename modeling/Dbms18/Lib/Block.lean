import Mathlib.Data.List.Basic
import Mathlib.Data.List.TakeDrop

/-!
# Blocks of memory

A block is the list of its bytes. `Block.write b off bs` is `memcpy` of `bs` to offset `off`,
`Block.read b off n` the `n` bytes at `off`; both are about accesses that stay inside the block.
-/

namespace Dbms18

open List

abbrev Bytes := List UInt8

instance : LawfulBEq Bytes := inferInstance

namespace Block

variable {α : Type*}

/-- The block after copying `bs` to offset `off`. -/
def write (b : List α) (off : Nat) (bs : List α) : List α :=
  b.take off ++ bs ++ b.drop (off + bs.length)

/-- The `n` elements at offset `off`. -/
def read (b : List α) (off n : Nat) : List α :=
  (b.drop off).take n

theorem length_write {b bs : List α} {off : Nat} (h : off + bs.length ≤ b.length) :
    (write b off bs).length = b.length := by
  simp only [write, length_append, length_take, length_drop]
  omega

theorem read_write_self {b bs : List α} {off : Nat} (h : off + bs.length ≤ b.length) :
    read (write b off bs) off bs.length = bs := by
  have hoff : (b.take off).length = off := length_take_of_le (by omega)
  rw [read, write, append_assoc, drop_left' hoff]
  exact take_left

theorem read_write_of_disjoint {b bs : List α} {off o n : Nat} (h : off + bs.length ≤ b.length)
    (hdisj : o + n ≤ off ∨ off + bs.length ≤ o) : read (write b off bs) o n = read b o n := by
  apply ext_getElem?
  intro i
  simp only [read, write, getElem?_take, getElem?_drop]
  split
  · rw [append_assoc]
    rcases hdisj with hlt | hge
    · rw [getElem?_append_left (by simp; omega), getElem?_take_of_lt (by omega)]
    · rw [getElem?_append_right (by simp; omega), getElem?_append_right (by simp; omega)]
      simp
      congr 1
      omega
  · rfl

end Block

end Dbms18
