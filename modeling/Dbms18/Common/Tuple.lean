import Dbms18.Lib.Endian
import Dbms18.Lib.Memory

/-!
# Tuples (`include/common/tuple.h`, `include/common/slot.h`, `include/common/tuple_row.h`)

A tuple is a block of memory that starts with an array of slots. A slot is two 16-bit numbers: where
in the tuple the value of a column starts, and how many bytes it has.
-/

namespace Dbms18

abbrev RawTuple := Cells

def sizeofSlot : Nat := 4

namespace RawTuple

def createTuple (n : Nat) : RawTuple := Cells.alloc n

/-- The `n` bytes at `GetValue(offset)`. -/
def getValue (t : RawTuple) (offset n : Nat) : Res Bytes := Cells.load t offset n

def getInteger (t : RawTuple) (offset : Nat) : Res UInt64 := do
  return (ofLE (← t.getValue offset 8)).toUInt64

/-- `GetDouble`; the number is given by its bits. -/
def getDouble (t : RawTuple) (offset : Nat) : Res UInt64 := do
  return (ofLE (← t.getValue offset 8)).toUInt64

def setValue (t : RawTuple) (offset : Nat) (data : Bytes) : Res RawTuple := Cells.store t offset data

/-- `GetSlot(nth)->offset_`. -/
def slotOffset (t : RawTuple) (nth : Nat) : Res UInt16 := do
  return (ofLE (← Cells.load t (sizeofSlot * nth) 2)).toUInt16

/-- `GetSlot(nth)->length_`. -/
def slotLength (t : RawTuple) (nth : Nat) : Res UInt16 := do
  return (ofLE (← Cells.load t (sizeofSlot * nth + 2) 2)).toUInt16

/-- The assignments `slot->offset_ = offset; slot->length_ = length;` to the `nth` slot. -/
def setSlot (t : RawTuple) (nth offset length : Nat) : Res RawTuple := do
  let t ← Cells.store t (sizeofSlot * nth) (leBytes 2 offset)
  Cells.store t (sizeofSlot * nth + 2) (leBytes 2 length)

variable {t : RawTuple} {offset n : Nat}

theorem toUInt64_mod (n : Nat) : (n % 256 ^ 8).toUInt64 = n.toUInt64 :=
  UInt64.toNat_inj.1 (by simp)

theorem toUInt16_mod (n : Nat) : (n % 256 ^ 2).toUInt16 = n.toUInt16 :=
  UInt16.toNat_inj.1 (by simp)

theorem getInteger_of_load (h : Cells.load t offset 8 = .ok (leBytes 8 n)) :
    t.getInteger offset = .ok n.toUInt64 := by
  simp only [getInteger, getValue, h, Res.ok_bind, ofLE_leBytes, toUInt64_mod]
  rfl

theorem getDouble_of_load (h : Cells.load t offset 8 = .ok (leBytes 8 n)) : t.getDouble offset = .ok n.toUInt64 :=
  getInteger_of_load h

theorem slotOffset_of_load (nth : Nat) (h : Cells.load t (sizeofSlot * nth) 2 = .ok (leBytes 2 n)) :
    t.slotOffset nth = .ok n.toUInt16 := by
  simp only [slotOffset, h, Res.ok_bind, ofLE_leBytes, toUInt16_mod]
  rfl

theorem slotLength_of_load (nth : Nat) (h : Cells.load t (sizeofSlot * nth + 2) 2 = .ok (leBytes 2 n)) :
    t.slotLength nth = .ok n.toUInt16 := by
  simp only [slotLength, h, Res.ok_bind, ofLE_leBytes, toUInt16_mod]
  rfl

theorem toNat_toUInt16 (h : n < 65536) : n.toUInt16.toNat = n := by
  simpa using h

end RawTuple

/-- `TupleRow`: the tuples of a row, one position per table of the query; a position holds a null
pointer until it is set. -/
abbrev TupleRow := List (Option RawTuple)

namespace TupleRow

def new (n : Nat) : TupleRow := List.replicate n none

def copyTo (row dest : TupleRow) : TupleRow :=
  if row.length ≤ dest.length then row ++ dest.drop row.length else dest

def setTuple (row : TupleRow) (n : Nat) (t : RawTuple) : Res TupleRow := do
  Res.check (n < row.length) .outOfBounds
  return row.set n (some t)

/-- `GetTuple(n)`, dereferenced. -/
def getTuple (row : TupleRow) (n : Nat) : Res RawTuple := do
  let p ← Res.getD row[n]? .outOfBounds
  Res.getD p .nullPointer

@[simp] theorem length_new (n : Nat) : (new n).length = n := List.length_replicate

theorem getTuple_set_self {row : TupleRow} {n : Nat} (h : n < row.length) (t : RawTuple) :
    getTuple (row.set n (some t)) n = .ok t := by
  simp [getTuple, h]

end TupleRow

end Dbms18
