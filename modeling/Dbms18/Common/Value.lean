import Dbms18.Common.Relation
import Dbms18.Lib.Double

/-!
# Column values

What the bytes of a tuple stand for. A row is the list of its column values; `RawTuple.Holds` says that
every slot of a tuple refers to the bytes of the row's value in that column.
-/

namespace Dbms18

/-- A value of a column. A FLOAT is given by its bits, a DATE by its number. -/
inductive Value
  | integer (value : Int64)
  | float (bits : UInt64)
  | date (value : Int64)
  | varchar (value : Bytes)
deriving DecidableEq

abbrev Row := List Value

namespace Value

def dataType : Value → DataType
  | integer _ => .integer
  | float _ => .float
  | date _ => .date
  | varchar _ => .varchar

def bytes : Value → Bytes
  | integer value => leBytes 8 value.toUInt64.toNat
  | float bits => leBytes 8 bits.toNat
  | date value => leBytes 8 value.toUInt64.toNat
  | varchar value => value

/-- How two values of one type compare; `none` if there is no comparison for the type. -/
def compare : Value → Value → Option Ordering
  | integer a, integer b => some (Ord.compare a b)
  | float a, float b => Double.compare a b
  | varchar a, varchar b => some (Ord.compare a b)
  | _, _ => none

end Value

def DataType.comparable : DataType → Bool
  | .integer | .float | .varchar => true
  | _ => false

def Row.Typed (row : Row) (r : Relation) : Prop := row.map Value.dataType = r.attributes.map Attribute.dataType

/-- The slots of the tuple refer to the values of the row. -/
def RawTuple.Holds (t : RawTuple) (row : Row) : Prop :=
  ∀ j v, row[j]? = some v → ∃ offset length, t.slotOffset j = .ok offset ∧ t.slotLength j = .ok length ∧
    length.toNat = v.bytes.length ∧ t.getValue offset.toNat v.bytes.length = .ok v.bytes

/-- A row as it is stored: the record, and the values that the record stands for. -/
structure StoredRow where
  record : Bytes
  values : Row

def StoredRow.tuple (r : StoredRow) : RawTuple := Cells.ofBytes r.record

theorem Row.Typed.dataType {row : Row} {r : Relation} (h : row.Typed r) {j : Nat} {a : Attribute}
    (ha : r.attributes[j]? = some a) : ∃ v, row[j]? = some v ∧ v.dataType = a.dataType := by
  have hj : (row.map Value.dataType)[j]? = some a.dataType := by
    rw [h, List.getElem?_map, ha, Option.map_some]
  rw [List.getElem?_map, Option.map_eq_some_iff] at hj
  exact hj

end Dbms18
