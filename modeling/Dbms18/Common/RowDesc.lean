import Dbms18.Common.Relation

/-!
# Row descriptions (`include/common/row_desc.h`)

`ToDesc` leaves the relation id of a column unset.
-/

namespace Dbms18

structure ColumnDesc where
  columnName : Bytes
  dataType : DataType
  dataTypeSize : Int16
  attributeId : AttributeId
  relationId : Option RelationId := none
deriving DecidableEq

abbrev RowDesc := List ColumnDesc

def RowDesc.getColumnDesc (desc : RowDesc) (n : Nat) : Res ColumnDesc := Res.getD desc[n]? .outOfBounds

namespace Relation

def columnDesc (a : Attribute) : ColumnDesc where
  columnName := a.name
  dataType := a.dataType
  dataTypeSize := a.maxLength.toUInt16.toInt16
  attributeId := a.id

def toDesc (r : Relation) : RowDesc := r.attributes.map columnDesc

/-- The position of the first attribute with this name; `none` for the -1 of the source. -/
def getAttributeIndex (r : Relation) (name : Bytes) : Option Nat := r.attributes.findIdx? (·.name = name)

def getAttribute (r : Relation) (n : Nat) : Res Attribute := Res.getD r.attributes[n]? .outOfBounds

theorem map_dataType_toDesc (r : Relation) :
    r.toDesc.map ColumnDesc.dataType = r.attributes.map Attribute.dataType := by
  rw [toDesc, List.map_map]
  rfl

theorem length_toDesc (r : Relation) : r.toDesc.length = r.attributes.length := List.length_map ..

theorem getElem?_toDesc (r : Relation) (n : Nat) : r.toDesc[n]? = r.attributes[n]?.map columnDesc :=
  List.getElem?_map

end Relation

end Dbms18
