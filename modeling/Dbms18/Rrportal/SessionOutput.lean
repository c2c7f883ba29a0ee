import Dbms18.Common.RowDesc
import Dbms18.Common.Value
import Dbms18.Lib.Text

/-!
# The rows a session sends (`rrportal/session.cpp`)

`SendRowDescription` describes the columns of a result and `SendRowData` renders the first tuple of a
row as a DataRow message. `write_msg_` is here the list of the bytes put into it: the message id, four
bytes for the length, and what has been appended.
-/

namespace Dbms18

/-- The messages that a session sends while it processes a query, with what each is built from. -/
inductive BackendMsg
  | rowDescription (desc : RowDesc)
  | dataRow (bytes : Bytes)
  | copyInResponse (columns : Nat)
  | copyOutResponse (columns : Nat)
  | copyData (payload : Bytes)
  | copyDone
  | commandComplete (text : Bytes)
  | errorResponse (text : Bytes)
  | readyForQuery (status : UInt8)
deriving DecidableEq

namespace Session

/-- A message from `BackendMsgBegin` to `BackendMsgEnd`: its length counts everything but the id. -/
def backendMsg (msgId : UInt8) (body : Bytes) : Bytes := msgId :: (beBytes 4 (4 + body.length) ++ body)

/-- `ROW_DESCRIPTION`, the letter T. -/
def rowDescriptionId : UInt8 := 0x54

/-- The bytes of a string up to its first zero byte, and that byte. -/
def cString (s : Bytes) : Bytes := s.takeWhile (· ≠ 0) ++ [0]

/-- One pass of the loop in `SendRowDescription`. -/
def describeColumn (rowDesc : RowDesc) (i : Nat) : Res Bytes := do
  let colDesc ← rowDesc.getColumnDesc i
  let relationId ← Res.getD colDesc.relationId .uninitialized
  return cString colDesc.columnName ++ (beBytes 4 relationId.toNat ++ (beBytes 2 colDesc.attributeId.toNat ++
    (beBytes 4 colDesc.dataType.code ++ (beBytes 2 colDesc.dataTypeSize.toUInt16.toNat ++
    (beBytes 4 (2 ^ 32 - 1) ++ beBytes 2 0)))))

def sendRowDescription (rowDesc : RowDesc) : Res Bytes := do
  let columnsCount := Int16.ofNat rowDesc.length
  let columns ← (List.range columnsCount.toNatClampNeg).mapM (describeColumn rowDesc)
  return backendMsg rowDescriptionId (beBytes 2 columnsCount.toUInt16.toNat ++ columns.flatten)

/-- `DATA_ROW`, the letter D. -/
def dataRowId : UInt8 := 0x44

/-- The `switch` of `SendRowData`: the text of a column. -/
def columnText (type : DataType) (tuple : RawTuple) (off len : UInt16) : Res Bytes :=
  match type with
  | .integer | .date => do return decimal (← tuple.getInteger off.toNat).toInt64.toInt
  | .varchar => tuple.getValue off.toNat len.toNat
  | _ => .ok []

/-- One pass of the loop in `SendRowData`. -/
def sendColumn (tupleRow : TupleRow) (rowDesc : RowDesc) (i : Nat) : Res Bytes := do
  let colDesc ← rowDesc.getColumnDesc i
  let tuple ← tupleRow.getTuple 0
  let off ← tuple.slotOffset i
  let len ← tuple.slotLength i
  let value ← columnText colDesc.dataType tuple off len
  return beBytes 4 value.length ++ value

def sendRowData (tupleRow : TupleRow) (rowDesc : RowDesc) : Res Bytes := do
  let number := rowDesc.length.toUInt16
  let columns ← (List.range number.toNat).mapM (sendColumn tupleRow rowDesc)
  return backendMsg dataRowId (beBytes 2 number.toNat ++ columns.flatten)

end Session

/-! ## What is sent -/

/-- The text of a value in a DataRow. FLOAT values are not rendered. -/
def Value.text : Value → Bytes
  | integer value => decimal value.toInt
  | float _ => []
  | date value => decimal value.toInt
  | varchar value => value

def dataRow (fields : List Bytes) : Bytes :=
  Session.backendMsg Session.dataRowId (beBytes 2 fields.length ++ fields.flatMap fun f => beBytes 4 f.length ++ f)

namespace Session

variable {t : RawTuple}

theorem toInt64_getInteger {offset : Nat} {v : Int64} (h : t.getValue offset 8 = .ok (leBytes 8 v.toUInt64.toNat)) :
    t.getInteger offset = .ok v.toUInt64 := by
  have hback : v.toUInt64.toNat.toUInt64 = v.toUInt64 := UInt64.ofNat_toNat
  rw [RawTuple.getInteger_of_load h, hback]

theorem columnText_eq {offset length : UInt16} {v : Value} (hlen : length.toNat = v.bytes.length)
    (hvalue : t.getValue offset.toNat v.bytes.length = .ok v.bytes) :
    columnText v.dataType t offset length = .ok v.text := by
  cases v with
  | integer value | date value =>
    have hread : t.getValue offset.toNat 8 = .ok (leBytes 8 value.toUInt64.toNat) := by
      simpa [Value.bytes] using hvalue
    simp [columnText, Value.dataType, toInt64_getInteger hread, Value.text]
  | float bits => rfl
  | varchar value =>
    rw [← hlen] at hvalue
    exact hvalue

theorem sendRowData_take {tupleRow : TupleRow} {row : Row} {desc : RowDesc}
    (ht : tupleRow.getTuple 0 = .ok t) (hholds : t.Holds row) (htypes : row.map Value.dataType = desc.map ColumnDesc.dataType) :
    sendRowData tupleRow desc = .ok (dataRow ((row.take (row.length % 65536)).map Value.text)) := by
  have hlen : desc.length = row.length := by simpa using (congrArg List.length htypes).symm
  have hnumber : desc.length.toUInt16.toNat = row.length % 65536 := by
    rw [hlen]
    simp
  have hcount : (row.take (row.length % 65536)).length = row.length % 65536 := by simp [Nat.mod_le]
  have hcolumns : (List.range (row.length % 65536)).mapM (sendColumn tupleRow desc) =
      .ok ((row.take (row.length % 65536)).map fun v => beBytes 4 v.text.length ++ v.text) := by
    refine Res.mapM_eq_ok.2 (List.forall₂_iff_get.2 ⟨by simp [Nat.mod_le], fun i hi hi' => ?_⟩)
    have hlt : i < row.length := (by simpa using hi : i < row.length % 65536).trans_le (Nat.mod_le _ _)
    have hv : row[i]? = some row[i] := List.getElem?_eq_getElem hlt
    obtain ⟨offset, length, hoffset, hlength, hbytes, hvalue⟩ := hholds i row[i] hv
    have hdesc : desc[i]? = some desc[i] := List.getElem?_eq_getElem (hlen ▸ hlt)
    have htype : desc[i].dataType = row[i].dataType := by
      have hi := congrArg (·[i]?) htypes
      simpa [hv, hdesc] using hi.symm
    simp [sendColumn, RowDesc.getColumnDesc, hdesc, ht, hoffset, hlength, htype, columnText_eq hbytes hvalue]
  simp only [sendRowData, hnumber, hcolumns, Res.ok_bind, dataRow, List.length_map, hcount, List.flatMap_map]
  rfl

theorem sendRowData_eq {tupleRow : TupleRow} {row : Row} {desc : RowDesc}
    (ht : tupleRow.getTuple 0 = .ok t) (hholds : t.Holds row)
    (htypes : row.map Value.dataType = desc.map ColumnDesc.dataType) (hcount : row.length < 65536) :
    sendRowData tupleRow desc = .ok (dataRow (row.map Value.text)) := by
  have hsend := sendRowData_take ht hholds htypes
  rwa [Nat.mod_eq_of_lt hcount, List.take_length] at hsend

end Session

end Dbms18
