import Dbms18.Common.RowDesc
import Dbms18.Parser.Ast
import Dbms18.Executor.SeqScan
import Dbms18.Storage.Catalog

/-!
# INSERT (`QueryRealizer::ExecInsert`, `executor/insert_value.cpp`)

The tuple is built in a block of 8192 bytes that is not initialised. A column that the statement names gets
its value at `off`, but neither its slot is set nor is `off` moved; that is done for the other columns.
-/

namespace Dbms18

namespace ConstValue

def getIntegerValue : ConstValue → Int64
  | integer value => value
  | varchar _ => 0

def getStringValue : ConstValue → Bytes
  | varchar value => value
  | integer _ => []

end ConstValue

/-- What an insert gets from outside: the key of the record, the outcome of the write and what the block
from `malloc` holds. -/
structure InsertHost where
  uuid : Bytes
  status : WriteStatus
  block : Bytes
  length_block : block.length = 8192

namespace InsertValue

/-- The bytes that are copied for a column; `none` if nothing is copied. -/
def columnValue (type : DataType) (value : Option ConstValue) : Option Bytes :=
  match type with
  | .integer => some (leBytes 8 ((value.map ConstValue.getIntegerValue).getD 0).toUInt64.toNat)
  | .float => some (leBytes 8 0)
  | .varchar => some ((value.map ConstValue.getStringValue).getD [])
  | _ => none

def setColumn (name2val : List (Bytes × ConstValue)) (acc : RawTuple × Nat) (attr : Attribute × Nat) :
    Res (RawTuple × Nat) := do
  let (tuple, off) := acc
  let value := name2val.lookup attr.1.name
  let bytes := columnValue attr.1.dataType value
  let tuple ← (match bytes with
    | some bytes => tuple.setValue off bytes
    | none => .ok tuple)
  match value with
  | some _ => return (tuple, off)
  | none =>
    let length := (bytes.getD []).length
    return (← tuple.setSlot attr.2 off length, off + length)

/-- `name2val`, in the order of insertion: the first value for a name stays. -/
def nameValues (stmt : InsertStmt) (relation : Relation) : Res (List (Bytes × ConstValue)) :=
  if stmt.valueList = [] then do
    Res.check (stmt.valueList.length = relation.attributes.length) .assertion
    return []
  else stmt.valueList.zipIdx.mapM fun value => do
    return (← Res.getD stmt.optColumnNameList[value.2]? .outOfBounds, value.1)

def makeTuple (host : InsertHost) (stmt : InsertStmt) (relation : Relation) : Res (RawTuple × Nat) := do
  let name2val ← nameValues stmt relation
  relation.attributes.zipIdx.foldlM (setColumn name2val)
    (Cells.ofBytes host.block, sizeofSlot * relation.attributes.length)

/-- `InsertValue::Exec`. -/
def exec (host : InsertHost) (handler : Nat) (tuple : RawTuple) (size : Nat) (s : LevelStore) :
    Res (State × Bytes × LevelStore) := do
  let s ← s.put handler host.uuid (← tuple.getValue 0 size)
  let (ok, s) ← s.commit handler host.status
  return if ok then (.ok, ascii "insert 1 row", s) else (.insertFailed, ascii "insert failed", s)

/-- `ExecInsert`: the state, the message, and the handler that it puts into `all_iter_`. The message stays
that of the parser, which is empty, if there is no relation. -/
def run (host : InsertHost) (stmt : InsertStmt) (catalog : Catalog) (s : LevelStore) :
    Res (State × Bytes × List Nat × LevelStore) :=
  match catalog.getRelation stmt.tableName with
  | none => .ok (.relationNotFound, [], [], s)
  | some relation => do
    let (tuple, off) ← makeTuple host stmt relation
    let (handler, s) ← s.newWriteHandler relation.id
    let (state, message, s) ← exec host handler tuple off s
    return (state, message, [handler], s)

end InsertValue

end Dbms18
