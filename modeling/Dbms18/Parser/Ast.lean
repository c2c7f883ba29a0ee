import Dbms18.Common.Relation

/-!
# The parse tree of a query (`include/parser/*.h`)

The expressions and the FROM, WHERE, GROUP BY and ORDER BY clauses that the parser hands to the
realizer. A node that another node points to may be missing (`NOT e` has no second operand, a natural
join no predicate); `ExpressionBase.null` stands for the null pointer.
-/

namespace Dbms18

/-- `OperatorType` (`include/common/define.h`), the marks between its groups included. -/
inductive OperatorType
  | invalid
  | assign
  | booleanBegin
  | compareBegin
  | equal
  | less
  | greater
  | lessOrEqual
  | greaterOrEqual
  | compareEnd
  | logicBegin
  | and
  | or
  | xor
  | not
  | logicEnd
  | booleanEnd
  | arithmeticBegin
  | arithmeticEnd
deriving DecidableEq, Repr

def isCompareOperator (op : OperatorType) : Bool :=
  OperatorType.compareBegin.ctorIdx < op.ctorIdx ∧ op.ctorIdx < OperatorType.compareEnd.ctorIdx

def isLogicOperator (op : OperatorType) : Bool :=
  OperatorType.logicBegin.ctorIdx < op.ctorIdx ∧ op.ctorIdx < OperatorType.logicEnd.ctorIdx

inductive JoinType
  | leftOutter
  | rightOutter
  | fullOutter
  | inner
  | cross
deriving DecidableEq, Repr

/-- A column reference. The realizer keeps what it knows about one under the node's address, so two
references with the same names are still two nodes. -/
structure ColumnReference where
  address : Nat
  tableName : Bytes
  columnName : Bytes
deriving DecidableEq, Repr

inductive ConstValue
  | varchar (value : Bytes)
  | integer (value : Int64)
deriving DecidableEq

inductive ExpressionBase
  | null
  | columnReference (ref : ColumnReference)
  | constValue (value : ConstValue)
  | operation (op : OperatorType) (left right : ExpressionBase)
deriving DecidableEq

structure TableReference where
  tableName : Bytes := []
  aliasName : Bytes := []
deriving DecidableEq, Repr

namespace TableReference

/-- `SetAliasName`. It assigns `table_name_`, and nothing assigns `alias_name_`. -/
def setAliasName (r : TableReference) (aliasName : Bytes) : TableReference := { r with tableName := aliasName }

/-- The name a query knows the table by. -/
def name (r : TableReference) : Bytes := if r.aliasName ≠ [] then r.aliasName else r.tableName

end TableReference

/-- `ParserContext::NewTableReference`. The constructor does not store the table name, and the alias
that is set is the table name again. -/
def newTableReference (tableName _asName : Bytes) : TableReference :=
  TableReference.setAliasName {} tableName

inductive TableFactor
  | tableReference (ref : TableReference)
  | joinClause (left right : TableFactor) (predicate : ExpressionBase) (type : JoinType)
  | subQuery
deriving DecidableEq

/-- Of a select target and of an order clause only the expression matters here. -/
structure SelectStmt where
  selectList : List ExpressionBase
  tableReference : List TableFactor
  optWhere : List ExpressionBase
  optGroupBy : List ExpressionBase
  optOrderBy : List ExpressionBase

structure ColumnDefine where
  columnName : Bytes
  columnType : DataType
  dataLength : Int32
  isPrimaryKey : Bool := false
deriving DecidableEq

structure CreateStmt where
  tableName : Bytes
  columnDefineList : List ColumnDefine
deriving DecidableEq

/-- `COPY table FROM`. -/
structure LoadStmt where
  tableName : Bytes
  filePath : Bytes
  isFromStdin : Bool
  delimiter : UInt8
deriving DecidableEq

/-- `COPY table TO`. -/
structure ExportStmt where
  tableName : Bytes
  filePath : Bytes
  isToStdout : Bool
deriving DecidableEq

structure InsertStmt where
  tableName : Bytes
  optColumnNameList : List Bytes
  valueList : List ConstValue
deriving DecidableEq

inductive ParseTree
  | selectStmt (stmt : SelectStmt)
  | createStmt (stmt : CreateStmt)
  | copyFromStmt (stmt : LoadStmt)
  | copyToStmt (stmt : ExportStmt)
  | insertStmt (stmt : InsertStmt)
  | other

/-! ## The tables of a FROM clause and the columns of an expression -/

def TableFactor.references : TableFactor → List TableReference
  | tableReference ref => [ref]
  | joinClause left right _ _ => left.references ++ right.references
  | subQuery => []

def ExpressionBase.columns : ExpressionBase → List ColumnReference
  | columnReference ref => [ref]
  | operation _ left right => left.columns ++ right.columns
  | _ => []

def TableFactor.columns : TableFactor → List ColumnReference
  | joinClause left right predicate _ => left.columns ++ (right.columns ++ predicate.columns)
  | _ => []

/-- `t₁ JOIN t₂ ON p₁ JOIN t₃ ON p₂ …` -/
def TableFactor.chain (first : TableReference) (joins : List (TableReference × ExpressionBase)) : TableFactor :=
  joins.foldl (fun left j => joinClause left (tableReference j.1) j.2 .inner) (tableReference first)

end Dbms18
