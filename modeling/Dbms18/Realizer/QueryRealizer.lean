import Dbms18.Executor.Plan
import Dbms18.Rrportal.Reader
import Dbms18.Rrportal.SessionOutput
import Dbms18.Storage.Catalog

/-!
# Checking and building a SELECT (`realizer/query_realizer.cpp`)

`Check` walks the FROM clause and registers every table under its name with the next tuple index, then
resolves the column references of all clauses to slots. `Build` walks the FROM clause again, numbers
the tables anew by the number of row descriptions it has collected, and puts the executors together.
A failed assertion and the use of a null pointer are faults.
-/

namespace Dbms18

inductive ClauseType
  | select
  | whereClause
  | joinOn
  | orderBy
  | groupBy
  | having
deriving DecidableEq, Repr

structure QueryRealizer where
  catalog : Catalog
  storage : LevelStore
  message : Bytes := []
  name2relation : Std.ExtTreeMap Bytes Relation compare := ∅
  name2tupleIndex : Std.ExtTreeMap Bytes Nat compare := ∅
  name2slot : ColumnReference → Option SlotReference := fun _ => none
  allTupleDesc : List RowDesc := []
  projectionList : List ValueExpr := []
  outputRowDesc : RowDesc := []
  allIter : List Nat := []
  topExec : Option Plan := none
  /-- What has been sent through `output_`, and what it receives from. -/
  sent : List BackendMsg := []
  reader : Reader := .new []

namespace QueryRealizer

/-- A call followed by `if (state != kStateOK) return state;`. -/
def andThen (x : Res (State × QueryRealizer)) (f : QueryRealizer → Res (State × QueryRealizer)) :
    Res (State × QueryRealizer) := do
  let (state, q) ← x
  if state ≠ .ok then return (state, q)
  f q

/-- The loops of `Check`, which stop at the first state that is not `kStateOK`. -/
def checkAll {α : Type} (f : α → QueryRealizer → Res (State × QueryRealizer)) :
    List α → QueryRealizer → Res (State × QueryRealizer)
  | [], q => .ok (.ok, q)
  | a :: as, q => andThen (f a q) (checkAll f as)

/-! ## `Check` -/

/-- `name2slot_.insert`: an entry that exists stays. -/
def insertSlot (q : QueryRealizer) (ref : ColumnReference) (slot : SlotReference) : QueryRealizer :=
  if (q.name2slot ref).isSome then q
  else { q with name2slot := Function.update q.name2slot ref (some slot) }

/-- The part of `CheckExpressionBase` after a column has been found in the table `name`. -/
def bindColumn (q : QueryRealizer) (ref : ColumnReference) (type : ClauseType) (name : Bytes)
    (rel : Relation) (slotIndex : Nat) : Res (State × QueryRealizer) := do
  let tupleIndex ← Res.getD q.name2tupleIndex[name]? .assertion
  let attr ← rel.getAttribute slotIndex
  let q := q.insertSlot ref { tupleIndex, slotIndex, dataType := attr.dataType }
  Res.check (type ≠ .having) .assertion
  return (.ok, q)

/-- The tables that have the column, in the order of `name2relation_`. -/
def tablesWith (q : QueryRealizer) (columnName : Bytes) : List (Bytes × Relation × Nat) :=
  q.name2relation.toList.filterMap fun (name, rel) =>
    (rel.getAttributeIndex columnName).map fun i => (name, rel, i)

def checkColumnReference (q : QueryRealizer) (ref : ColumnReference) (type : ClauseType) :
    Res (State × QueryRealizer) :=
  if ref.tableName ≠ [] then
    match q.name2relation[ref.tableName]? with
    | none => .ok (.relationNotFound,
        { q with message := ascii "cannot find table name [" ++ ref.tableName ++ ascii "]" })
    | some rel =>
      match rel.getAttributeIndex ref.columnName with
      | none => .ok (.attributeNotFound,
          { q with message := ascii "cannot find attribute name [" ++ ref.columnName ++ ascii "]" })
      | some slotIndex => q.bindColumn ref type ref.tableName rel slotIndex
  else
    match q.tablesWith ref.columnName with
    | [] => .ok (.attributeNotFound,
        { q with message := ascii "cannot find attribute name [" ++ ref.columnName ++ ascii "]" })
    | [(name, rel, slotIndex)] => q.bindColumn ref type name rel slotIndex
    | _ => .ok (.nameAmbiguous,
        { q with message := ascii "attribute [" ++ ref.columnName ++ ascii "] ambiguous." })

def checkExpressionBase (type : ClauseType) : ExpressionBase → QueryRealizer → Res (State × QueryRealizer)
  | .null, _ => .error .nullPointer
  | .columnReference ref, q => q.checkColumnReference ref type
  | .constValue _, q => .ok (.ok, q)
  | .operation _ left right, q => do
    Res.check (type = .joinOn ∨ type = .whereClause) .assertion
    andThen (checkExpressionBase type left q) (checkExpressionBase type right)

/-- Registers a table under its name, unless the name is taken. -/
def registerTable (q : QueryRealizer) (name : Bytes) (relation : Relation) : QueryRealizer :=
  { q with
    name2tupleIndex := q.name2tupleIndex.insertIfNew name q.name2tupleIndex.size
    name2relation := q.name2relation.insertIfNew name relation }

def checkTableFactor : TableFactor → QueryRealizer → Res (State × QueryRealizer)
  | .tableReference ref, q =>
    match q.catalog.getRelation ref.tableName with
    | none => .ok (.relationNotFound,
        { q with message := ascii "cannot find relation [" ++ ref.tableName ++ ascii "]." })
    | some relation => .ok (.ok, q.registerTable ref.name relation)
  | .joinClause left right predicate _, q =>
    andThen (checkTableFactor left q) fun q =>
      andThen (checkTableFactor right q) (checkExpressionBase .joinOn predicate)
  | .subQuery, q => .ok (.ok, q)

def check (stmt : SelectStmt) (q : QueryRealizer) : Res (State × QueryRealizer) :=
  andThen (checkAll checkTableFactor stmt.tableReference q) fun q =>
    andThen (checkAll (checkExpressionBase .whereClause) stmt.optWhere q) fun q =>
      andThen (checkAll (checkExpressionBase .groupBy) stmt.optGroupBy q) fun q =>
        andThen (checkAll (checkExpressionBase .select) stmt.selectList q)
          (checkAll (checkExpressionBase .orderBy) stmt.optOrderBy)

/-! ## `Build` -/

/-- `BuildValueExpression`; `none` is the null pointer. -/
def buildValueExpression (q : QueryRealizer) : ExpressionBase → Res (Option ValueExpr)
  | .null => .error .nullPointer
  | .columnReference ref => do
    let slot ← Res.getD (q.name2slot ref) .assertion
    return some (.slotReference slot)
  | .constValue (.integer value) => .ok (some (.integerConstValue value))
  | .constValue (.varchar value) => .ok (some (.varcharConstValue value))
  | .operation _ left right => do
    -- arithmetic is not built
    let _ ← q.buildValueExpression left
    let _ ← q.buildValueExpression right
    return none

/-- The comparison for operands of one type, if there is one. -/
def buildCompare (op : OperatorType) (left right : ValueExpr) : Option BooleanExpr :=
  match left.getDataType with
  | .integer => some (.integerCompare op left right)
  | .float => some (.floatCompare op left right)
  | .varchar => some (.varcharCompare op left right)
  | _ => none

def buildBooleanExpression (q : QueryRealizer) : ExpressionBase → Res (Option BooleanExpr)
  | .null => .error .nullPointer
  | .operation op left right => do
    if isCompareOperator op then
      let l ← q.buildValueExpression left
      let r ← q.buildValueExpression right
      let l ← Res.getD l .nullPointer
      let r ← Res.getD r .nullPointer
      Res.check (l.getDataType = r.getDataType) .assertion
      return buildCompare op l r
    else if isLogicOperator op then
      match ← q.buildBooleanExpression left, ← q.buildBooleanExpression right with
      | some l, some r => return some (.logicExpr op l r)
      | _, _ => return none
    else return none
  | _ => .error .assertion

def buildTableScan (q : QueryRealizer) (ref : TableReference) : Res (Plan × QueryRealizer) := do
  let rel ← Res.getD (q.catalog.getRelation ref.tableName) .nullPointer
  let (iter, storage) ← q.storage.newIterator rel.id
  let relation ← Res.getD q.name2relation[ref.name]? .assertion
  let tupleIndex := q.allTupleDesc.length
  return (.seqScan ⟨iter, tupleIndex⟩,
    { q with storage, allIter := q.allIter ++ [iter], allTupleDesc := q.allTupleDesc ++ [relation.toDesc] })

/-- `BuildJoin` of a table factor. The kind of the join is not looked at. -/
def buildJoin : TableFactor → QueryRealizer → Res (Plan × QueryRealizer)
  | .tableReference ref, q => q.buildTableScan ref
  | .joinClause left right predicate _, q => do
    let (leftExec, q) ← buildJoin left q
    let (rightExec, q) ← buildJoin right q
    let booleanExpr ← Res.getD (← q.buildBooleanExpression predicate) .assertion
    return (.nestedLoopJoin q.name2relation.size leftExec rightExec booleanExpr, q)
  | .subQuery, _ => .error .assertion

/-- Adds an entry to `projection_list_` and its description to `output_row_desc_`. -/
def pushColumn (q : QueryRealizer) (slot : SlotReference) (columnDesc : ColumnDesc) : QueryRealizer :=
  { q with
    projectionList := q.projectionList ++ [.slotReference slot]
    outputRowDesc := q.outputRowDesc ++ [columnDesc] }

/-- The loop over the select list; `false` is the null pointer that `BuildProjection` returns then. -/
def projectTargets : List ExpressionBase → QueryRealizer → Res (Bool × QueryRealizer)
  | [], q => .ok (true, q)
  | .null :: _, _ => .error .nullPointer
  | .columnReference ref :: targets, q =>
    match q.name2slot ref with
    | none => .ok (false, { q with
        message := ascii "build projection, fatal error, cannot find name [" ++ ref.columnName ++ ascii "]." })
    | some slot => do
      let rowDesc ← Res.getD q.allTupleDesc[slot.tupleIndex]? .assertion
      let columnDesc ← Res.getD rowDesc[slot.slotIndex]? .assertion
      projectTargets targets (q.pushColumn slot columnDesc)
  | _ :: targets, q => projectTargets targets q

/-- One column of `SELECT *`, of the table registered as `name`. -/
def projectAttribute (name : Bytes) (q : QueryRealizer) (a : Attribute) : Res QueryRealizer := do
  let tupleIndex := q.name2tupleIndex[name]?.getD 0
  let slotIndex := a.attributeIndex.toNat
  let rowDesc ← Res.getD q.allTupleDesc[tupleIndex]? .outOfBounds
  let columnDesc ← rowDesc.getColumnDesc slotIndex
  return q.pushColumn { tupleIndex, slotIndex } columnDesc

def projectStar (q : QueryRealizer) : Res QueryRealizer :=
  q.name2relation.toList.foldlM (fun q (name, relation) => relation.attributes.foldlM (projectAttribute name) q) q

/-- `BuildProjection` over the executor `top`. -/
def buildProjection (selectList : List ExpressionBase) (top : Plan) (q : QueryRealizer) :
    Res (Option Plan × QueryRealizer) := do
  let (ok, q) ← projectTargets selectList q
  if !ok then return (none, q)
  let q ← (if selectList.isEmpty then q.projectStar else .ok q)
  return (some (.project top q.projectionList q.name2relation.size), q)

/-- `BuildSelect` over the executor `top`. -/
def buildSelect (optWhere : ExpressionBase) (top : Plan) (q : QueryRealizer) : Res (Option Plan) := do
  return (← q.buildBooleanExpression optWhere).map (.select top)

/-- `BuildJoin` of a list: only its first item is built. -/
def buildFrom : List TableFactor → QueryRealizer → Res (Option Plan × QueryRealizer)
  | [], q => .ok (none, { q with message := ascii "unsupported SQL 89 join syntax." })
  | factor :: _, q => do
    let (plan, q) ← buildJoin factor q
    return (some plan, q)

/-- The step of `Build` for an optional WHERE clause. -/
def buildWhere : List ExpressionBase → Plan → QueryRealizer → Res (Option Plan)
  | [], top, _ => .ok (some top)
  | optWhere :: _, top, q => q.buildSelect optWhere top

def build (stmt : SelectStmt) (q : QueryRealizer) : Res (State × QueryRealizer) := do
  let (top, q) ← buildFrom stmt.tableReference q
  match top with
  | none => return (.buildError, q)
  | some top =>
    match ← buildWhere stmt.optWhere top q with
    | none => return (.buildError, { q with topExec := none })
    | some top =>
      let (top, q) ← q.buildProjection stmt.selectList top
      return (if top.isSome then .ok else .buildError, { q with topExec := top })

end QueryRealizer

end Dbms18
