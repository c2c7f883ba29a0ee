import Dbms18.Executor.Export
import Dbms18.Realizer.ExecSelect

/-!
# Executing statements (`realizer/query_realizer.cpp`)

`Execute` and the functions it calls, except `ExecSelect`. What a query runs on is an `Environment`: the
parser, the executors and the commands, the file system and the storage calls of CREATE and INSERT. The
reply to a query is made here and in the session, whatever these give.
-/

namespace Dbms18

structure Environment where
  /-- The parser: its message, and the tree unless there is none. -/
  parse : Bytes → Bytes × Option ParseTree
  executor : (p : Plan) → Executor LevelStore p.Members
  createRelation : TableSchema → Catalog → LevelStore → Res (Bool × Catalog × LevelStore)
  /-- `ExecInsert`: the state, the message, and the handlers it has obtained. -/
  insert : InsertStmt → Catalog → LevelStore → Res (State × Bytes × List Nat × LevelStore)
  /-- `Prepare` and `Exec` of a `Load` over a file, which may not be there: the state and the response. -/
  load : LoadStmt → Option Bytes → Catalog → LevelStore → Res (State × Bytes × LevelStore)
  /-- What an existing file holds, and whether a file can be opened for writing. Those in `/tmp` can. -/
  readFile : Bytes → Option Bytes
  writable : Bytes → Bool
  doubleText : UInt64 → Bytes

namespace QueryRealizer

def send (q : QueryRealizer) (m : BackendMsg) : QueryRealizer := { q with sent := q.sent ++ [m] }

/-- `SendCopyData`, for which an empty message stands for the end of the data. -/
def sendCopyData (q : QueryRealizer) (msg : Bytes) : QueryRealizer :=
  q.send (if msg ≠ [] then .copyData msg else .copyDone)

/-- The type byte of CopyData, the letter d. -/
def copyDataType : UInt8 := 0x64

/-- `RecvCopyData`: the body of a CopyData message, and nothing for any other message. -/
def recvCopyData (r : Reader) : Res (Bytes × Reader) := do
  let (qtype, r) ← r.recvCommand
  return (if qtype = copyDataType then r.message else [], r)

/-- One pass of the loop in `ExecLoad`, with what the file has been given. -/
def receive (fr : Bytes × Reader) : Res (Bytes × Reader ⊕ Bytes × Reader) := do
  let (data, r) ← recvCopyData fr.2
  let file := fr.1 ++ data
  return if data ≠ [] then .inl (file, r) else .inr (file, r)

/-- `ExecCmd` with a `Load`. -/
def execLoadCmd (env : Environment) (stmt : LoadStmt) (file : Option Bytes) (q : QueryRealizer) :
    Res (State × QueryRealizer) := do
  let (state, response, storage) ← env.load stmt file q.catalog q.storage
  return (state, { q with storage, message := response })

/-- `ExecLoad`. What comes from the client goes through a file in `/tmp`, which is taken to open and to give back what was
written. -/
def execLoad (env : Environment) (fuel : Nat) (stmt : LoadStmt) (q : QueryRealizer) : Res (State × QueryRealizer) :=
  if stmt.isFromStdin then
    match q.catalog.getRelation stmt.tableName with
    | none => .ok (.relationNotFound, { q with message := ascii "table not found." })
    | some rel => do
      let q := q.send (.copyInResponse rel.attributes.length)
      let (file, reader) ← Res.loop receive fuel ([], q.reader)
      execLoadCmd env stmt (some file) { q with reader }
  else execLoadCmd env stmt (env.readFile stmt.filePath) q

/-- `ExecExport`. For STDOUT the file is one in `/tmp`, which is taken to open and to give back what was written. -/
def execExport (env : Environment) (fuel : Nat) (stmt : ExportStmt) (q : QueryRealizer) : Res (State × QueryRealizer) :=
  match q.catalog.getRelation stmt.tableName with
  | none => .ok (.relationNotFound, q)
  | some rel => do
    let (iter, storage) ← q.storage.newIterator rel.id
    let plan := Plan.seqScan ⟨iter, 0⟩
    let q := { q with storage, allIter := q.allIter ++ [iter], topExec := some plan }
    let q := if stmt.isToStdout then q.send (.copyOutResponse rel.attributes.length) else q
    let (state, response, file, storage) ←
      Export.exec env.doubleText (env.executor plan) rel.toDesc fuel plan.new q.storage
    let q := { q with storage, message := response }
    if state = .ok then
      -- the file is read back, in either mode
      let content := if stmt.isToStdout || env.writable stmt.filePath then some file else env.readFile stmt.filePath
      return (.ok, (getLines (content.getD [])).foldl (fun q line => q.sendCopyData (line ++ [newline])) q)
    return (state, q)

def columnSchema (column : ColumnDefine) : ColumnSchema where
  name := column.columnName
  dataType := column.columnType
  length := column.dataLength
  isNull := false

/-- A table with two primary keys is rejected. -/
def execCreate (env : Environment) (stmt : CreateStmt) (q : QueryRealizer) : Res (Bool × QueryRealizer) :=
  if 1 < stmt.columnDefineList.countP ColumnDefine.isPrimaryKey then
    .ok (false, { q with message := ascii "relation " ++ stmt.tableName ++ ascii " cannot have multiple keys." })
  else do
    let (ok, catalog, storage) ←
      env.createRelation ⟨stmt.tableName, stmt.columnDefineList.map columnSchema⟩ q.catalog q.storage
    let message := ascii "relation " ++ stmt.tableName ++ (if ok then ascii " created." else ascii " create failed.")
    return (ok, { q with catalog, storage, message })

def execInsert (env : Environment) (stmt : InsertStmt) (q : QueryRealizer) : Res (State × QueryRealizer) := do
  let (state, message, handlers, storage) ← env.insert stmt q.catalog q.storage
  return (state, { q with storage, message, allIter := q.allIter ++ handlers })

def execute (env : Environment) (fuel : Nat) (tree : ParseTree) (q : QueryRealizer) : Res (State × QueryRealizer) :=
  match tree with
  | .createStmt stmt => do
    let (ok, q) ← q.execCreate env stmt
    return (if ok then .ok else .execError, q)
  | .copyFromStmt stmt => q.execLoad env fuel stmt
  | .copyToStmt stmt => q.execExport env fuel stmt
  | .selectStmt _ => q.execSelect env.executor fuel
  | .insertStmt stmt => q.execInsert env stmt
  | .other => .ok (.execError, q)

/-- `Parse`, `Check`, `Optimize`, `Build` and `Execute` in turn, up to the first that does not return
`kStateOK`. `Optimize` does nothing. -/
def realize (env : Environment) (fuel : Nat) (sql : Bytes) (q : QueryRealizer) : Res (State × QueryRealizer) :=
  let q := { q with message := (env.parse sql).1 }
  match (env.parse sql).2 with
  | none => .ok (.parseError, q)
  | some (.selectStmt stmt) =>
    andThen (check stmt q) fun q => andThen (build stmt q) (execute env fuel (.selectStmt stmt))
  | some tree => execute env fuel tree q

section

variable {env : Environment} {fuel : Nat} {sql : Bytes} {q : QueryRealizer}

theorem realize_of_none (hparse : (env.parse sql).2 = none) :
    q.realize env fuel sql = .ok (.parseError, { q with message := (env.parse sql).1 }) := by
  simp only [realize, hparse]

theorem realize_of_select {stmt : SelectStmt} (hparse : (env.parse sql).2 = some (.selectStmt stmt)) :
    q.realize env fuel sql = andThen (check stmt { q with message := (env.parse sql).1 }) fun q =>
      andThen (build stmt q) (execute env fuel (.selectStmt stmt)) := by
  simp only [realize, hparse]

theorem realize_of_other {tree : ParseTree} (hparse : (env.parse sql).2 = some tree)
    (hselect : ∀ stmt, tree ≠ .selectStmt stmt) :
    q.realize env fuel sql = execute env fuel tree { q with message := (env.parse sql).1 } := by
  cases tree with
  | selectStmt stmt => exact absurd rfl (hselect stmt)
  | _ => simp only [realize, hparse]

end

/-- The destructor releases the iterators and handlers of the query. -/
def destroy (q : QueryRealizer) : Res LevelStore := q.allIter.foldlM LevelStore.deleteIOObject q.storage

end QueryRealizer

end Dbms18
