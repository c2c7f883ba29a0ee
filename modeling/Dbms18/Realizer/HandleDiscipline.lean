import Dbms18.Executor.LoadFile
import Dbms18.Realizer.Holding
import Dbms18.Realizer.Insert

/-!
# The handlers of a query (`QueryRealizer::~QueryRealizer`, `Load::~Load`)

A query keeps the handlers that it obtains in `all_iter_`, and its destructor deletes them. The handler of a
COPY FROM is kept by the `Load` alone, which deletes it when `all_exec_obj_` is destroyed, after `all_iter_`
has been gone through. A `Load` that has not come to `NewWriteHandler` deletes a null pointer: see
`released_iff`.
-/

namespace Dbms18

open Res

/-- `Prepare` and `Exec` of a `Load`, with the object that is left. -/
def Load.cmdKept (host : Host) (relName : Bytes) (delimiter : UInt8) (file : Option Bytes) (catalog : Catalog)
    (s : LevelStore) : Res (State × Load × LevelStore) :=
  match file with
  | none => .ok (.openFileError, { new relName with response := ascii "file is already open." }, s)
  | some content => do
    let lines ← ((catalog.getRelation relName).map Relation.toDesc).elim (.ok [])
      fun desc => csvLines host delimiter desc content
    (new relName).exec catalog lines host.status s

theorem Load.cmd_eq_cmdKept (host : Host) (relName : Bytes) (delimiter : UInt8) (file : Option Bytes)
    (catalog : Catalog) (s : LevelStore) : cmd host relName delimiter file catalog s = (do
      let (state, load, s) ← cmdKept host relName delimiter file catalog s
      return (state, load.response, s)) := by
  cases file with
  | none => rfl
  | some content => simp only [cmd, cmdKept, bind_assoc]

/-- What a query runs on: the parser, the bounds of the executors' loops, what CREATE, COPY and INSERT get
from outside, and the file system. -/
structure Server where
  parse : Bytes → Bytes × Option ParseTree
  executorFuel : Nat
  files : CatalogFiles
  draws : List RelationId
  load : Load.Host
  insert : InsertHost
  readFile : Bytes → Option Bytes
  writable : Bytes → Bool
  doubleText : UInt64 → Bytes

/-- CREATE writes to the catalog's own databases, through no handler. -/
def Server.environment (server : Server) : Environment where
  parse := server.parse
  executor := Plan.executor server.executorFuel
  createRelation schema catalog storage := do
    let (store, ok) ← CatalogStore.createRelation ⟨catalog, server.files⟩ schema server.draws
    return (ok, store.catalog, storage)
  insert := InsertValue.run server.insert
  load stmt := Load.cmd server.load stmt.tableName stmt.delimiter
  readFile := server.readFile
  writable := server.writable
  doubleText := server.doubleText

namespace QueryRealizer

variable (server : Server)

/-- `ExecCmd` with a `Load`, which is kept. -/
def loadKept (stmt : LoadStmt) (file : Option Bytes) (q : QueryRealizer) :
    Res (State × Option Load × QueryRealizer) := do
  let (state, load, storage) ← Load.cmdKept server.load stmt.tableName stmt.delimiter file q.catalog q.storage
  return (state, some load, { q with storage, message := load.response })

/-- `ExecLoad`, with the `Load` that it puts into `all_exec_obj_`. -/
def execLoadKept (fuel : Nat) (stmt : LoadStmt) (q : QueryRealizer) : Res (State × Option Load × QueryRealizer) :=
  if stmt.isFromStdin then
    match q.catalog.getRelation stmt.tableName with
    | none => .ok (.relationNotFound, none, { q with message := ascii "table not found." })
    | some rel => do
      let q := q.send (.copyInResponse rel.attributes.length)
      let (file, reader) ← Res.loop receive fuel ([], q.reader)
      loadKept server stmt (some file) { q with reader }
  else loadKept server stmt (server.readFile stmt.filePath) q

/-- `realize`, with the `Load` of the query if there is one. -/
def realizeKept (fuel : Nat) (sql : Bytes) (q : QueryRealizer) : Res (State × Option Load × QueryRealizer) :=
  match (server.parse sql).2 with
  | some (.copyFromStmt stmt) => execLoadKept server fuel stmt { q with message := (server.parse sql).1 }
  | _ => do
    let (state, q) ← q.realize server.environment fuel sql
    return (state, none, q)

variable {server}

theorem execLoad_eq_execLoadKept (fuel : Nat) (stmt : LoadStmt) (q : QueryRealizer) :
    q.execLoad server.environment fuel stmt = (do
      let (state, _, q) ← execLoadKept server fuel stmt q
      return (state, q)) := by
  have hcmd : ∀ file q, execLoadCmd server.environment stmt file q = (do
      let (state, _, q) ← loadKept server stmt file q
      return (state, q)) := by
    intro file q
    simp [execLoadCmd, loadKept, Server.environment, Load.cmd_eq_cmdKept, bind_assoc]
  rw [execLoad, execLoadKept]
  split
  · cases q.catalog.getRelation stmt.tableName with
    | none => rfl
    | some rel => simp only [hcmd, bind_assoc]
  · exact hcmd _ _

theorem realize_eq_realizeKept (fuel : Nat) (sql : Bytes) (q : QueryRealizer) :
    q.realize server.environment fuel sql = (do
      let (state, _, q) ← realizeKept server fuel sql q
      return (state, q)) := by
  cases hparse : (server.parse sql).2 with
  | none => simp [realizeKept, hparse]
  | some tree =>
    cases tree with
    | copyFromStmt stmt =>
      have hrealize : q.realize server.environment fuel sql =
          execLoad server.environment fuel stmt { q with message := (server.parse sql).1 } := by
        simp [realize, execute, Server.environment, hparse]
      rw [hrealize, execLoad_eq_execLoadKept]
      simp only [realizeKept, hparse]
    | _ => simp [realizeKept, hparse]

/-- The destructor of the query, with that of its `Load`. -/
def destroyKept (load : Option Load) (q : QueryRealizer) : Res LevelStore := do
  let s ← q.destroy
  match load with
  | none => return s
  | some load => load.destroy s

end QueryRealizer

/-! ## What a query obtains -/

namespace Load

variable {s : LevelStore} {held : List (Unit × Nat)}

theorem counted_readLines {desc : RowDesc} {h : Nat} (lines : List CsvLine) {rows : Int32} {tuple : RawTuple}
    (hs : s.Counted held) :
    Res.Ensures (readLines desc h lines rows tuple s) fun r => r.2.2.Counted held := by
  induction lines generalizing rows tuple s with
  | nil => exact ensures_ok hs
  | cons line lines ih =>
    refine .of_bind fun row => ?_
    dsimp only
    split
    · exact ensures_ok hs
    · refine .of_bind fun _ => .of_bind fun bytes => ?_
      exact Res.Ensures.bind (fun s' hput => hs.put hput) fun s' hs' => ih hs'

theorem counted_cmdKept (host : Host) (relName : Bytes) (delimiter : UInt8) (file : Option Bytes) (catalog : Catalog)
    (hs : s.Counted held) :
    Res.Ensures (cmdKept host relName delimiter file catalog s) fun r =>
      r.2.2.Counted (r.2.1.batch.toList.map (Prod.mk ()) ++ held) ∧
        (r.2.1.batch = none ↔ file = none ∨ catalog.getRelation relName = none) := by
  cases file with
  | none => exact ensures_ok ⟨hs, by simp [new]⟩
  | some content =>
    refine .of_bind fun lines => ?_
    have hname : (new relName).relName = relName := rfl
    rw [exec, hname]
    cases catalog.getRelation relName with
    | none => exact ensures_ok ⟨hs, by simp [new]⟩
    | some rel =>
      refine (hs.ensures_newHandler .write rel.id ()).bind fun r hr => ?_
      refine (counted_readLines lines hr).bind fun r hr => ?_
      dsimp only
      split
      · exact ensures_ok ⟨hr, by simp⟩
      · refine Res.Ensures.bind (fun r hcommit => hr.commit hcommit) fun r hr => ?_
        exact .of_bind fun _ => ensures_ok ⟨hr, by simp⟩

end Load

theorem Export.keeps_exec {ω σ : Type} {tupler : Executor ω σ} {I : ω → Prop} (htupler : tupler.Keeps I)
    (doubleText : UInt64 → Bytes) (desc : RowDesc) (fuel : Nat) (members : σ) {w : ω} (hw : I w) :
    Res.Ensures (exec doubleText tupler desc fuel members w) fun r => I r.2.2.2 := by
  have hstep : ∀ e : Export ω σ, I e.world →
      Res.Ensures (step doubleText tupler desc e) (Sum.elim (fun e => I e.world) fun r => I r.2.world) := by
    intro e he
    refine (htupler.getNext he).bind fun r hr => ?_
    dsimp only
    split
    · exact ensures_ok hr
    · exact .of_bind fun os => ensures_ok hr
  refine (htupler.execOpen hw).bind fun r hr₁ => ?_
  refine Res.Ensures.bind (Q := fun r => I r.2.world) ?_ fun r hr₂ => ?_
  · split
    · exact ensures_loop hstep hr₁ fuel
    · exact ensures_ok hr₁
  refine (htupler.close hr₂).bind fun r hr₃ => ?_
  dsimp only
  split <;> exact ensures_ok hr₃

theorem InsertValue.counted_exec (host : InsertHost) (handler : Nat) (tuple : RawTuple) (size : Nat) {s : LevelStore}
    {held : List (Unit × Nat)} (hs : s.Counted held) :
    Res.Ensures (exec host handler tuple size s) fun r => r.2.2.Counted held := by
  refine .of_bind fun bytes => ?_
  refine Res.Ensures.bind (fun s' hput => hs.put hput) fun s' hs' => ?_
  refine Res.Ensures.bind (fun r hcommit => hs'.commit hcommit) fun r hr => ensures_ok ?_
  split <;> exact hr

namespace QueryRealizer

variable {server : Server} {fuel : Nat} {sql : Bytes} {q q' : QueryRealizer} {state : State}
  {others : List (Unit × Nat)} {load : Option Load}

theorem holds_sendCopyData (lines : List Bytes) (hq : q.Holds others) :
    (lines.foldl (fun q line => q.sendCopyData (line ++ [newline])) q).Holds others := by
  induction lines generalizing q with
  | nil => exact hq
  | cons line lines ih => exact ih (q := q.sendCopyData (line ++ [newline])) hq

theorem holds_execCreate (stmt : CreateStmt) (hq : q.Holds others) :
    Res.Ensures (q.execCreate server.environment stmt) fun r => r.2.Holds others := by
  rw [execCreate]
  split
  · exact ensures_ok hq
  · refine Res.Ensures.bind (Q := fun r => r.2.2 = q.storage) ?_ fun r hr => ensures_ok ?_
    · exact .of_bind fun r => ensures_ok rfl
    · rw [Holds, hr]
      exact hq

theorem holds_execInsert (stmt : InsertStmt) (hq : q.Holds others) :
    Res.Ensures (q.execInsert server.environment stmt) fun r => r.2.Holds others := by
  have hrun : Res.Ensures (InsertValue.run server.insert stmt q.catalog q.storage) fun r =>
      r.2.2.2.Counted ((q.allIter ++ r.2.2.1).map (Prod.mk ()) ++ others) := by
    rw [InsertValue.run]
    split
    · refine ensures_ok ?_
      rw [List.append_nil]
      exact hq
    · next relation _ =>
      refine .of_bind fun tuple => ?_
      refine (LevelStore.Counted.ensures_newHandler hq .write relation.id ()).bind fun r hr => ?_
      refine (InsertValue.counted_exec server.insert r.1 tuple.1 tuple.2 hr).bind fun r' hr' => ensures_ok ?_
      exact holds_push hr'
  exact hrun.bind fun r hr => ensures_ok hr

theorem holds_execExport (stmt : ExportStmt) (hq : q.Holds others) :
    Res.Ensures (q.execExport server.environment fuel stmt) fun r => r.2.Holds others := by
  rw [execExport]
  split
  · exact ensures_ok hq
  · next rel _ =>
    refine (LevelStore.Counted.ensures_newHandler hq .iterator rel.id ()).bind fun ⟨iter, storage⟩ hr => ?_
    have hkeeps := (Plan.seqScan ⟨iter, 0⟩).keeps
      (LevelStore.counted_unmoved ((q.allIter ++ [iter]).map (Prod.mk ()) ++ others)) server.executorFuel
    have hexec := Export.keeps_exec hkeeps server.doubleText rel.toDesc fuel (Plan.seqScan ⟨iter, 0⟩).new
      (holds_push hr)
    -- the message that announces the rows does not reach the storage
    dsimp only
    split <;>
    · refine hexec.bind fun r hr => ?_
      split
      · exact ensures_ok (holds_sendCopyData _ hr)
      · exact ensures_ok hr

theorem holds_execute {tree : ParseTree} (htree : ∀ stmt, tree ≠ .copyFromStmt stmt) (hq : q.Holds others) :
    Res.Ensures (q.execute server.environment fuel tree) fun r => r.2.Holds others := by
  cases tree with
  | createStmt stmt => exact (holds_execCreate stmt hq).bind fun r hr => ensures_ok hr
  | copyFromStmt stmt => exact absurd rfl (htree stmt)
  | copyToStmt stmt => exact holds_execExport stmt hq
  | selectStmt stmt => exact holds_execSelect hq
  | insertStmt stmt => exact holds_execInsert stmt hq
  | other => exact ensures_ok hq

theorem holds_andThen {x : Res (State × QueryRealizer)} {f : QueryRealizer → Res (State × QueryRealizer)}
    (hx : x.Ensures fun r => r.2.Holds others)
    (hf : ∀ {q : QueryRealizer}, q.Holds others → Res.Ensures (f q) fun r => r.2.Holds others) :
    Res.Ensures (andThen x f) fun r => r.2.Holds others := by
  refine hx.bind fun r hr => ?_
  dsimp only
  split
  · exact ensures_ok hr
  · exact hf hr

theorem holds_realize (htree : ∀ stmt, (server.parse sql).2 ≠ some (.copyFromStmt stmt)) (hq : q.Holds others) :
    Res.Ensures (q.realize server.environment fuel sql) fun r => r.2.Holds others := by
  have hparse : server.environment.parse sql = server.parse sql := rfl
  rw [realize, hparse]
  cases htreeEq : (server.parse sql).2 with
  | none => exact ensures_ok hq
  | some tree =>
    have htree' : ∀ stmt, tree ≠ .copyFromStmt stmt := fun stmt heq => htree stmt (heq ▸ htreeEq)
    cases tree with
    | selectStmt stmt =>
      refine holds_andThen (fun r hr => (silent_check stmt hr).holds others hq) fun hq => ?_
      exact holds_andThen (fun r hr => (silent_build stmt hr).holds others hq) fun hq => holds_execute htree' hq
    | _ => exact holds_execute htree' hq

/-- The statement is a COPY FROM a file that cannot be opened, or into a relation that there is not. -/
def Unopened (server : Server) (sql : Bytes) (catalog : Catalog) : Prop :=
  ∃ stmt, (server.parse sql).2 = some (.copyFromStmt stmt) ∧ stmt.isFromStdin = false ∧
    (server.readFile stmt.filePath = none ∨ catalog.getRelation stmt.tableName = none)

/-- The handlers of a query are those in `all_iter_` and that of its `Load`. -/
def HoldsKept (load : Option Load) (q : QueryRealizer) (others : List (Unit × Nat)) : Prop :=
  q.Holds ((load.bind Load.batch).toList.map (Prod.mk ()) ++ others)

/-- The destructor of the `Load` is given a null pointer. -/
def NullBatch (load : Option Load) : Prop := ∃ l, load = some l ∧ l.batch = none

theorem holds_loadKept (stmt : LoadStmt) (file : Option Bytes) (hq : q.Holds others) :
    Res.Ensures (loadKept server stmt file q) fun r =>
      r.2.2.HoldsKept r.2.1 others ∧
        (NullBatch r.2.1 ↔ file = none ∨ q.catalog.getRelation stmt.tableName = none) := by
  refine (Load.counted_cmdKept server.load stmt.tableName stmt.delimiter file q.catalog hq).bind fun r hr => ?_
  refine ensures_ok ⟨hr.1.perm (List.perm_append_comm_assoc ..), ?_⟩
  simpa [NullBatch] using hr.2

theorem holds_execLoadKept (stmt : LoadStmt) (hq : q.Holds others) :
    Res.Ensures (execLoadKept server fuel stmt q) fun r =>
      r.2.2.HoldsKept r.2.1 others ∧ (NullBatch r.2.1 ↔ stmt.isFromStdin = false ∧
        (server.readFile stmt.filePath = none ∨ q.catalog.getRelation stmt.tableName = none)) := by
  rw [execLoadKept]
  split
  · next hstdin =>
    cases hrel : q.catalog.getRelation stmt.tableName with
    | none => exact ensures_ok ⟨hq, by simp [NullBatch, hstdin]⟩
    | some rel =>
      refine .of_bind fun ⟨file, reader⟩ => ?_
      let q₁ := { q.send (.copyInResponse rel.attributes.length) with reader }
      have hq₁ : q₁.Holds others := hq
      have hrel₁ : q₁.catalog.getRelation stmt.tableName = some rel := hrel
      rintro r hr
      obtain ⟨hholds, hnull⟩ := holds_loadKept stmt (some file) hq₁ r hr
      exact ⟨hholds, by simp [hnull, hrel₁, hstdin]⟩
  · next hstdin =>
    intro r hr
    obtain ⟨hholds, hnull⟩ := holds_loadKept stmt _ hq r hr
    exact ⟨hholds, by simp [hnull, hstdin]⟩

theorem holds_realizeKept (hq : q.Holds others) :
    Res.Ensures (realizeKept server fuel sql q) fun r =>
      r.2.2.HoldsKept r.2.1 others ∧ (NullBatch r.2.1 ↔ Unopened server sql q.catalog) := by
  rw [realizeKept]
  split
  · next stmt hparse =>
    intro r hr
    let q₁ := { q with message := (server.parse sql).1 }
    have hq₁ : q₁.Holds others := hq
    obtain ⟨hholds, hnull⟩ := holds_execLoadKept stmt hq₁ r hr
    exact ⟨hholds, by simp [hnull, Unopened, hparse, q₁]⟩
  · next hparse =>
    refine (holds_realize hparse hq).bind fun r hr => ensures_ok ⟨hr, ?_⟩
    refine iff_of_false ?_ ?_
    · rintro ⟨l, hl, -⟩
      cases hl
    · rintro ⟨stmt, heq, -⟩
      exact hparse stmt heq

theorem destroyKept_iff (hq : q.HoldsKept load others) :
    (∃ s, q.destroyKept load = .ok s ∧ s.Counted others) ↔ ¬ NullBatch load := by
  obtain ⟨s, hdestroy, hs⟩ := exists_destroy hq
  cases load with
  | none =>
    refine iff_of_true ⟨s, by simp [destroyKept, hdestroy], hs⟩ ?_
    rintro ⟨l, hl, -⟩
    cases hl
  | some l =>
    have hdestroy' : q.destroyKept (some l) = l.destroy s := by simp [destroyKept, hdestroy]
    rw [hdestroy']
    cases hbatch : l.batch with
    | none =>
      refine iff_of_false ?_ (not_not_intro ⟨l, rfl, hbatch⟩)
      rintro ⟨s', hs', -⟩
      simp [Load.destroy, hbatch] at hs'
    | some h =>
      have hs : s.Counted (((), h) :: others) := by simpa [hbatch] using hs
      obtain ⟨s', hdelete, hs'⟩ := hs.deleteIOObject List.mem_cons_self
      refine iff_of_true ⟨s', by simpa [Load.destroy, hbatch] using hdelete, by simpa using hs'⟩ ?_
      rintro ⟨l', hl, hnone⟩
      obtain rfl := Option.some.inj hl
      cases hbatch.symm.trans hnone

/-- By the time a query is destroyed, what it has obtained has been deleted, each as often as it was
obtained, if it was not a COPY FROM that ended before its handler was obtained. -/
theorem released_iff (hq : q.Holds others) (hrun : realizeKept server fuel sql q = .ok (state, load, q')) :
    (∃ s, q'.destroyKept load = .ok s ∧ s.Counted others) ↔ ¬ Unopened server sql q.catalog := by
  obtain ⟨hq', hnull⟩ := holds_realizeKept hq _ hrun
  rw [destroyKept_iff hq', hnull]

/-- Every query is a COPY FROM the file that it names, and one file is there. -/
def copyServer (relName : Bytes) : Server where
  parse sql := ([], some (.copyFromStmt ⟨relName, sql, false, 0x2c⟩))
  executorFuel := 0
  files := ⟨[], []⟩
  draws := []
  load := Load.numbering
  insert := ⟨[], .ok, List.replicate 8192 0, List.length_replicate⟩
  readFile path := if path = ascii "notes.csv" then some (ascii "5,ab\n6,cd") else none
  writable _ := true
  doubleText _ := []

def idle : QueryRealizer := { catalog := Load.notesCatalog, storage := Load.emptyStore }

theorem holds_idle : idle.Holds [] := LevelStore.counted_started _

theorem released_notes : ∃ load q',
    realizeKept (copyServer (ascii "notes")) 0 (ascii "notes.csv") idle = .ok (.ok, load, q') ∧
    ∃ s, q'.destroyKept load = .ok s ∧ s.Counted ([] : List (Unit × Nat)) := by
  obtain ⟨response, s, hcmd⟩ := Load.exists_cmd_two_notes
  rw [Load.cmd_eq_cmdKept, bind_eq_ok] at hcmd
  obtain ⟨⟨state, load, s'⟩, hkept, heq⟩ := hcmd
  obtain ⟨rfl, rfl, rfl⟩ : state = .ok ∧ load.response = response ∧ s' = s := by simpa using Except.ok.inj heq
  have hrun : realizeKept (copyServer (ascii "notes")) 0 (ascii "notes.csv") idle =
      .ok (.ok, some load, { idle with storage := s', message := load.response }) :=
    bind_eq_ok.2 ⟨_, hkept, rfl⟩
  refine ⟨_, _, hrun, (released_iff holds_idle hrun).2 ?_⟩
  rintro ⟨stmt, hstmt, -, hnone⟩
  obtain rfl := ParseTree.copyFromStmt.inj (Option.some.inj hstmt)
  rcases hnone with hnone | hnone
  · cases hnone
  · cases Load.getRelation_notesCatalog.symm.trans hnone

/-- A file that is not there, and a relation that is not there. -/
theorem not_released_notes :
    (∃ load q', realizeKept (copyServer (ascii "notes")) 0 (ascii "gone.csv") idle = .ok (.openFileError, load, q') ∧
      q'.destroyKept load = .error .nullPointer) ∧
    ∃ load q', realizeKept (copyServer (ascii "gone")) 0 (ascii "notes.csv") idle = .ok (.relationNotFound, load, q') ∧
      q'.destroyKept load = .error .nullPointer :=
  ⟨⟨_, _, rfl, rfl⟩, ⟨_, _, rfl, rfl⟩⟩

end QueryRealizer

end Dbms18
