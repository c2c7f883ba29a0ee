import Dbms18.Rrportal.Session

/-!
# COPY TO (`QueryRealizer::ExecExport`)

`ExecExport` exports the table to a file, reads the file back and sends each line in a CopyData message.
It does so whether the file was asked for or stands for the client, and it never sends CopyDone. So the
reply is as the protocol has it only where there is nothing to send: see `copiedOut_iff`.
-/

namespace Dbms18

theorem LevelStore.records_of_newIterator {s s' : LevelStore} {relid : RelationId} {h : Nat} {c : Cursor}
    (hnew : s.newIterator relid = .ok (h, s')) (hc : s'.iter h = .ok c) : c.records = s.scanRecords relid := by
  have hlive : ∀ {impl : HandlerImpl} {relid reference}, s'.handlers h = some ⟨relid, reference, impl⟩ →
      impl = .iterator c := by
    intro impl relid reference hh
    cases impl <;> simp [iter, hh] at hc
    rw [hc]
  cases hmap : s.handlerMap .iterator relid with
  | none =>
    cases hopen : s.opened relid with
    | true => cases hnew.symm.trans (newHandler_of_opened hmap hopen)
    | false =>
      obtain ⟨rfl, rfl⟩ := Prod.mk.inj (Except.ok.inj (hnew.symm.trans (newHandler_of_unmapped hmap hopen)))
      have hh : (s.constructed .iterator relid).handlers s.next =
          some ⟨relid, 1, .iterator (.ofDatabase (s.databases relid))⟩ := by simp [HandlerImpl.new]
      obtain rfl := HandlerImpl.iterator.inj (hlive hh)
      simp [scanRecords, hmap, Cursor.ofDatabase]
  | some h' =>
    simp only [newIterator, newHandler, hmap] at hnew
    obtain ⟨⟨relid', reference, impl⟩, hh, heq⟩ := Res.bind_eq_ok.1 hnew
    obtain ⟨rfl, rfl⟩ := Prod.mk.inj (Except.ok.inj heq)
    rw [Res.getD_eq_ok] at hh
    obtain rfl := hlive (by simp [IOHandler.addRef]; exact ⟨rfl, rfl, rfl⟩)
    simp [scanRecords, hmap, hh]

/-- The file that an export of the relation makes now. -/
def Exports (env : Environment) (fuel : Nat) (s : LevelStore) (rel : Relation) (file : Bytes) : Prop :=
  ∃ iter s₁ state response s₂, s.newIterator rel.id = .ok (iter, s₁) ∧
    Export.exec env.doubleText (env.executor (.seqScan ⟨iter, 0⟩)) rel.toDesc fuel (Plan.seqScan ⟨iter, 0⟩).new s₁ =
      .ok (state, response, file, s₂)

/-- The reply to a COPY TO as the protocol has it: with STDOUT, if it succeeds, CopyOutResponse, the file in
CopyData messages and CopyDone come before the completion; with a file no message of a copy is sent. -/
def CopiesOut (stmt : ExportStmt) (exports : Bytes → Prop) (reply : List BackendMsg) : Prop :=
  if stmt.isToStdout then
    (∃ text, .commandComplete text ∈ reply) → ∃ columns text, ∃ payloads : List Bytes,
      reply = .copyOutResponse columns :: payloads.map .copyData ++
        [.copyDone, .commandComplete text, .readyForQuery Session.idle] ∧ exports payloads.flatten
  else ∀ m ∈ reply, m.isCopy = false

theorem CopiesOut.copyDone_mem {stmt : ExportStmt} {exports : Bytes → Prop} {reply : List BackendMsg}
    (h : CopiesOut stmt exports reply)
    (hout : stmt.isToStdout = true) (text : Bytes) (htext : .commandComplete text ∈ reply) : .copyDone ∈ reply := by
  rw [CopiesOut, if_pos hout] at h
  obtain ⟨columns, text', payloads, rfl, -⟩ := h ⟨text, htext⟩
  simp

/-- The file that is read back after an export to it holds nothing: the relation has no rows, or the file
could not be opened for writing and is empty or not there. -/
def NothingBack (env : Environment) (stmt : ExportStmt) (s : LevelStore) (rel : Relation) : Prop :=
  if env.writable stmt.filePath then s.scanRecords rel.id = [] else (env.readFile stmt.filePath).getD [] = []

namespace QueryRealizer

variable {env : Environment} {fuel fuel' : Nat} {q q' : QueryRealizer} {state : State} {stmt : ExportStmt}

theorem sent_sendLines (lines : List Bytes) (q : QueryRealizer) :
    (lines.foldl (fun q line => q.sendCopyData (line ++ [newline])) q).sent =
      q.sent ++ lines.map fun line => .copyData (line ++ [newline]) := by
  induction lines generalizing q with
  | nil => simp
  | cons line lines ih =>
    rw [List.foldl_cons, ih]
    simp [sendCopyData, send]

theorem execExport_eq_ok {rel : Relation} (hexec : env.executor = Plan.executor fuel')
    (hrel : q.catalog.getRelation stmt.tableName = some rel) (h : q.execExport env fuel stmt = .ok (state, q')) :
    ∃ file, Exports env fuel q.storage rel file ∧ Export.Written (q.storage.scanRecords rel.id) file ∧ state = .ok ∧
      q'.sent = q.sent ++ (if stmt.isToStdout then [.copyOutResponse rel.attributes.length] else []) ++
        (getLines ((if stmt.isToStdout || env.writable stmt.filePath then some file
          else env.readFile stmt.filePath).getD [])).map fun line => .copyData (line ++ [newline]) := by
  simp only [execExport, hrel] at h
  obtain ⟨⟨iter, s₁⟩, hnew, h⟩ := Res.bind_eq_ok.1 h
  obtain ⟨⟨state', response, file, s₂⟩, hexport, h⟩ := Res.bind_eq_ok.1 h
  have hexport' : Export.exec env.doubleText (env.executor (.seqScan ⟨iter, 0⟩)) rel.toDesc fuel
      (Plan.seqScan ⟨iter, 0⟩).new s₁ = .ok (state', response, file, s₂) := by
    rw [← hexport]
    split <;> rfl
  have hstream : Export.exec env.doubleText (SeqScan.executor ⟨iter, 0⟩) rel.toDesc fuel () s₁ =
      .ok (state', response, file, s₂) := by
    rw [hexec] at hexport'
    exact hexport'
  obtain ⟨rfl, c, hc, hwritten⟩ := Export.ensures_exec fuel s₁ _ hstream
  rw [LevelStore.records_of_newIterator hnew hc] at hwritten
  refine ⟨file, ⟨iter, s₁, _, response, s₂, hnew, hexport'⟩, hwritten, ?_⟩
  obtain ⟨rfl, rfl⟩ := Prod.mk.inj (Except.ok.inj h)
  refine ⟨rfl, ?_⟩
  rw [sent_sendLines]
  by_cases hout : stmt.isToStdout = true <;> simp [hout, send]

end QueryRealizer

namespace Session

open QueryRealizer

variable {env : Environment} {fuel fuel' : Nat} {sql : Bytes} {s s' : Session} {stmt : ExportStmt}

/-- The session has answered a COPY TO as the protocol has it. -/
def CopiedOut (env : Environment) (fuel : Nat) (stmt : ExportStmt) (s s' : Session) : Prop :=
  ∃ reply, s'.sent = s.sent ++ reply ∧ CopiesOut stmt
    (fun file => ∃ rel, s.catalog.getRelation stmt.tableName = some rel ∧ Exports env fuel s.storage rel file) reply

/-- COPY TO follows the protocol exactly if the relation does not exist, or it is to a file and nothing is
read back from it. -/
theorem copiedOut_iff (hparse : (env.parse sql).2 = some (.copyToStmt stmt)) (hexec : env.executor = Plan.executor fuel')
    (h : processSimpleQuery env fuel sql s = .ok s') :
    CopiedOut env fuel stmt s s' ↔ ∀ rel, s.catalog.getRelation stmt.tableName = some rel →
      stmt.isToStdout = false ∧ NothingBack env stmt s.storage rel := by
  unfold CopiedOut
  obtain ⟨q, state, q', hq, hexport, -, hsent⟩ := execute_of_processSimpleQuery hparse nofun h
  have hexport : q.execExport env fuel stmt = .ok (state, q') := hexport
  cases hrel : s.catalog.getRelation stmt.tableName with
  | none =>
    refine iff_of_true ?_ (by simp)
    simp only [execExport, hq.catalog, hrel] at hexport
    obtain ⟨rfl, rfl⟩ := Prod.mk.inj (Except.ok.inj hexport)
    refine ⟨_, hq.sent ▸ hsent, ?_⟩
    unfold CopiesOut
    split <;> simp [completion, BackendMsg.isCopy]
  | some rel =>
    obtain ⟨file, hfile, hwritten, rfl, hq'⟩ := execExport_eq_ok hexec (hq.catalog ▸ hrel) hexport
    rw [hq.storage] at hfile hwritten
    have hreply : ∀ reply, s'.sent = s.sent ++ reply ↔ reply =
        (if stmt.isToStdout then [.copyOutResponse rel.attributes.length] else []) ++
          ((getLines ((if stmt.isToStdout || env.writable stmt.filePath then some file
            else env.readFile stmt.filePath).getD [])).map fun line => .copyData (line ++ [newline])) ++
          [.commandComplete (cText q'.message), .readyForQuery idle] := by
      intro reply
      rw [hsent, hq', hq.sent, List.append_assoc, List.append_assoc, List.append_right_inj, ← List.append_assoc]
      exact eq_comm
    simp only [hreply, exists_eq_left]
    cases hout : stmt.isToStdout with
    | true =>
      refine iff_of_false (fun hcopies => ?_) (by simp)
      have hdone := hcopies.copyDone_mem hout (cText q'.message) (by simp)
      simp at hdone
    | false =>
      have hback : (getLines ((if env.writable stmt.filePath = true then some file
          else env.readFile stmt.filePath).getD [])) = [] ↔ NothingBack env stmt s.storage rel := by
        rw [getLines_eq_nil_iff, NothingBack]
        split
        · exact hwritten.eq_nil_iff
        · exact Iff.rfl
      simp only [CopiesOut, hout, Bool.false_eq_true, if_false, Bool.false_or, List.nil_append, Option.some.injEq,
        forall_eq', true_and]
      rw [← hback]
      constructor
      · intro hno
        refine List.eq_nil_iff_forall_not_mem.2 fun line hline => ?_
        have hcopy := hno (.copyData (line ++ [newline])) (List.mem_append_left _ (List.mem_map.2 ⟨line, hline, rfl⟩))
        cases hcopy
      · intro hnil
        simp [hnil, BackendMsg.isCopy]

/-- With STDOUT only CopyDone is missing: the CopyData messages carry the file. -/
theorem sent_to_stdout {rel : Relation} (hparse : (env.parse sql).2 = some (.copyToStmt stmt))
    (hexec : env.executor = Plan.executor fuel') (h : processSimpleQuery env fuel sql s = .ok s')
    (hrel : s.catalog.getRelation stmt.tableName = some rel) (hout : stmt.isToStdout = true) :
    ∃ payloads : List Bytes, ∃ text, Exports env fuel s.storage rel payloads.flatten ∧
      s'.sent = s.sent ++ .copyOutResponse rel.attributes.length :: payloads.map .copyData ++
        [.commandComplete text, .readyForQuery idle] := by
  obtain ⟨q, state, q', hq, hexport, -, hsent⟩ := execute_of_processSimpleQuery hparse nofun h
  obtain ⟨file, hfile, hwritten, rfl, hq'⟩ := execExport_eq_ok hexec (hq.catalog ▸ hrel) hexport
  have hflatten : ((getLines file).map fun line => line ++ [newline]).flatten = file := by
    refine flatten_getLines ?_
    rcases hwritten with ⟨hlast, -⟩ | ⟨hnil, -⟩
    · exact .inr hlast
    · exact .inl hnil
  refine ⟨_, cText q'.message, hflatten.symm ▸ hq.storage ▸ hfile, ?_⟩
  rw [hsent, hq', hq.sent]
  simp [hout, completion]

/-! ## `COPY t TO STDOUT` and `COPY t TO 'f'` -/

def exportStmt (isToStdout : Bool) : ExportStmt := ⟨ascii "t", ascii "f", isToStdout⟩

def exportEnvironment (isToStdout : Bool) : Environment := environment 3 (.copyToStmt (exportStmt isToStdout))

def overFive : Session := overRows [(ascii "k", [.integer 5])]

theorem exists_export_five (isToStdout : Bool) : ∃ s',
    processSimpleQuery (exportEnvironment isToStdout) 3 [] overFive = .ok s' ∧
    s'.sent = (if isToStdout then [.copyOutResponse 1] else []) ++
      [.copyData (ascii "5\n"), .commandComplete (ascii "copy 1."), .readyForQuery idle] := by
  cases isToStdout <;> exact ⟨_, rfl, rfl⟩

/-- With one row, STDOUT gets no CopyDone, and an export to a file sends the row. -/
theorem not_copiedOut_five :
    (∃ s', processSimpleQuery (exportEnvironment true) 3 [] overFive = .ok s' ∧
      ¬ CopiedOut (exportEnvironment true) 3 (exportStmt true) overFive s') ∧
    ∃ s', processSimpleQuery (exportEnvironment false) 3 [] overFive = .ok s' ∧
      ¬ CopiedOut (exportEnvironment false) 3 (exportStmt false) overFive s' := by
  constructor
  · obtain ⟨s', hrun, hsent⟩ := exists_export_five true
    refine ⟨s', hrun, ?_⟩
    rintro ⟨reply, hreply, hcopies⟩
    obtain rfl : reply = _ := hreply.symm.trans hsent
    have hdone := hcopies.copyDone_mem rfl (ascii "copy 1.") (by simp)
    simp at hdone
  · obtain ⟨s', hrun, hsent⟩ := exists_export_five false
    refine ⟨s', hrun, ?_⟩
    rintro ⟨reply, hreply, hcopies⟩
    obtain rfl : reply = _ := hreply.symm.trans hsent
    have hcopy := hcopies (.copyData (ascii "5\n")) (by simp)
    cases hcopy

theorem copiedOut_of_no_rows : ∃ s', processSimpleQuery (exportEnvironment false) 3 [] (overRows []) = .ok s' ∧
    CopiedOut (exportEnvironment false) 3 (exportStmt false) (overRows []) s' := by
  obtain ⟨s', hrun⟩ : ∃ s', processSimpleQuery (exportEnvironment false) 3 [] (overRows []) = .ok s' := ⟨_, rfl⟩
  exact ⟨s', hrun, (copiedOut_iff rfl rfl hrun).2 fun rel hrel => ⟨rfl, rfl⟩⟩

end Session

end Dbms18
