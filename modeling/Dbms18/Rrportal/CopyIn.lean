import Dbms18.Executor.LoadStops
import Dbms18.Rrportal.Session

/-!
# COPY FROM STDIN (`QueryRealizer::ExecLoad`, `Session::RecvCopyData`)

`RecvCopyData` returns the body of a CopyData message and the empty string for any other message, and
`ExecLoad` collects what it returns up to the first empty string. So an empty CopyData message ends the
data like CopyDone does (`transferred_iff`), and so does a message that aborts the copy: what has come
before it is loaded, unless the load fails (`refuses_iff`).
-/

namespace Dbms18

open List

namespace QueryRealizer

/-- The type byte of CopyDone, the letter c. -/
def copyDoneType : UInt8 := 0x63

/-! ## Receiving the data -/

section

variable {r : Reader} {ms : List FrontendMsg} {m stop : FrontendMsg} {rest : Bytes} {fuel : Nat}

/-- The message ends the loop: it carries no data. -/
def Stops (m : FrontendMsg) : Prop := m.type ≠ copyDataType ∨ m.body = []

theorem receive_eq (hr : r.Fits) (hstream : r.stream = m.serialise ++ rest) (file : Bytes) :
    ∃ r' : Reader, r'.Received m rest ∧ (¬ Stops m → receive (file, r) = .ok (.inl (file ++ m.body, r'))) ∧
      (Stops m → receive (file, r) = .ok (.inr (file, r'))) := by
  obtain ⟨r', hrecv, hreceived⟩ := Reader.recvCommand_eq hr hstream
  refine ⟨r', hreceived, fun hdata => ?_, fun hstop => ?_⟩
  · obtain ⟨htype, hbody⟩ := not_or.1 hdata
    simp [receive, recvCopyData, hrecv, not_not.1 htype, hreceived.message, hbody]
  · rcases hstop with htype | hbody
    · simp [receive, recvCopyData, hrecv, htype]
    · simp [receive, recvCopyData, hrecv, hreceived.message, hbody]

theorem loop_receive (hr : r.Fits) (hdata : ∀ m ∈ ms, ¬ Stops m) (hstop : Stops stop)
    (hstream : r.stream = ms.flatMap FrontendMsg.serialise ++ (stop.serialise ++ rest)) (hfuel : ms.length < fuel)
    (file : Bytes) :
    ∃ r' : Reader, Res.loop receive fuel (file, r) = .ok (file ++ ms.flatMap FrontendMsg.body, r') ∧
      r'.Received stop rest := by
  obtain ⟨fuel, rfl⟩ := Nat.exists_eq_succ_of_ne_zero (Nat.ne_zero_of_lt hfuel)
  induction ms generalizing r file fuel with
  | nil =>
    obtain ⟨r', hreceived, -, hreceive⟩ := receive_eq hr hstream file
    exact ⟨r', by simp [Res.loop_of_return (hreceive hstop)], hreceived⟩
  | cons m ms ih =>
    rw [flatMap_cons, append_assoc] at hstream
    obtain ⟨r₁, hreceived, hreceive, -⟩ := receive_eq hr hstream file
    obtain ⟨fuel, rfl⟩ := Nat.exists_eq_succ_of_ne_zero (Nat.ne_zero_of_lt (Nat.lt_of_succ_lt_succ hfuel))
    obtain ⟨r', hloop, hstopped⟩ := ih hreceived.fits (fun m' hm' => hdata m' (mem_cons_of_mem _ hm'))
      hreceived.stream (file ++ m.body) fuel (Nat.lt_of_succ_lt_succ hfuel)
    refine ⟨r', ?_, hstopped⟩
    rw [Res.loop_of_continue (hreceive (hdata m mem_cons_self)), hloop, flatMap_cons, append_assoc]

instance (m : FrontendMsg) : Decidable (Stops m) := inferInstanceAs (Decidable (_ ∨ _))

def collected (ms : List FrontendMsg) : Bytes := (ms.takeWhile fun m => ¬ Stops m).flatMap FrontendMsg.body

theorem collected_eq (hdata : ∀ m ∈ ms, m.type = copyDataType) :
    collected ms = (ms.takeWhile fun m => m.body ≠ []).flatMap FrontendMsg.body := by
  have htake : ms.takeWhile (fun m => decide (¬ Stops m)) = ms.takeWhile fun m => decide (m.body ≠ []) := by
    induction ms with
    | nil => rfl
    | cons m ms ih =>
      have hstops : ¬ Stops m ↔ m.body ≠ [] := by simp [Stops, hdata m mem_cons_self]
      simp only [takeWhile_cons, hstops, ih fun m' hm' => hdata m' (mem_cons_of_mem _ hm')]
  rw [collected, htake]

theorem exists_loop_receive (hr : r.Fits) (hstop : Stops stop)
    (hstream : r.stream = ms.flatMap FrontendMsg.serialise ++ (stop.serialise ++ rest)) (hfuel : ms.length < fuel) :
    ∃ r' : Reader, Res.loop receive fuel ([], r) = .ok (collected ms, r') ∧ r'.Fits ∧
      (r'.stream = rest ↔ ∀ m ∈ ms, ¬ Stops m) := by
  cases hfind : ms.find? (fun m => decide (Stops m)) with
  | none =>
    have hdata : ∀ m ∈ ms, ¬ Stops m := by simpa using find?_eq_none.1 hfind
    obtain ⟨r', hloop, hreceived⟩ := loop_receive hr hdata hstop hstream hfuel []
    refine ⟨r', ?_, hreceived.fits, iff_of_true hreceived.stream hdata⟩
    rw [hloop, collected, takeWhile_eq_self_iff.2 fun m hm => decide_eq_true (hdata m hm), nil_append]
  | some m =>
    -- the messages behind `m` are left in the stream
    obtain ⟨hm, before, behind, rfl, hbefore⟩ := find?_eq_some_iff_append.1 hfind
    have hstops : Stops m := of_decide_eq_true hm
    have hdata : ∀ m' ∈ before, ¬ Stops m' := by simpa using hbefore
    rw [flatMap_append, flatMap_cons, append_assoc, append_assoc] at hstream
    have hbefore : before.length < fuel := by
      rw [length_append] at hfuel
      omega
    obtain ⟨r', hloop, hreceived⟩ := loop_receive hr hdata hstops hstream hbefore []
    have hcollected : (before ++ m :: behind).takeWhile (fun m => decide (¬ Stops m)) = before := by
      rw [takeWhile_append_of_pos fun m' hm' => decide_eq_true (hdata m' hm'),
        takeWhile_cons_of_neg (by simpa using hstops), append_nil]
    refine ⟨r', by rw [hloop, collected, hcollected, nil_append], hreceived.fits, iff_of_false (fun heq => ?_) ?_⟩
    · have hlen := congrArg List.length (hreceived.stream.symm.trans heq)
      simp only [length_append, FrontendMsg.serialise, length_cons] at hlen
      omega
    · exact fun hall => hall m (by simp) hstops

end

/-! ## The transfer -/

variable {env : Environment} {fuel : Nat} {stmt : LoadStmt} {q : QueryRealizer} {rel : Relation}

theorem execLoad_of_loop {file : Bytes} {r' : Reader} (hstdin : stmt.isFromStdin = true)
    (hrel : q.catalog.getRelation stmt.tableName = some rel) (hloop : Res.loop receive fuel ([], q.reader) = .ok (file, r')) :
    q.execLoad env fuel stmt =
      execLoadCmd env stmt (some file) { q.send (.copyInResponse rel.attributes.length) with reader := r' } := by
  have hloop' : Res.loop receive fuel ([], (q.send (.copyInResponse rel.attributes.length)).reader) = .ok (file, r') := hloop
  simp only [execLoad, hstdin, if_true, hrel, hloop', Res.ok_bind]

theorem execLoad_eq_ok {q' : QueryRealizer} {state : State} (hstdin : stmt.isFromStdin = true)
    (hrel : q.catalog.getRelation stmt.tableName = some rel) (h : q.execLoad env fuel stmt = .ok (state, q')) :
    ∃ file r', Res.loop receive fuel ([], q.reader) = .ok (file, r') ∧
      env.load stmt (some file) q.catalog q.storage = .ok (state, q'.message, q'.storage) ∧
      q'.sent = q.sent ++ [.copyInResponse rel.attributes.length] ∧ q'.allIter = q.allIter := by
  simp only [execLoad, hstdin, if_true, hrel] at h
  obtain ⟨⟨file, r'⟩, hloop, h⟩ := Res.bind_eq_ok.1 h
  obtain ⟨⟨state', message, storage⟩, hcmd, heq⟩ := Res.bind_eq_ok.1 h
  obtain ⟨rfl, rfl⟩ := Prod.mk.inj (Except.ok.inj heq)
  exact ⟨file, r', hloop, hcmd, rfl, rfl⟩

/-- `ExecLoad` hands `file` to the load, whatever that does, and the session goes on reading at `rest`. -/
def Transferred (stmt : LoadStmt) (q : QueryRealizer) (columns : Nat) (file rest : Bytes) : Prop :=
  ∃ N, ∀ fuel ≥ N, ∃ r' : Reader, r'.stream = rest ∧
    (∀ m rest', rest = m.serialise ++ rest' → ∃ r'', r'.recvCommand = .ok (m.type, r'') ∧ r''.Received m rest') ∧
    ∀ env, q.execLoad env fuel stmt =
      execLoadCmd env stmt (some file) { q.send (.copyInResponse columns) with reader := r' }

section

variable {ms : List FrontendMsg} {stop : FrontendMsg} {rest : Bytes}

theorem Transferred.forall_not_stops {columns : Nat} {file : Bytes} (h : Transferred stmt q columns file rest)
    (hstdin : stmt.isFromStdin = true) (hrel : q.catalog.getRelation stmt.tableName = some rel) (hr : q.reader.Fits)
    (hstop : Stops stop) (hstream : q.reader.stream = ms.flatMap FrontendMsg.serialise ++ (stop.serialise ++ rest)) :
    ∀ m ∈ ms, ¬ Stops m := by
  obtain ⟨fuel, ⟨r'', hrest, -, hload⟩, hfuel⟩ := Res.exists_fuel h ⟨ms.length + 1, fun _ hfuel => hfuel⟩
  obtain ⟨r', hloop, -, hiff⟩ := exists_loop_receive hr hstop hstream hfuel
  -- a load that does nothing leaves the reader to be seen
  have hload := hload (Session.environment 0 .other)
  rw [execLoad_of_loop hstdin hrel hloop] at hload
  have hreader : r' = r'' := congrArg QueryRealizer.reader (Prod.mk.inj (Except.ok.inj hload)).2
  exact hiff.1 (hreader ▸ hrest)

/-- The data that come before CopyDone are transferred exactly if no message among them is empty. -/
theorem transferred_iff (hstdin : stmt.isFromStdin = true) (hrel : q.catalog.getRelation stmt.tableName = some rel)
    (hr : q.reader.Fits) (hdata : ∀ m ∈ ms, m.type = copyDataType) (hdone : stop.type = copyDoneType)
    (hstream : q.reader.stream = ms.flatMap FrontendMsg.serialise ++ (stop.serialise ++ rest)) :
    Transferred stmt q rel.attributes.length (ms.flatMap FrontendMsg.body) rest ↔ ∀ m ∈ ms, m.body ≠ [] := by
  have hstop : Stops stop := .inl (by rw [hdone]; decide)
  have hnone : (∀ m ∈ ms, ¬ Stops m) ↔ ∀ m ∈ ms, m.body ≠ [] :=
    forall₂_congr fun m hm => by simp [Stops, hdata m hm]
  rw [← hnone]
  constructor
  · exact fun h => h.forall_not_stops hstdin hrel hr hstop hstream
  · intro hall
    refine ⟨ms.length + 1, fun fuel hfuel => ?_⟩
    obtain ⟨r', hloop, hfits, hiff⟩ := exists_loop_receive hr hstop hstream hfuel
    have hcollected : collected ms = ms.flatMap FrontendMsg.body := by
      rw [collected, takeWhile_eq_self_iff.2 fun m hm => decide_eq_true (hall m hm)]
    rw [hcollected] at hloop
    refine ⟨r', hiff.2 hall, fun m rest' hm => ?_, fun env => execLoad_of_loop hstdin hrel hloop⟩
    exact Reader.recvCommand_eq hfits ((hiff.2 hall).trans hm)

end

end QueryRealizer

/-! ## `COPY t FROM STDIN`, with a client that sends lines of at most 16 bytes -/

def loadStmt : LoadStmt := ⟨ascii "t", [], true, MiniCsv.delimiter⟩

def shortMsg (type : UInt8) (body : Bytes) : FrontendMsg where
  type := type
  body := body.take 16
  framed := by
    rw [length_take]
    omega

/-- The client sends the lines and then a message without a body. -/
def Session.copying (lines : List Bytes) (stop : UInt8) : Session :=
  { overRows [] with
    reader := .new ((lines.map (shortMsg QueryRealizer.copyDataType)).flatMap FrontendMsg.serialise ++
      ((shortMsg stop []).serialise ++ [])) }

theorem Session.stream_copying (lines : List Bytes) (stop : UInt8) : (copying lines stop).reader.stream =
    (lines.map (shortMsg QueryRealizer.copyDataType)).flatMap FrontendMsg.serialise ++ ((shortMsg stop []).serialise ++ []) :=
  rfl

namespace QueryRealizer

open Session

theorem transferred_two_lines : Transferred loadStmt (copying [ascii "1\n", ascii "2\n"] copyDoneType).realizer 1
    (ascii "1\n2\n") [] := by
  have hrel : catalogTU.getRelation loadStmt.tableName = some tableT := by rfl
  have hstream : (copying [ascii "1\n", ascii "2\n"] copyDoneType).realizer.reader.stream = _ := stream_copying _ _
  refine (transferred_iff rfl hrel (Reader.fits_new _) ?_ rfl hstream).2 ?_
  · decide
  · decide

/-- With an empty message between the two lines the second one is left in the stream. -/
theorem not_transferred_empty_message :
    ¬ Transferred loadStmt (copying [ascii "1\n", [], ascii "2\n"] copyDoneType).realizer 1 (ascii "1\n2\n") [] := by
  intro h
  have hrel : catalogTU.getRelation loadStmt.tableName = some tableT := by rfl
  have hall := h.forall_not_stops rfl hrel (Reader.fits_new _) (by decide) (stream_copying _ _)
  exact hall (shortMsg copyDataType []) (by decide) (by decide)

end QueryRealizer

namespace Session

open QueryRealizer

/-! ## An aborted copy -/

def Aborts (m : FrontendMsg) : Prop := m.type ≠ copyDataType ∧ m.type ≠ copyDoneType

/-- The session has answered with an error, and the rows of the relation are as before. -/
def Refused (rel : Relation) (s s' : Session) : Prop :=
  s'.storage.databases rel.id = s.storage.databases rel.id ∧ ∃ reply, s'.sent = s.sent ++ reply ∧
    (∃ text, .errorResponse text ∈ reply) ∧ ∀ text, .commandComplete text ∉ reply

/-- The query is answered with an error, and the rows of the relation stay as they are. -/
def Refuses (env : Environment) (sql : Bytes) (rel : Relation) (s : Session) : Prop :=
  ∃ N, ∀ fuel ≥ N, ∃ s', processSimpleQuery env fuel sql s = .ok s' ∧ Refused rel s s'

variable {env : Environment} {host : Load.Host} {fuel : Nat} {sql : Bytes} {s s' : Session} {stmt : LoadStmt} {rel : Relation}
  {ms : List FrontendMsg} {stop : FrontendMsg} {rest : Bytes}

section

variable (hparse : (env.parse sql).2 = some (.copyFromStmt stmt))
  (hload : ∀ stmt, env.load stmt = Load.cmd host stmt.tableName stmt.delimiter) (hstdin : stmt.isFromStdin = true)
  (hrel : s.catalog.getRelation stmt.tableName = some rel) (hr : s.reader.Fits) (hstop : Stops stop)
  (hstream : s.reader.stream = ms.flatMap FrontendMsg.serialise ++ (stop.serialise ++ rest))
include hparse hload hstdin hrel hr hstop hstream

theorem load_of_processSimpleQuery (h : processSimpleQuery env fuel sql s = .ok s') :
    ∃ state message, Load.cmd host stmt.tableName stmt.delimiter (some (collected ms)) s.catalog s.storage =
        .ok (state, message, s'.storage) ∧
      s'.sent = s.sent ++ [.copyInResponse rel.attributes.length, completion state message, .readyForQuery idle] := by
  obtain ⟨q, state, q', hq, hexec, hdestroy, hsent⟩ := execute_of_processSimpleQuery hparse nofun h
  obtain ⟨file, r', hloop, hcmd, hq', hiter⟩ := execLoad_eq_ok hstdin (hq.catalog ▸ hrel) hexec
  -- the loop has come to its end, so with more fuel it comes to the same
  have hfile : file = collected ms := by
    rw [hq.reader] at hloop
    obtain ⟨r'', hloop', -, -⟩ := exists_loop_receive hr hstop hstream (Nat.le_max_right fuel (ms.length + 1))
    have hmono := Res.loop_mono hloop (Nat.le_max_left fuel (ms.length + 1))
    exact (Prod.mk.inj (Except.ok.inj (hmono.symm.trans hloop'))).1
  have hstorage : q'.storage = s'.storage := by
    rw [destroy, hiter, hq.allIter] at hdestroy
    exact Except.ok.inj hdestroy
  rw [hload, hfile, hq.catalog, hq.storage, hstorage] at hcmd
  refine ⟨state, q'.message, hcmd, ?_⟩
  rw [hsent, hq', hq.sent, append_assoc]
  rfl

theorem processSimpleQuery_of_load {state : State} {message : Bytes} {storage : LevelStore}
    (hcmd : Load.cmd host stmt.tableName stmt.delimiter (some (collected ms)) s.catalog s.storage =
      .ok (state, message, storage)) (hfuel : ms.length < fuel) :
    ∃ s', processSimpleQuery env fuel sql s = .ok s' ∧ s'.storage = storage ∧
      s'.sent = s.sent ++ [.copyInResponse rel.attributes.length, completion state message, .readyForQuery idle] := by
  obtain ⟨r', hloop, -⟩ := exists_loop_receive hr hstop hstream hfuel
  let q : QueryRealizer := { s.realizer with message := (env.parse sql).1 }
  have hexec : q.execLoad env fuel stmt =
      .ok (state, { q.send (.copyInResponse rel.attributes.length) with reader := r', storage, message }) := by
    rw [execLoad_of_loop (q := q) hstdin hrel hloop, execLoadCmd, hload]
    exact (congrArg (· >>= _) hcmd).trans rfl
  have hrealize := (realize_of_other (q := s.realizer) hparse nofun).trans hexec
  refine ⟨_, processSimpleQuery_of_realize hrealize rfl, rfl, ?_⟩
  rw [QueryRealizer.send, append_assoc]
  rfl

end

/-- An aborted copy is refused exactly if the write handler of the relation can be obtained, and the data
that came before the abort have a line that the reader rejects, with every line before it read and within
the page. -/
theorem refuses_iff (hparse : (env.parse sql).2 = some (.copyFromStmt stmt))
    (hload : ∀ stmt, env.load stmt = Load.cmd host stmt.tableName stmt.delimiter) (hstdin : stmt.isFromStdin = true)
    (hrel : s.catalog.getRelation stmt.tableName = some rel) (hs : s.storage.Wf) (hr : s.reader.Fits)
    (hdata : ∀ m ∈ ms, m.type = copyDataType) (habort : Aborts stop)
    (hstream : s.reader.stream = ms.flatMap FrontendMsg.serialise ++ (stop.serialise ++ rest)) :
    Refuses env sql rel s ↔ s.storage.Openable .write rel.id ∧ ∃ lines, Load.csvLines host stmt.delimiter rel.toDesc
      ((ms.takeWhile fun m => m.body ≠ []).flatMap FrontendMsg.body) = .ok lines ∧ Load.Stops rel lines := by
  have hstop : Stops stop := .inl habort.1
  rw [← collected_eq hdata, ← Load.cmd_fails_iff hrel hs]
  constructor
  · rintro ⟨N, hN⟩
    obtain ⟨s', hrun, -, reply, hreply, -, hnot⟩ := hN N (Nat.le_refl N)
    obtain ⟨state, message, hcmd, hsent⟩ := load_of_processSimpleQuery hparse hload hstdin hrel hr hstop hstream hrun
    refine ⟨state, message, _, hcmd, ?_⟩
    rintro rfl
    obtain rfl := append_cancel_left (hreply.symm.trans hsent)
    exact hnot (cText message) (by simp [completion])
  · rintro ⟨state, message, storage, hcmd, hstate⟩
    refine ⟨ms.length + 1, fun fuel hfuel => ?_⟩
    obtain ⟨s', hrun, rfl, hsent⟩ := processSimpleQuery_of_load hparse hload hstdin hrel hr hstop hstream hcmd hfuel
    refine ⟨s', hrun, ?_, _, hsent, ⟨cText message, ?_⟩, fun text => ?_⟩
    · obtain ⟨lines, -, ⟨-, -, hdb⟩ | ⟨-, hok⟩⟩ := Load.cmd_eq_ok hrel hcmd
      · exact congrFun hdb rel.id
      · exact absurd hok hstate
    · simp [completion, hstate]
    · simp [completion, hstate]

/-- The type byte of CopyFail, the letter f. -/
def copyFailType : UInt8 := 0x66

def loadEnvironment : Environment :=
  { environment 3 (.copyFromStmt loadStmt) with load := fun stmt => Load.cmd Load.numbering stmt.tableName stmt.delimiter }

/-- An abort after a row and a line that is no number. -/
theorem refuses_letters : Refuses loadEnvironment [] tableT
    (copying [ascii "555\n", ascii "abc\n", ascii "7\n"] copyFailType) := by
  have hstream := stream_copying [ascii "555\n", ascii "abc\n", ascii "7\n"] copyFailType
  refine (refuses_iff rfl (fun _ => rfl) rfl rfl (LevelStore.wf_started _) (Reader.fits_new _) ?_ ?_ hstream).2
    ⟨.inr ⟨rfl, by decide, by decide⟩, _, rfl, [(decimal 0, [.integer 555])], _, _, rfl, ?_, [], [], rfl, .inl rfl⟩
  · decide
  · exact ⟨by decide, by decide⟩
  · simp [fits_integer]

/-- The row that came before CopyFail is stored, and the copy is completed. -/
theorem not_refuses_row : ¬ Refuses loadEnvironment [] tableT (copying [ascii "555\n"] copyFailType) := by
  have hrows : ∀ r ∈ [(decimal 0, ([.integer 555] : Row))], Load.Fits tableT r.2 := by simp [fits_integer]
  have hrel : catalogTU.getRelation (ascii "t") = some tableT := by rfl
  have hlines : Load.csvLines Load.numbering MiniCsv.delimiter tableT.toDesc
      (collected [shortMsg copyDataType (ascii "555\n")]) = .ok ([(decimal 0, [.integer 555])].map Load.line) := by
    rfl
  obtain ⟨response, storage, hcmd, -⟩ :=
    Load.cmd_eq hrel (by decide) hrows hlines rfl (LevelStore.wf_started fun _ => (TableRows.insertAll ∅ []).database) (by rfl)
  rintro ⟨N, hN⟩
  obtain ⟨s', hrun, -, reply, hreply, -, hnot⟩ := hN (N + 2) (Nat.le_add_right N 2)
  have hparse : (loadEnvironment.parse []).2 = some (.copyFromStmt loadStmt) := rfl
  obtain ⟨s'', hrun', -, hsent⟩ := processSimpleQuery_of_load hparse (fun _ => rfl) rfl hrel (Reader.fits_new _) (.inr rfl)
    (stream_copying [ascii "555\n"] copyFailType) hcmd (Nat.lt_add_left N (Nat.lt_succ_self 1))
  obtain rfl := Except.ok.inj (hrun.symm.trans hrun')
  obtain rfl : reply = _ := hreply.symm.trans hsent
  exact hnot (cText response) (by simp [completion])

end Session

end Dbms18
