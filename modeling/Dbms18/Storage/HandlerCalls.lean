import Dbms18.Storage.LevelStore

/-!
# Calls on a handler (`storage/iterator_handler_impl.cpp`, `storage/write_handler_impl.cpp`)

A session calls a handler through the pointer `NewIterator` or `NewWriteHandler` gave it. The C++
types keep iterator calls to iterator handlers and write calls to write handlers; here a call on the
wrong kind is a fault that does not arise.
-/

namespace Dbms18

/-- Two sessions that use the same relation. -/
inductive Peer
  | first
  | second
deriving DecidableEq

def Peer.other : Peer → Peer
  | first => second
  | second => first

theorem Peer.eq_or_eq_other (p q : Peer) : q = p ∨ q = p.other := by
  cases p <;> cases q <;> simp [other]

namespace LevelStore

def iter (s : LevelStore) (h : Nat) : Res Cursor := do
  let handler ← Res.getD (s.handlers h) .useAfterFree
  match handler.impl with
  | .iterator c => return c
  | .write _ => .error .nullPointer

def setIter (s : LevelStore) (h : Nat) (c : Cursor) : Res LevelStore := do
  let handler ← Res.getD (s.handlers h) .useAfterFree
  return s.setHandler h { handler with impl := .iterator c }

def valid (s : LevelStore) (h : Nat) : Res Bool := do
  return (← s.iter h).valid

def seekToFirst (s : LevelStore) (h : Nat) : Res LevelStore := do
  s.setIter h (← s.iter h).seekToFirst

def iterNext (s : LevelStore) (h : Nat) : Res LevelStore := do
  s.setIter h (← s.iter h).next

/-- `GetTuple`: asserts that the iterator is valid. -/
def getTuple (s : LevelStore) (h : Nat) : Res Bytes := do
  Res.getD (← s.iter h).value .assertion

/-- The handler's batch together with the database it writes to. -/
def writer (s : LevelStore) (h : Nat) : Res WriteHandlerImpl := do
  let handler ← Res.getD (s.handlers h) .useAfterFree
  match handler.impl with
  | .write batch => return ⟨s.databases handler.relid, batch⟩
  | .iterator _ => .error .nullPointer

def setWriter (s : LevelStore) (h : Nat) (w : WriteHandlerImpl) : Res LevelStore := do
  let handler ← Res.getD (s.handlers h) .useAfterFree
  return { s.setHandler h { handler with impl := .write w.batch } with
    databases := Function.update s.databases handler.relid w.db }

def put (s : LevelStore) (h : Nat) (tupleId tuple : Bytes) : Res LevelStore := do
  let w ← s.writer h
  s.setWriter h (w.put tupleId tuple)

def commit (s : LevelStore) (h : Nat) (status : WriteStatus) : Res (Bool × LevelStore) := do
  let w ← s.writer h
  let (w, ok) := w.commit status
  return (ok, ← s.setWriter h w)

/-- The handler at `h` is an iterator handler, and its iterator is `c`. -/
def IterAt (s : LevelStore) (h : Nat) (c : Cursor) : Prop :=
  ∃ relid reference, s.handlers h = some ⟨relid, reference, .iterator c⟩

/-- The handler at `h` is the write handler of `relid` and has collected `batch`. -/
def WriterAt (s : LevelStore) (h : Nat) (relid : RelationId) (batch : List WriteOp) : Prop :=
  ∃ reference, s.handlers h = some ⟨relid, reference, .write batch⟩

/-- Every handler but the one at `h` is as before. -/
def SameExcept (s s' : LevelStore) (h : Nat) : Prop := ∀ h' ≠ h, s'.handlers h' = s.handlers h'

variable {s s' : LevelStore} {h : Nat} {c c' : Cursor}

theorem iter_of_iterAt (hc : s.IterAt h c) : s.iter h = .ok c := by
  obtain ⟨relid, reference, hh⟩ := hc
  simp [iter, hh]

theorem setIter_of_iterAt (hc : s.IterAt h c) (c' : Cursor) :
    ∃ s', s.setIter h c' = .ok s' ∧ s'.IterAt h c' ∧ s.SameExcept s' h := by
  obtain ⟨relid, reference, hh⟩ := hc
  exact ⟨s.setHandler h ⟨relid, reference, .iterator c'⟩, by simp [setIter, hh],
    ⟨relid, reference, by simp⟩, fun h' hne => by simp [hne]⟩

variable {relid : RelationId} {batch : List WriteOp}

section WriterAt

variable (hw : s.WriterAt h relid batch)

include hw

theorem writer_of_writerAt :
    s.writer h = .ok ⟨s.databases relid, batch⟩ := by
  obtain ⟨reference, hh⟩ := hw
  simp [writer, hh]

theorem setWriter_of_writerAt (w : WriteHandlerImpl) :
    ∃ s', s.setWriter h w = .ok s' ∧ s'.WriterAt h relid w.batch ∧
      s'.databases = Function.update s.databases relid w.db := by
  obtain ⟨reference, hh⟩ := hw
  refine ⟨{ s.setHandler h ⟨relid, reference, .write w.batch⟩ with
    databases := Function.update s.databases relid w.db }, by simp [setWriter, hh], ⟨reference, ?_⟩, rfl⟩
  exact (handlers_setHandler ..).trans (by simp)

theorem WriterAt.put {tupleId tuple : Bytes}
    (hput : s.put h tupleId tuple = .ok s') : s'.WriterAt h relid (batch ++ [.put tupleId tuple]) := by
  obtain ⟨s₁, hset, hw', -⟩ :=
    setWriter_of_writerAt hw ((⟨s.databases relid, batch⟩ : WriteHandlerImpl).put tupleId tuple)
  rw [LevelStore.put, writer_of_writerAt hw, Res.ok_bind, hset] at hput
  exact Except.ok.inj hput ▸ hw'

theorem WriterAt.commit {status : WriteStatus} (hcommit : s.commit h status = .ok (true, s')) :
    s'.databases = Function.update s.databases relid ((s.databases relid).write batch) := by
  obtain ⟨s₁, hset, -, hdb⟩ :=
    setWriter_of_writerAt hw ((⟨s.databases relid, batch⟩ : WriteHandlerImpl).commit status).1
  rw [LevelStore.commit, writer_of_writerAt hw, Res.ok_bind] at hcommit
  obtain ⟨s₂, hset', heq⟩ := Res.bind_eq_ok.1 hcommit
  obtain rfl := Except.ok.inj (hset.symm.trans hset')
  obtain ⟨hstatus, rfl⟩ := Prod.mk.inj (Except.ok.inj heq)
  obtain rfl : status = .ok := of_decide_eq_true hstatus
  exact hdb

end WriterAt

/-- What the write handler of a relation has collected, if there is one. -/
def pending (s : LevelStore) (relid : RelationId) : List WriteOp :=
  match (s.handlerMap .write relid).bind s.handlers with
  | some ⟨_, _, .write batch⟩ => batch
  | _ => []

theorem writerAt_newWriteHandler (hs : s.Wf) (hnew : s.newWriteHandler relid = .ok (h, s')) :
    s'.WriterAt h relid (s.pending relid) := by
  cases hmap : s.handlerMap .write relid with
  | none =>
    cases hopen : s.opened relid with
    | true => cases hnew.symm.trans (newHandler_of_opened hmap hopen)
    | false =>
      obtain ⟨rfl, rfl⟩ := Prod.mk.inj (Except.ok.inj (hnew.symm.trans (newHandler_of_unmapped hmap hopen)))
      refine ⟨1, ?_⟩
      simp [pending, hmap, HandlerImpl.new, WriteHandlerImpl.new]
  | some h' =>
    obtain ⟨⟨relid', reference, impl⟩, hh, hkind, rfl⟩ := hs.live hmap
    obtain ⟨rfl, rfl⟩ := Prod.mk.inj (Except.ok.inj (hnew.symm.trans (newHandler_of_mapped hmap hh)))
    cases impl with
    | iterator c => cases hkind
    | write batch =>
      refine ⟨reference + 1, ?_⟩
      simp [pending, hmap, hh, IOHandler.addRef]

theorem databases_put {tupleId tuple : Bytes} (hput : s.put h tupleId tuple = .ok s') : s'.databases = s.databases := by
  obtain ⟨w, hw, hset⟩ := Res.bind_eq_ok.1 hput
  obtain ⟨handler, hh, hw⟩ := Res.bind_eq_ok.1 hw
  obtain ⟨handler', hh', hset⟩ := Res.bind_eq_ok.1 hset
  obtain rfl := Except.ok.inj (hh.symm.trans hh')
  obtain rfl := Except.ok.inj hset
  cases himpl : handler.impl with
  | iterator c =>
    rw [himpl] at hw
    cases hw
  | write batch =>
    rw [himpl] at hw
    obtain rfl := Except.ok.inj hw
    exact Function.update_eq_self _ _

/-! ## A write handler that only its owner uses -/

/-- The write handler at `h` of `relid` has one reference and has collected `batch`. -/
structure Writing (s : LevelStore) (h : Nat) (relid : RelationId) (batch : List WriteOp) : Prop where
  wf : s.Wf
  handler : s.handlers h = some ⟨relid, 1, .write batch⟩

theorem Wf.setDatabases (hs : s.Wf) (databases : RelationId → Database) : ({ s with databases } : LevelStore).Wf :=
  ⟨hs.lt_next, hs.mapped, hs.live, hs.opened_iff, hs.exclusive⟩

variable {relid : RelationId} {batch : List WriteOp}

theorem exists_writing (hs : s.Wf) (hclosed : s.opened relid = false) :
    ∃ h s', s.newWriteHandler relid = .ok (h, s') ∧ s'.Writing h relid [] ∧ s'.databases = s.databases := by
  have hmap := (hs.of_not_opened hclosed).2.2 .write
  exact ⟨_, _, newHandler_of_unmapped hmap hclosed,
    ⟨hs.constructed hclosed, by simp [HandlerImpl.new, WriteHandlerImpl.new]⟩, rfl⟩

section Writing

variable (hw : s.Writing h relid batch)

include hw

theorem Writing.setWriter (w : WriteHandlerImpl) :
    ∃ s', s.setWriter h w = .ok s' ∧ s'.Writing h relid w.batch ∧
      s'.databases = Function.update s.databases relid w.db := by
  refine ⟨{ s.setHandler h ⟨relid, 1, .write w.batch⟩ with databases := Function.update s.databases relid w.db }, ?_, ?_, rfl⟩
  · simp [LevelStore.setWriter, hw.handler]
  · have hwf : (s.setHandler h ⟨relid, 1, .write w.batch⟩).Wf := hw.wf.setHandler hw.handler rfl rfl
    exact ⟨hwf.setDatabases _, (handlers_setHandler ..).trans (by simp)⟩

theorem Writing.put (tupleId tuple : Bytes) :
    ∃ s', s.put h tupleId tuple = .ok s' ∧ s'.Writing h relid (batch ++ [.put tupleId tuple]) ∧
      s'.databases = s.databases := by
  have hwriter := writer_of_writerAt (s := s) ⟨1, hw.handler⟩
  obtain ⟨s', hset, hw', hdb⟩ := hw.setWriter ((⟨s.databases relid, batch⟩ : WriteHandlerImpl).put tupleId tuple)
  refine ⟨s', by simp [LevelStore.put, hwriter, hset], hw', hdb.trans ?_⟩
  exact Function.update_eq_self relid s.databases

theorem Writing.commit :
    ∃ s', s.commit h .ok = .ok (true, s') ∧ s'.Writing h relid batch ∧
      s'.databases = Function.update s.databases relid ((s.databases relid).write batch) := by
  have hwriter := writer_of_writerAt (s := s) ⟨1, hw.handler⟩
  obtain ⟨s', hset, hw', hdb⟩ := hw.setWriter ((⟨s.databases relid, batch⟩ : WriteHandlerImpl).commit .ok).1
  rw [WriteHandlerImpl.commit] at hset
  exact ⟨s', by simp [LevelStore.commit, hwriter, WriteHandlerImpl.commit, hset], hw', hdb⟩

theorem Writing.deleteIOObject :
    ∃ s', s.deleteIOObject h = .ok s' ∧ s'.Wf ∧ s'.opened relid = false ∧ s'.databases = s.databases := by
  have hsub := subRef_of_live hw.handler
  generalize hs₁ : s.setHandler h (IOHandler.subRef ⟨relid, 1, .write batch⟩) = s₁ at hsub
  have hh : s₁.handlers h = some ⟨relid, 0, .write batch⟩ := by simp [← hs₁, IOHandler.subRef]
  have hwf : s₁.Wf := hs₁ ▸ hw.wf.setHandler hw.handler rfl rfl
  refine ⟨(s₁.setMap .write relid none).free h relid, ?_, hwf.erased hh, by simp [free], by rw [← hs₁]; rfl⟩
  have href := ref_of_live hh
  have herase : s₁.eraseAndDelete h = .ok ((s₁.setMap .write relid none).free h relid) :=
    eraseAndDelete_of_mapped hh (hwf.mapped hh)
  simp [LevelStore.deleteIOObject, hsub, href, herase]

end Writing

def scanning (tables : List (List (Bytes × Bytes))) : LevelStore :=
  { started fun _ => ∅ with handlers := fun h => tables[h]?.map fun records => ⟨h.toUInt32, 1, .iterator ⟨records, 0⟩⟩ }

theorem iterAt_scanning {tables : List (List (Bytes × Bytes))} {h : Nat} {records : List (Bytes × Bytes)}
    (hget : tables[h]? = some records) : (scanning tables).IterAt h ⟨records, 0⟩ :=
  ⟨h.toUInt32, 1, by simp [scanning, hget]⟩

end LevelStore

end Dbms18
