import Dbms18.Storage.HandlerCalls

/-!
# `SeqScan` (`executor/seq_scan.cpp`)
-/

namespace Dbms18

/-- `State` (`include/common/state.h`). -/
inductive State
  | ok
  | eof
  | openFileError
  | loadError
  | parseError
  | buildError
  | execError
  | frontendTerminate
  | relationNotFound
  | fileNotFind
  | nameAmbiguous
  | attributeNotFound
  | notSupport
  | insertFailed
deriving DecidableEq, Repr

structure SeqScan where
  iterator : Nat
  tupleIndex : Nat
deriving DecidableEq

namespace SeqScan

/-- `Open`. -/
def execOpen (scan : SeqScan) (s : LevelStore) : Res (State × LevelStore) := do
  return (.ok, ← s.seekToFirst scan.iterator)

/-- `GetNext`: the tuple is copied out of leveldb, so it stays valid when the iterator moves on. -/
def getNext (scan : SeqScan) (s : LevelStore) (row : TupleRow) : Res (State × TupleRow × LevelStore) := do
  if ← s.valid scan.iterator then
    let t ← s.getTuple scan.iterator
    let row ← row.setTuple scan.tupleIndex (Cells.ofBytes t)
    return (.ok, row, ← s.iterNext scan.iterator)
  else
    return (.eof, row, s)

variable {scan : SeqScan} {s : LevelStore} {c : Cursor} {row : TupleRow}

theorem execOpen_of_iterAt (hc : s.IterAt scan.iterator c) :
    ∃ s', scan.execOpen s = .ok (.ok, s') ∧ s'.IterAt scan.iterator ⟨c.records, 0⟩ ∧
      s.SameExcept s' scan.iterator := by
  obtain ⟨s', hs', hc', hsame⟩ := LevelStore.setIter_of_iterAt hc c.seekToFirst
  refine ⟨s', ?_, hc', hsame⟩
  simp [execOpen, LevelStore.seekToFirst, LevelStore.iter_of_iterAt hc, hs']

theorem getNext_of_record (hc : s.IterAt scan.iterator c) {key tuple : Bytes}
    (hrecord : c.records[c.pos]? = some (key, tuple)) (hrow : scan.tupleIndex < row.length) :
    ∃ s', scan.getNext s row = .ok (.ok, row.set scan.tupleIndex (some (Cells.ofBytes tuple)), s') ∧
      s'.IterAt scan.iterator ⟨c.records, c.pos + 1⟩ ∧ s.SameExcept s' scan.iterator := by
  obtain ⟨s', hs', hc', hsame⟩ := LevelStore.setIter_of_iterAt hc c.next
  have hvalid : c.valid = true := decide_eq_true (List.getElem?_eq_some_iff.1 hrecord).1
  refine ⟨s', ?_, hc', hsame⟩
  simp [getNext, LevelStore.valid, LevelStore.getTuple, LevelStore.iterNext, LevelStore.iter_of_iterAt hc,
    hvalid, Cursor.value, Cursor.current, hrecord, TupleRow.setTuple, Res.check_of hrow, hs']

theorem getNext_of_end (hc : s.IterAt scan.iterator c) (hend : c.records.length ≤ c.pos) :
    scan.getNext s row = .ok (.eof, row, s) := by
  have hvalid : c.valid = false := decide_eq_false (Nat.not_lt.2 hend)
  simp [getNext, LevelStore.valid, LevelStore.iter_of_iterAt hc, hvalid]

theorem getNext_eq_ok {state : State} {row' : TupleRow} {s' : LevelStore} (h : scan.getNext s row = .ok (state, row', s')) :
    ∃ c, s.iter scan.iterator = .ok c ∧ state = if c.valid then .ok else .eof := by
  obtain ⟨b, hvalid, h⟩ := Res.bind_eq_ok.1 h
  obtain ⟨c, hc, hb⟩ := Res.bind_eq_ok.1 hvalid
  obtain rfl := Except.ok.inj hb
  refine ⟨c, hc, ?_⟩
  split at h
  · next hvalid =>
    simp only [Res.bind_eq_ok] at h
    obtain ⟨_, -, _, -, _, -, heq⟩ := h
    exact (Prod.mk.inj (Except.ok.inj heq)).1.symm.trans (if_pos hvalid).symm
  · next hvalid => exact (Prod.mk.inj (Except.ok.inj h)).1.symm.trans (if_neg hvalid).symm

theorem execOpen_eq_ok {state : State} {s' : LevelStore} (h : scan.execOpen s = .ok (state, s')) :
    state = .ok ∧ ∃ c, s.iter scan.iterator = .ok c ∧ s'.iter scan.iterator = .ok ⟨c.records, 0⟩ := by
  obtain ⟨s₁, hseek, heq⟩ := Res.bind_eq_ok.1 h
  obtain ⟨rfl, rfl⟩ := Prod.mk.inj (Except.ok.inj heq)
  obtain ⟨c, hc, hset⟩ := Res.bind_eq_ok.1 hseek
  obtain ⟨handler, -, hset⟩ := Res.bind_eq_ok.1 hset
  obtain rfl := Except.ok.inj hset
  exact ⟨rfl, c, hc, by simp [LevelStore.iter, Cursor.seekToFirst]⟩

end SeqScan

end Dbms18
