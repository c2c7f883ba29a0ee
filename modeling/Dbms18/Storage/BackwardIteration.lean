import Dbms18.Lib.Loop
import Dbms18.Storage.HandlerCalls

/-!
# Iterating backwards (`storage/iterator_handler_impl.cpp`)

leveldb's iterator goes either way, and its two directions mirror each other. `IteratorHandlerImpl::Prev`
calls `Next` on it, so a handler only goes forward, and its directions mirror each other only where there
is at most one tuple (`mirrored_iff`).
-/

namespace Dbms18

open List

structure IteratorHandlerImpl where
  iter : Cursor
deriving DecidableEq

namespace IteratorHandlerImpl

def valid (i : IteratorHandlerImpl) : Bool := i.iter.valid

def seekToFirst (i : IteratorHandlerImpl) : IteratorHandlerImpl := ⟨i.iter.seekToFirst⟩

def seekToLast (i : IteratorHandlerImpl) : IteratorHandlerImpl := ⟨i.iter.seekToLast⟩

def next (i : IteratorHandlerImpl) : IteratorHandlerImpl := ⟨i.iter.next⟩

/-- `iter_->Next()`. -/
def prev (i : IteratorHandlerImpl) : IteratorHandlerImpl := ⟨i.iter.next⟩

def tupleID (i : IteratorHandlerImpl) : Res Bytes := Res.getD i.iter.key .outOfBounds

def getTuple (i : IteratorHandlerImpl) : Res Bytes := Res.getD i.iter.value .assertion

/-- `iter_->Prev()`, as the function should be. -/
def levelPrev (i : IteratorHandlerImpl) : IteratorHandlerImpl := ⟨i.iter.prev⟩

/-- A pass of a loop that visits tuples while the iterator is valid. -/
def visitStep (move : IteratorHandlerImpl → IteratorHandlerImpl) (s : IteratorHandlerImpl × List (Bytes × Bytes)) :
    Res (IteratorHandlerImpl × List (Bytes × Bytes) ⊕ List (Bytes × Bytes)) := do
  if s.1.valid then
    let id ← s.1.tupleID
    let tuple ← s.1.getTuple
    return .inl (move s.1, s.2 ++ [(id, tuple)])
  else return .inr s.2

def Visits (move : IteratorHandlerImpl → IteratorHandlerImpl) (i : IteratorHandlerImpl) (tuples : List (Bytes × Bytes)) :
    Prop :=
  ∃ N, ∀ fuel ≥ N, Res.loop (visitStep move) fuel (i, []) = .ok tuples

/-- The two directions mirror each other: going back from the last tuple, and one step back after one step
forward. -/
structure Mirrored (prev : IteratorHandlerImpl → IteratorHandlerImpl) (db : Database) : Prop where
  visits : ∀ i : IteratorHandlerImpl, i.iter.records = db.toList →
    ∃ tuples, Visits next i.seekToFirst tuples ∧ Visits prev i.seekToLast tuples.reverse
  back : ∀ i : IteratorHandlerImpl, i.iter.records = db.toList → i.valid → i.next.valid →
    (prev i.next).tupleID = i.tupleID ∧ (prev i.next).getTuple = i.getTuple

/-! ## The calls of `LevelStore` -/

theorem seekToFirst_eq (s : LevelStore) (h : Nat) :
    s.seekToFirst h = (do s.setIter h (mk (← s.iter h)).seekToFirst.iter) := rfl

theorem iterNext_eq (s : LevelStore) (h : Nat) : s.iterNext h = (do s.setIter h (mk (← s.iter h)).next.iter) := rfl

theorem getTuple_eq (s : LevelStore) (h : Nat) : s.getTuple h = (do (mk (← s.iter h)).getTuple) := rfl

/-! ## What is visited -/

variable {records : List (Bytes × Bytes)} {pos : Nat} {move : IteratorHandlerImpl → IteratorHandlerImpl}

theorem visitStep_record {r : Bytes × Bytes} (hr : records[pos]? = some r) (acc : List (Bytes × Bytes)) :
    visitStep move (⟨⟨records, pos⟩⟩, acc) = .ok (.inl (move ⟨⟨records, pos⟩⟩, acc ++ [r])) := by
  have hvalid : (mk ⟨records, pos⟩).valid = true := decide_eq_true (List.getElem?_eq_some_iff.1 hr).1
  rw [visitStep, if_pos hvalid]
  simp [tupleID, getTuple, Cursor.key, Cursor.value, Cursor.current, hr]

theorem visitStep_end (hpos : records.length ≤ pos) (acc : List (Bytes × Bytes)) :
    visitStep move (⟨⟨records, pos⟩⟩, acc) = .ok (.inr acc) := by
  rw [visitStep, if_neg (by simpa [valid, Cursor.valid] using hpos)]
  rfl

theorem loop_next {fuel : Nat} (hfuel : records.length - pos < fuel) (acc : List (Bytes × Bytes)) :
    Res.loop (visitStep next) fuel (⟨⟨records, pos⟩⟩, acc) = .ok (acc ++ records.drop pos) := by
  induction fuel generalizing pos acc with
  | zero => omega
  | succ fuel ih =>
    cases hr : records[pos]? with
    | none =>
      have hpos := List.getElem?_eq_none_iff.1 hr
      rw [Res.loop_of_return (visitStep_end hpos acc), drop_eq_nil_of_le hpos, append_nil]
    | some r =>
      obtain ⟨hlt, rfl⟩ := List.getElem?_eq_some_iff.1 hr
      rw [Res.loop_of_continue (visitStep_record hr acc), drop_eq_getElem_cons hlt]
      show Res.loop _ fuel (mk ⟨records, pos + 1⟩, _) = _
      rw [ih (by omega), append_assoc, singleton_append]

theorem loop_levelPrev {fuel : Nat} (hpos : pos < records.length) (hfuel : pos + 1 < fuel) (acc : List (Bytes × Bytes)) :
    Res.loop (visitStep levelPrev) fuel (⟨⟨records, pos⟩⟩, acc) = .ok (acc ++ (records.take (pos + 1)).reverse) := by
  induction fuel generalizing pos acc with
  | zero => omega
  | succ fuel ih =>
    rw [Res.loop_of_continue (visitStep_record (getElem?_eq_getElem hpos) acc), take_succ_eq_append_getElem hpos,
      reverse_concat]
    cases pos with
    | zero =>
      have hend : Res.loop (visitStep levelPrev) fuel (levelPrev ⟨⟨records, 0⟩⟩, acc ++ [records[0]]) =
          .ok (acc ++ [records[0]]) := Res.loop_return (by omega) (visitStep_end le_rfl _)
      rw [hend]
      rfl
    | succ pos =>
      show Res.loop _ fuel (mk ⟨records, pos⟩, _) = _
      rw [ih (by omega) (by omega), append_assoc, singleton_append]

theorem visits_next (i : IteratorHandlerImpl) : Visits next i (i.iter.records.drop i.iter.pos) :=
  ⟨i.iter.records.length - i.iter.pos + 1, fun _ hfuel => (loop_next hfuel []).trans (by simp)⟩

theorem Visits.unique {i : IteratorHandlerImpl} {tuples tuples' : List (Bytes × Bytes)} (h : Visits move i tuples)
    (h' : Visits move i tuples') : tuples = tuples' := by
  obtain ⟨fuel, hfuel, hfuel'⟩ := Res.exists_fuel h h'
  exact Except.ok.inj (hfuel.symm.trans hfuel')

theorem visits_seekToFirst (i : IteratorHandlerImpl) : Visits next i.seekToFirst i.iter.records := visits_next i.seekToFirst

theorem visits_prev (i : IteratorHandlerImpl) :
    Visits prev i.seekToLast (i.iter.records.drop (i.iter.records.length - 1)) := visits_next i.seekToLast

theorem visits_levelPrev (i : IteratorHandlerImpl) : Visits levelPrev i.seekToLast i.iter.records.reverse := by
  obtain ⟨⟨records, pos⟩⟩ := i
  refine ⟨records.length + 2, fun fuel hfuel => ?_⟩
  by_cases hempty : records.length = 0
  · obtain rfl := length_eq_zero_iff.1 hempty
    exact Res.loop_return (by omega) (visitStep_end le_rfl _)
  · have hlast : records.length - 1 < records.length := by omega
    refine (loop_levelPrev hlast (by omega) []).trans ?_
    rw [Nat.sub_add_cancel (by omega), take_length, nil_append]

/-! ## The mirror -/

theorem mirrored_levelPrev (db : Database) : Mirrored levelPrev db where
  visits i _ := ⟨i.iter.records, visits_seekToFirst i, visits_levelPrev i⟩
  back _ _ _ _ := ⟨rfl, rfl⟩

theorem Mirrored.length_le {db : Database} (h : Mirrored prev db) : db.toList.length ≤ 1 := by
  obtain ⟨tuples, hnext, hprev⟩ := h.visits ⟨⟨db.toList, 0⟩⟩ rfl
  obtain rfl := (visits_seekToFirst _).unique hnext
  have hlength : db.toList.length - (db.toList.length - 1) = db.toList.length := by
    simpa using congrArg List.length ((visits_prev _).unique hprev)
  omega

theorem mirrored_iff (db : Database) : Mirrored prev db ↔ db.size ≤ 1 := by
  rw [← Std.ExtTreeMap.length_toList]
  refine ⟨Mirrored.length_le, fun hle => ⟨fun i hi => ⟨_, visits_seekToFirst i, ?_⟩, fun i hi _ hnext => ?_⟩⟩
  · have hreverse : db.toList.reverse = db.toList := by
      rcases Nat.le_one_iff_eq_zero_or_eq_one.1 hle with hzero | hone
      · rw [length_eq_zero_iff.1 hzero, reverse_nil]
      · obtain ⟨r, hr⟩ := length_eq_one_iff.1 hone
        rw [hr, reverse_singleton]
    have hprev := visits_prev i
    rwa [hi, Nat.sub_eq_zero_of_le hle, drop_zero, ← hreverse, ← hi] at hprev
  · have hlt : i.iter.pos + 1 < db.toList.length := hi ▸ of_decide_eq_true hnext
    omega

def twoTuples : Database := ((∅ : Database).insert [1] [10]).insert [2] [20]

/-- Forward both tuples are visited, and backward only the second one; and a step back from the second
tuple does not lead to the first one. -/
theorem not_mirrored_twoTuples :
    Visits next (seekToFirst ⟨.ofDatabase twoTuples⟩) [([1], [10]), ([2], [20])] ∧
    Visits prev (seekToLast ⟨.ofDatabase twoTuples⟩) [([2], [20])] ∧
    (prev (next ⟨⟨twoTuples.toList, 0⟩⟩)).valid = false ∧ ¬ Mirrored prev twoTuples := by
  have htoList : twoTuples.toList = [([1], [10]), ([2], [20])] := rfl
  refine ⟨?_, ?_, ?_, fun h => ?_⟩
  · exact htoList ▸ visits_seekToFirst ⟨.ofDatabase twoTuples⟩
  · exact visits_prev ⟨.ofDatabase twoTuples⟩
  · rw [htoList]
    rfl
  · exact absurd h.length_le (by rw [htoList]; decide)

end IteratorHandlerImpl

end Dbms18
