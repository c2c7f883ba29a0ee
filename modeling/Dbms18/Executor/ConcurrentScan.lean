import Dbms18.Executor.SeqScan
import Dbms18.Lib.Run

/-!
# Two sessions that scan the same relation

Both sessions get the iterator of their `SeqScan` from `NewIterator`, which hands out one handler per
relation: the two scans move one iterator. A session's scan reads from its `Open` to the call that
returns `kStateEOF`. A scan is complete when nothing of the other session moves the iterator between
these two (`safe_of_alone`); scans that overlap can lose rows.
-/

namespace Dbms18

structure Scans where
  store : LevelStore
  scan : Peer → SeqScan
  /-- The rows returned since the session's `Open`, while it has not met the end. -/
  reading : Peer → Option (List RawTuple)
  finished : Peer → List (List RawTuple)

inductive ScanCall
  | execOpen (p : Peer)
  | getNext (p : Peer)

namespace Scans

def start (databases : RelationId → Database) (relid : RelationId) (tupleIndex : Peer → Nat) : Res Scans := do
  let (h₁, s) ← (LevelStore.started databases).newIterator relid
  let (h₂, s) ← s.newIterator relid
  return {
    store := s
    scan := fun
      | .first => ⟨h₁, tupleIndex .first⟩
      | .second => ⟨h₂, tupleIndex .second⟩
    reading := fun _ => none
    finished := fun _ => [] }

def call (w : Scans) : ScanCall → Res Scans
  | .execOpen p => do
    let (_, store) ← (w.scan p).execOpen w.store
    return { w with store, reading := Function.update w.reading p (some []) }
  | .getNext p => do
    let tupleIndex := (w.scan p).tupleIndex
    let (state, row, store) ← (w.scan p).getNext w.store (TupleRow.new (tupleIndex + 1))
    if state = .ok then
      let t ← row.getTuple tupleIndex
      return { w with store, reading := Function.update w.reading p ((w.reading p).map (· ++ [t])) }
    else
      return { w with
        store
        reading := Function.update w.reading p none
        finished := Function.update w.finished p (w.finished p ++ (w.reading p).toList) }

def storedRows (db : Database) : List RawTuple := db.toList.map fun r => Cells.ofBytes r.2

/-- Every scan that a session has completed returned the stored rows, each once and in order. -/
def Complete (db : Database) (w : Scans) : Prop := ∀ p, ∀ rows ∈ w.finished p, rows = storedRows db

/-- The other session is not in the middle of a scan, or the call leaves the iterator where it is. -/
def Alone (w : Scans) : ScanCall → Prop
  | .execOpen p => w.reading p.other = none ∨ ∀ c, w.store.iter (w.scan p).iterator = .ok c → c.pos = 0
  | .getNext p => w.reading p.other = none ∨ ∀ c, w.store.iter (w.scan p).iterator = .ok c → c.valid = false

/-- The two scans share a handler with the records of the database, and who is reading has read
exactly the records before the iterator's position. -/
structure Inv (db : Database) (w : Scans) : Prop where
  shared : ∃ h pos, (∀ p, (w.scan p).iterator = h) ∧ w.store.IterAt h ⟨db.toList, pos⟩ ∧
    ∀ p rows, w.reading p = some rows → rows = (storedRows db).take pos
  complete : Complete db w

variable {db : Database} {w : Scans}

theorem inv_start {databases : RelationId → Database} {relid : RelationId} {tupleIndex : Peer → Nat}
    (hw : start databases relid tupleIndex = .ok w) : w.Inv (databases relid) := by
  obtain ⟨⟨h₁, s₁⟩, h1, hw⟩ := Res.bind_eq_ok.1 hw
  obtain ⟨⟨h₂, s₂⟩, h2, hw⟩ := Res.bind_eq_ok.1 hw
  obtain ⟨rfl, rfl, hhandler, -⟩ := LevelStore.newHandler_twice h1 h2
  obtain rfl := Except.ok.inj hw
  refine ⟨⟨0, _, fun p => ?_, ⟨relid, 2, hhandler⟩, by simp⟩, by simp [Complete]⟩
  cases p <;> rfl

theorem Inv.execOpen (hw : w.Inv db) {p : Peer} (hg : w.Alone (.execOpen p)) :
    ∃ w', w.call (.execOpen p) = .ok w' ∧ w'.Inv db := by
  obtain ⟨⟨h, pos, hscan, hiter, hread⟩, hcomplete⟩ := hw
  rw [← hscan p] at hiter
  obtain ⟨store, hopen, hiter', -⟩ := SeqScan.execOpen_of_iterAt hiter
  refine ⟨{ w with store, reading := Function.update w.reading p (some []) }, by simp [call, hopen],
    ⟨h, 0, hscan, hscan p ▸ hiter', fun q rows hq => ?_⟩, hcomplete⟩
  rcases Peer.eq_or_eq_other p q with rfl | rfl
  · simpa using hq.symm
  · -- the other session is reading, so the iterator was already at the first record
    have hne : p.other ≠ p := by cases p <;> nofun
    simp only [Function.update_of_ne hne] at hq
    rcases hg with hg | hg
    · cases hg.symm.trans hq
    · obtain rfl : pos = 0 := hg _ (LevelStore.iter_of_iterAt hiter)
      exact hread _ _ hq

theorem Inv.getNext (hw : w.Inv db) {p : Peer} (hg : w.Alone (.getNext p)) :
    ∃ w', w.call (.getNext p) = .ok w' ∧ w'.Inv db := by
  obtain ⟨⟨h, pos, hscan, hiter, hread⟩, hcomplete⟩ := hw
  rw [← hscan p] at hiter
  have hne : p.other ≠ p := by cases p <;> nofun
  by_cases hpos : pos < db.toList.length
  · obtain ⟨⟨key, tuple⟩, hrecord⟩ : ∃ r, db.toList[pos]? = some r := ⟨_, List.getElem?_eq_getElem hpos⟩
    have hrow : (w.scan p).tupleIndex < (TupleRow.new ((w.scan p).tupleIndex + 1)).length := by simp
    obtain ⟨store, hnext, hiter', -⟩ := SeqScan.getNext_of_record hiter hrecord hrow
    refine ⟨{ w with
      store
      reading := Function.update w.reading p ((w.reading p).map (· ++ [Cells.ofBytes tuple])) }, ?_,
      ⟨h, pos + 1, hscan, hscan p ▸ hiter', fun q rows hq => ?_⟩, hcomplete⟩
    · simp [call, hnext, TupleRow.getTuple_set_self]
    · rcases Peer.eq_or_eq_other p q with rfl | rfl
      · simp only [Function.update_self, Option.map_eq_some_iff] at hq
        obtain ⟨rows, hrows, rfl⟩ := hq
        rw [hread _ _ hrows, List.take_add_one]
        simp [storedRows, hrecord]
      · simp only [Function.update_of_ne hne] at hq
        rcases hg with hg | hg
        · cases hg.symm.trans hq
        · exact absurd hpos (of_decide_eq_false (hg _ (LevelStore.iter_of_iterAt hiter)))
  · -- at the end a reader has read every record
    have hend := Nat.not_lt.1 hpos
    have hall : (storedRows db).take pos = storedRows db := List.take_of_length_le (by simpa [storedRows] using hend)
    refine ⟨{ w with
      store := w.store
      reading := Function.update w.reading p none
      finished := Function.update w.finished p (w.finished p ++ (w.reading p).toList) }, ?_,
      ⟨h, pos, hscan, hscan p ▸ hiter, fun q rows hq => ?_⟩, fun q rows hq => ?_⟩
    · simp [call, SeqScan.getNext_of_end hiter hend]
    · rcases Peer.eq_or_eq_other p q with rfl | rfl
      · simp at hq
      · exact hread _ _ (by simpa [Function.update_of_ne hne] using hq)
    · rcases Peer.eq_or_eq_other p q with rfl | rfl
      · simp only [Function.update_self, List.mem_append, Option.mem_toList] at hq
        rcases hq with hq | hq
        · exact hcomplete _ _ hq
        · exact (hread _ _ hq).trans hall
      · exact hcomplete _ _ (by simpa [Function.update_of_ne hne] using hq)

/-- In every interleaving in which no call moves the iterator under the other session's scan, every
completed scan returned the stored rows, each once and in order. -/
theorem safe_of_alone {databases : RelationId → Database} {relid : RelationId} {tupleIndex : Peer → Nat}
    (hw : start databases relid tupleIndex = .ok w) (calls : List ScanCall)
    (h : Run.Guarded call Alone w calls) : Run.Safe call (Complete (databases relid)) w calls := by
  refine (Run.safe_of_guarded (fun w c hw hg => ?_) (inv_start hw) h).imp fun _ => Inv.complete
  cases c with
  | execOpen p => exact hw.execOpen hg
  | getNext p => exact hw.getNext hg

/-- Two scans of a relation with one row, one after the other. -/
theorem safe_sequential_scans :
    ∃ w, start (fun _ => (∅ : Database).insert [1] [5]) 7 (fun _ => 0) = .ok w ∧
      Run.Safe call (Complete ((∅ : Database).insert [1] [5])) w
        [.execOpen .first, .getNext .first, .getNext .first,
          .execOpen .second, .getNext .second, .getNext .second] := by
  have hw : start (fun _ => (∅ : Database).insert [1] [5]) 7 (fun _ => 0) = .ok _ := rfl
  exact ⟨_, hw, safe_of_alone hw _
    (.cons (Or.inl rfl) rfl <| .cons (Or.inl rfl) rfl <| .cons (Or.inl rfl) rfl <|
      .cons (Or.inl rfl) rfl <| .cons (Or.inl rfl) rfl <| .cons (Or.inl rfl) rfl trivial)⟩

/-- Two overlapping scans of a relation with one row: the second session meets the end without
having been given the row. -/
theorem not_safe_overlapping_scans :
    ∃ w, start (fun _ => (∅ : Database).insert [1] [5]) 7 (fun _ => 0) = .ok w ∧
      ¬ Run.Safe call (Complete ((∅ : Database).insert [1] [5])) w
        [.execOpen .first, .execOpen .second, .getNext .first, .getNext .second] := by
  refine ⟨_, rfl, Run.not_safe_of_exec_ok rfl fun hcomplete => ?_⟩
  exact absurd (hcomplete .second [] (by decide)) (by decide)

end Scans

end Dbms18
