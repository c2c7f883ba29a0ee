import Dbms18.Storage.Handles
import Dbms18.Storage.HandlerCalls

/-!
# What a scan of a relation will see

`NewIterator` gives the registered iterator handler of the relation, if there is one, and otherwise a
new one over the relation's database. An iterator is a snapshot, so which records a scan sees is
settled by which of the two it is.
-/

namespace Dbms18.LevelStore

variable {s s' : LevelStore} {relid relid' : RelationId} {h : Nat}

def scanRecords (s : LevelStore) (relid : RelationId) : List (Bytes × Bytes) :=
  match (s.handlerMap .iterator relid).bind s.handlers with
  | some ⟨_, _, .iterator c⟩ => c.records
  | _ => (s.databases relid).toList

/-- What `NewIterator` leaves: the handler of the relation is in place, and other relations' handlers
and the iterators that were there are as before. -/
structure Acquired (s s' : LevelStore) (relid : RelationId) (h : Nat) : Prop where
  wf : s'.Wf
  mapped : s'.handlerMap .iterator relid = some h
  iterator : ∃ pos, s'.IterAt h ⟨s.scanRecords relid, pos⟩
  iterAt : ∀ h' c, s.IterAt h' c → s'.IterAt h' c
  handlerMap : ∀ kind relid', relid' ≠ relid → s'.handlerMap kind relid' = s.handlerMap kind relid'
  scanRecords : ∀ relid', relid' ≠ relid → s'.scanRecords relid' = s.scanRecords relid'

theorem Acquired.openable_iff (ha : Acquired s s' relid h) (hne : relid' ≠ relid) :
    s'.Openable .iterator relid' ↔ s.Openable .iterator relid' := by
  simp only [Openable, ha.handlerMap _ relid' hne]

theorem iterAt_setHandler {handler : IOHandler} {h' : Nat} {c : Cursor} (hh : s.handlers h = some handler)
    (hc : s.IterAt h' c) : (s.setHandler h handler.addRef).IterAt h' c := by
  obtain ⟨relid, reference, hc⟩ := hc
  by_cases heq : h' = h
  · subst heq
    obtain rfl := Option.some.inj (hh.symm.trans hc)
    exact ⟨relid, reference + 1, by simp [IOHandler.addRef]⟩
  · exact ⟨relid, reference, by simp [heq, hc]⟩

theorem acquired_of_mapped (hs : s.Wf) (hmap : s.handlerMap .iterator relid = some h) :
    ∃ s', s.newIterator relid = .ok (h, s') ∧ Acquired s s' relid h := by
  obtain ⟨handler, hh, hkind, hrelid⟩ := hs.live hmap
  obtain ⟨_, reference, impl⟩ := handler
  cases impl with
  | write batch => cases hkind
  | iterator c =>
    refine ⟨_, newHandler_of_mapped hmap hh, hs.setHandler hh rfl rfl, hmap, ⟨c.pos, ?_⟩,
      fun h' c' => iterAt_setHandler hh, fun _ _ _ => rfl, fun relid' hne => ?_⟩
    · have hrecords : s.scanRecords relid = c.records := by simp [LevelStore.scanRecords, hmap, hh]
      rw [hrecords]
      exact iterAt_setHandler hh ⟨_, _, hh⟩
    · -- the handler that changed belongs to another relation
      have hother : ∀ h', s.handlerMap .iterator relid' = some h' → h' ≠ h := by
        rintro h' hmap' rfl
        obtain ⟨handler', hh', -, hrelid'⟩ := hs.live hmap'
        obtain rfl := Option.some.inj (hh.symm.trans hh')
        exact hne (hrelid'.symm.trans hrelid)
      cases hmap' : s.handlerMap .iterator relid' with
      | none => simp [LevelStore.scanRecords, LevelStore.setHandler, hmap']
      | some h' => simp [LevelStore.scanRecords, LevelStore.setHandler, hmap', hother h' hmap']

theorem acquired_of_unmapped (hs : s.Wf) (hmap : s.handlerMap .iterator relid = none) (hopen : s.opened relid = false) :
    ∃ s', s.newIterator relid = .ok (s.next, s') ∧ Acquired s s' relid s.next := by
  have hold : ∀ h' handler, s.handlers h' = some handler → h' ≠ s.next :=
    fun h' handler hh => Nat.ne_of_lt (hs.lt_next hh)
  refine ⟨_, newHandler_of_unmapped hmap hopen, hs.constructed hopen, ?_, ⟨(s.databases relid).toList.length, relid, 1, ?_⟩,
    ?_, fun kind relid' hne => ?_, fun relid' hne => ?_⟩
  · simp [handlerMap_constructed]
  · simp [LevelStore.scanRecords, hmap, HandlerImpl.new, Cursor.ofDatabase]
  · rintro h' c ⟨relid', reference, hc⟩
    exact ⟨relid', reference, by simp [hold h' _ hc, hc]⟩
  · simp [handlerMap_constructed, hne]
  · cases hmap' : s.handlerMap .iterator relid' with
    | none => simp [LevelStore.scanRecords, hne, hmap', LevelStore.constructed]
    | some h' =>
      obtain ⟨handler, hh, -, -⟩ := hs.live hmap'
      simp only [LevelStore.scanRecords, handlerMap_constructed, hne, and_false, if_false, hmap', Option.bind_some,
        handlers_constructed, hold h' handler hh, hh]
      rfl

theorem exists_acquired (hs : s.Wf) (hopen : s.Openable .iterator relid) :
    ∃ h s', s.newIterator relid = .ok (h, s') ∧ Acquired s s' relid h := by
  cases hmap : s.handlerMap .iterator relid with
  | some h =>
    obtain ⟨s', hnew, ha⟩ := acquired_of_mapped hs hmap
    exact ⟨h, s', hnew, ha⟩
  | none =>
    have hclosed := (hs.openable_iff.1 hopen).resolve_left (by simp [hmap])
    obtain ⟨s', hnew, ha⟩ := acquired_of_unmapped hs hmap hclosed
    exact ⟨s.next, s', hnew, ha⟩

theorem acquired_of_newIterator (hs : s.Wf) (hnew : s.newIterator relid = .ok (h, s')) :
    s.Openable .iterator relid ∧ Acquired s s' relid h := by
  by_cases hopen : s.Openable .iterator relid
  · obtain ⟨h', s'', hnew', ha⟩ := exists_acquired hs hopen
    obtain ⟨rfl, rfl⟩ := Prod.mk.inj (Except.ok.inj (hnew.symm.trans hnew'))
    exact ⟨hopen, ha⟩
  · have hclosed := hopen
    rw [hs.openable_iff, not_or, not_not, Bool.not_eq_false] at hclosed
    cases hnew.symm.trans (newHandler_of_opened hclosed.1 hclosed.2)

end Dbms18.LevelStore
