import Dbms18.Storage.Handles
import Dbms18.Storage.HandlerCalls

/-!
# Two sessions that write to the same relation

`COPY FROM` obtains the write handler of its relation, puts its rows one by one, commits at the end
and releases the handler; a line it cannot read ends it before the commit. `INSERT` does the same with
one row. `NewWriteHandler` hands out one handler per relation, and the batch is part of the handler: a
`Commit` writes whatever has been put into it, by whichever statement, and leaves it there. The rows of
a statement stay out of the database until its own commit exactly when no commit of another statement
succeeds while they are in the batch (`safe_iff_noForeignRows`); the batch is lost only with the
handler, when nobody holds it any more. A batch is written atomically: a commit that fails writes
nothing.
-/

namespace Dbms18

open List Overlay

namespace LevelStore

variable {S : Type} {s : LevelStore} {held : List (S × Nat)} {h : Nat} {relid : RelationId} {batch : List WriteOp}

theorem writerAt_of_mapped (hs : s.Wf) (hmap : s.handlerMap .write relid = some h) :
    s.WriterAt h relid (s.pending relid) := by
  obtain ⟨⟨relid', reference, impl⟩, hh, hkind, rfl⟩ := hs.live hmap
  cases impl with
  | iterator c => cases hkind
  | write batch => exact ⟨reference, by simp [pending, hmap, hh]⟩

theorem pending_of_writerAt (hmap : s.handlerMap .write relid = some h) (hw : s.WriterAt h relid batch) :
    s.pending relid = batch := by
  obtain ⟨reference, hh⟩ := hw
  simp [pending, hmap, hh]

theorem pending_of_unmapped (hmap : s.handlerMap .write relid = none) : s.pending relid = [] := by
  simp [pending, hmap]

theorem Counted.setWriter_of_mapped (hs : s.Counted held) (hmap : s.handlerMap .write relid = some h) (w : WriteHandlerImpl) :
    ∃ s', s.setWriter h w = .ok s' ∧ s'.Counted held ∧ s'.handlerMap = s.handlerMap ∧ s'.pending relid = w.batch ∧
      s'.databases = Function.update s.databases relid w.db := by
  obtain ⟨reference, hh⟩ := writerAt_of_mapped hs.toWf hmap
  have hs' : (s.setHandler h ⟨relid, reference, .write w.batch⟩).Counted held := hs.setHandler hh rfl rfl rfl
  refine ⟨{ s.setHandler h ⟨relid, reference, .write w.batch⟩ with databases := Function.update s.databases relid w.db },
    by simp [LevelStore.setWriter, hh], ⟨hs'.toWf.setDatabases _, hs'.reference_eq, hs'.held_live⟩, rfl, ?_, rfl⟩
  exact pending_of_writerAt hmap ⟨reference, by simp [LevelStore.setHandler]⟩

theorem Counted.deleteWriter [DecidableEq S] {x : S} (hs : s.Counted held) (hx : (x, h) ∈ held)
    (hmap : s.handlerMap .write relid = some h) :
    ∃ s', s.deleteIOObject h = .ok s' ∧ s'.Counted (held.erase (x, h)) ∧ s'.databases = s.databases ∧
      s'.handlerMap .iterator = s.handlerMap .iterator ∧
      (s'.handlerMap .write relid = some h ∧ s'.pending relid = s.pending relid ∨
        s'.pending relid = [] ∧ ∀ y ∈ held.erase (x, h), y.2 ≠ h) := by
  obtain ⟨reference, hh⟩ := writerAt_of_mapped hs.toWf hmap
  have hs₁ := hs.subRef hh hx
  have hh₁ : (s.setHandler h (IOHandler.subRef ⟨relid, reference, .write (s.pending relid)⟩)).handlers h =
      some ⟨relid, reference - 1, .write (s.pending relid)⟩ := by simp [IOHandler.subRef]
  by_cases hzero : reference - 1 = 0
  · have hfree := (hs₁.reference_eq_zero_iff hh₁).1 hzero
    refine ⟨_, ?_, hs₁.erased hh₁ hfree, rfl, ?_, .inr ⟨pending_of_unmapped ?_, hfree⟩⟩
    · simp [LevelStore.deleteIOObject, subRef_of_live hh, ref_of_live hh₁, hzero, eraseAndDelete_of_mapped hh₁ (hs₁.mapped hh₁)]
    · funext relid'
      exact (handlerMap_erased ..).trans (if_neg (by rintro ⟨⟨⟩, -⟩))
    · exact (handlerMap_erased ..).trans (if_pos ⟨rfl, rfl⟩)
  · refine ⟨_, ?_, hs₁, rfl, rfl, .inl ⟨hmap, pending_of_writerAt hmap ⟨_, hh₁⟩⟩⟩
    simp [LevelStore.deleteIOObject, subRef_of_live hh, ref_of_live hh₁, hzero]

end LevelStore

structure Writers where
  store : LevelStore
  /-- The write handlers the running statements hold. -/
  held : List (Peer × Nat)
  /-- The keys the running statement of the session has put and not committed. -/
  pending : Peer → List Bytes
  /-- The keys of the statements that have ended without committing them. -/
  failed : List Bytes
  /-- The keys of the relation and the keys `GenUUID` has returned. -/
  used : List Bytes

inductive WriterStep
  | start (p : Peer)
  | put (p : Peer) (uuid tuple : Bytes)
  | commit (p : Peer) (ok : Bool)
  | finish (p : Peer)

namespace Writers

def init (databases : RelationId → Database) (relid : RelationId) : Writers where
  store := .started databases
  held := []
  pending _ := []
  failed := []
  used := (databases relid).keys

def handle (w : Writers) (p : Peer) : Option Nat := (w.held.find? (·.1 = p)).map Prod.snd

/-- A session runs one statement at a time, and puts, commits and finishes only in one. `GenUUID` does not repeat a
key: a `put` with a used key is not a step that is taken. A `COPY` that fails finishes without a commit. -/
def step (relid : RelationId) (w : Writers) : WriterStep → Res Writers
  | .start p =>
    match w.handle p with
    | some _ => return w
    | none => do
      let (h, store) ← w.store.newWriteHandler relid
      return { w with store, held := (p, h) :: w.held }
  | .put p uuid tuple =>
    match w.handle p with
    | none => return w
    | some h =>
      if uuid ∈ w.used then return w
      else do
        let store ← w.store.put h uuid tuple
        return { w with
          store
          pending := Function.update w.pending p (w.pending p ++ [uuid])
          used := w.used ++ [uuid] }
  | .commit p ok =>
    match w.handle p with
    | none => return w
    | some h => do
      let (done, store) ← w.store.commit h (if ok then .ok else .failed 0)
      return { w with store, pending := if done then Function.update w.pending p [] else w.pending }
  | .finish p =>
    match w.handle p with
    | none => return w
    | some h => do
      let store ← w.store.deleteIOObject h
      return { w with
        store
        held := w.held.erase (p, h)
        pending := Function.update w.pending p []
        failed := w.failed ++ w.pending p }

/-- No row is in the database that its own statement has not committed: not yet, or not at all. -/
def Isolated (relid : RelationId) (w : Writers) : Prop :=
  (∀ p, ∀ key ∈ w.pending p, (w.store.databases relid)[key]? = none) ∧
    ∀ key ∈ w.failed, (w.store.databases relid)[key]? = none

/-- When a commit succeeds, the other session has no row that it has put and not committed, and no row of a
statement that has failed is in the handler's batch. -/
def NoForeignRows (relid : RelationId) (w : Writers) : WriterStep → Prop
  | .start _ => True
  | .put _ _ _ => True
  | .commit p ok => ok = true → w.handle p ≠ none →
    w.pending p.other = [] ∧ ∀ key ∈ w.failed, key ∉ (w.store.pending relid).map Op.key
  | .finish _ => True

/-- The statements hold the relation's one write handler; its batch is of puts with used keys, among them all the
pending ones. -/
structure Inv (relid : RelationId) (w : Writers) : Prop where
  counted : w.store.Counted w.held
  mapped : ∀ x ∈ w.held, w.store.handlerMap .write relid = some x.2
  unread : w.store.handlerMap .iterator relid = none
  idle : ∀ p, w.handle p = none → w.pending p = []
  puts : ∀ op ∈ w.store.pending relid, op.value ≠ none
  batch_used : ∀ op ∈ w.store.pending relid, op.key ∈ w.used
  collected : ∀ p, ∀ key ∈ w.pending p, key ∈ (w.store.pending relid).map Op.key
  stored_used : ∀ key, (w.store.databases relid)[key]? ≠ none → key ∈ w.used

variable {relid : RelationId} {w : Writers} {p : Peer} {h : Nat}

theorem mem_held_of_handle (hp : w.handle p = some h) : (p, h) ∈ w.held := by
  obtain ⟨⟨q, h'⟩, hfind, rfl⟩ := Option.map_eq_some_iff.1 hp
  obtain rfl : q = p := by simpa using find?_some hfind
  exact mem_of_find?_eq_some hfind

theorem handle_eq_none_iff : w.handle p = none ↔ ∀ h, (p, h) ∉ w.held := by
  simp only [handle, Option.map_eq_none_iff, find?_eq_none, decide_eq_true_eq, Prod.forall]
  exact ⟨fun hp h hmem => hp p h hmem rfl, fun hp q h hmem heq => hp h (heq ▸ hmem)⟩

theorem inv_init (databases : RelationId → Database) (relid : RelationId) : (init databases relid).Inv relid where
  counted := LevelStore.counted_started databases
  mapped := by simp [init]
  unread := rfl
  idle _ _ := rfl
  puts := by simp [init, LevelStore.pending, LevelStore.started]
  batch_used := by simp [init, LevelStore.pending, LevelStore.started]
  collected := by simp [init]
  stored_used key hkey :=
    Std.ExtTreeMap.mem_keys.2 (Std.ExtTreeMap.mem_iff_isSome_getElem?.2 (Option.isSome_iff_ne_none.2 hkey))

theorem isolated_init (databases : RelationId → Database) (relid : RelationId) : (init databases relid).Isolated relid :=
  ⟨by simp [init], by simp [init]⟩

section Steps

variable (hw : w.Inv relid)

include hw

theorem Inv.start (hrel : relid ≠ sysRelation) (hattr : relid ≠ sysAttribute) (p : Peer) :
    ∃ w', w.step relid (.start p) = .ok w' ∧ w'.Inv relid ∧ (w.Isolated relid → w'.Isolated relid) := by
  cases hp : w.handle p with
  | some h => exact ⟨w, by simp [step, hp], hw, id⟩
  | none =>
    have hopen : w.store.Openable .write relid := .inr ⟨hw.unread, hrel, hattr⟩
    obtain ⟨-, h, store, hnew, hcounted, -, -⟩ | ⟨hclosed, -⟩ := hw.counted.newHandler .write relid p
    case inr => exact absurd hopen hclosed
    have hdb := LevelStore.databases_newHandler hnew
    have hwriter := LevelStore.writerAt_newWriteHandler hw.counted.toWf hnew
    have hmap : store.handlerMap .write relid = some h := by
      obtain ⟨reference, hh⟩ := hwriter
      exact hcounted.mapped hh
    have hpending := LevelStore.pending_of_writerAt hmap hwriter
    refine ⟨{ w with store, held := (p, h) :: w.held }, ?_, ⟨hcounted, ?_, ?_, ?_, ?_, ?_, ?_, ?_⟩, ?_⟩
    · rw [step, hp]
      exact congrArg (· >>= _) hnew
    · intro x hx
      rcases mem_cons.1 hx with rfl | hx
      · exact hmap
      · -- the handler that is held already is the one that is handed out
        have hheld := hw.mapped x hx
        obtain ⟨y, hy, -⟩ := hw.counted.live hheld
        have heq := hnew.symm.trans (LevelStore.newHandler_of_mapped hheld hy)
        rw [← (Prod.mk.inj (Except.ok.inj heq)).1]
        exact hmap
    · exact (hcounted.exclusive hmap).2.2
    · intro q hq
      refine hw.idle q (handle_eq_none_iff.2 fun h' hmem => ?_)
      exact handle_eq_none_iff.1 hq h' (mem_cons_of_mem _ hmem)
    · simpa only [hpending] using hw.puts
    · simpa only [hpending] using hw.batch_used
    · simpa only [hpending] using hw.collected
    · simpa only [hdb] using hw.stored_used
    · simp only [Isolated, hdb, imp_self]

theorem Inv.put (p : Peer) (uuid tuple : Bytes) :
    ∃ w', w.step relid (.put p uuid tuple) = .ok w' ∧ w'.Inv relid ∧ (w.Isolated relid → w'.Isolated relid) := by
  cases hp : w.handle p with
  | none => exact ⟨w, by simp [step, hp], hw, id⟩
  | some h =>
    by_cases hused : uuid ∈ w.used
    · exact ⟨w, by simp [step, hp, hused], hw, id⟩
    have hmap := hw.mapped _ (mem_held_of_handle hp)
    have hwriter := LevelStore.writer_of_writerAt (LevelStore.writerAt_of_mapped hw.counted.toWf hmap)
    obtain ⟨store, hstore, hcounted, hmaps, hpending, hdb⟩ := hw.counted.setWriter_of_mapped hmap
      (WriteHandlerImpl.put ⟨w.store.databases relid, w.store.pending relid⟩ uuid tuple)
    replace hdb : store.databases = w.store.databases := hdb.trans (Function.update_eq_self ..)
    let w' : Writers := { w with
      store
      pending := Function.update w.pending p (w.pending p ++ [uuid])
      used := w.used ++ [uuid] }
    have hrows : ∀ q, ∀ key ∈ w'.pending q, key ∈ w.pending q ∨ key = uuid := by
      intro q key hkey
      by_cases hq : q = p
      · subst hq
        simpa [w'] using hkey
      · exact .inl (by simpa [w', hq] using hkey)
    refine ⟨w', ?_, ⟨hcounted, ?_, ?_, ?_, ?_, ?_, ?_, ?_⟩, fun hiso => ⟨fun q key hkey => ?_, ?_⟩⟩
    · simp [step, hp, hused, LevelStore.put, hwriter, hstore, w']
    · simpa only [w', hmaps] using hw.mapped
    · simpa only [w', hmaps] using hw.unread
    · intro q hq
      have hne : q ≠ p := by
        rintro rfl
        cases hp.symm.trans hq
      simpa [w', hne] using hw.idle q hq
    · simp only [w', hpending, WriteHandlerImpl.put, mem_append, mem_singleton]
      rintro op (hop | rfl)
      · exact hw.puts op hop
      · intro hnone
        cases hnone
    · simp only [w', hpending, WriteHandlerImpl.put, mem_append, mem_singleton]
      rintro op (hop | rfl)
      · exact .inl (hw.batch_used op hop)
      · exact .inr rfl
    · intro q key hkey
      simp only [w', hpending, WriteHandlerImpl.put, map_append, mem_append]
      rcases hrows q key hkey with hkey | rfl
      · exact .inl (hw.collected q key hkey)
      · exact .inr (by simp [Op.key])
    · intro key hkey
      simp only [w', hdb] at hkey
      exact mem_append_left _ (hw.stored_used key hkey)
    · simp only [w', hdb]
      rcases hrows q key hkey with hkey | rfl
      · exact hiso.1 q key hkey
      · by_contra hne
        exact hused (hw.stored_used key hne)
    · simpa only [w', hdb] using hiso.2

theorem Inv.commit_failed (hp : w.handle p = some h) : ∃ w', w.step relid (.commit p false) = .ok w' ∧ w'.Inv relid ∧
    (w.Isolated relid → w'.Isolated relid) := by
  have hmap := hw.mapped _ (mem_held_of_handle hp)
  have hwriter := LevelStore.writer_of_writerAt (LevelStore.writerAt_of_mapped hw.counted.toWf hmap)
  obtain ⟨store, hstore, hcounted, hmaps, hpending, hdb⟩ := hw.counted.setWriter_of_mapped hmap
    (WriteHandlerImpl.commit ⟨w.store.databases relid, w.store.pending relid⟩ (.failed 0)).1
  replace hdb : store.databases = w.store.databases := hdb.trans (Function.update_eq_self ..)
  replace hpending : store.pending relid = w.store.pending relid := hpending
  refine ⟨{ w with store }, ?_, ⟨hcounted, ?_, ?_, hw.idle, ?_, ?_, ?_, ?_⟩, fun hiso => ?_⟩
  · rw [WriteHandlerImpl.commit] at hstore
    simp [step, hp, LevelStore.commit, hwriter, WriteHandlerImpl.commit, hstore]
  · simpa only [hmaps] using hw.mapped
  · simpa only [hmaps] using hw.unread
  · simpa only [hpending] using hw.puts
  · simpa only [hpending] using hw.batch_used
  · simpa only [hpending] using hw.collected
  · simpa only [hdb] using hw.stored_used
  · simpa only [Isolated, hdb] using hiso

theorem Inv.commit_ok (hp : w.handle p = some h) : ∃ w', w.step relid (.commit p true) = .ok w' ∧ w'.Inv relid ∧
    (w.Isolated relid → (w'.Isolated relid ↔
      w.pending p.other = [] ∧ ∀ key ∈ w.failed, key ∉ (w.store.pending relid).map Op.key)) := by
  have hmap := hw.mapped _ (mem_held_of_handle hp)
  have hwriter := LevelStore.writer_of_writerAt (LevelStore.writerAt_of_mapped hw.counted.toWf hmap)
  obtain ⟨store, hstore, hcounted, hmaps, hpending, hdb⟩ := hw.counted.setWriter_of_mapped hmap
    (WriteHandlerImpl.commit ⟨w.store.databases relid, w.store.pending relid⟩ .ok).1
  replace hpending : store.pending relid = w.store.pending relid := hpending
  have hrow : ∀ key, (w.store.databases relid)[key]? = none →
      ((store.databases relid)[key]? = none ↔ key ∉ (w.store.pending relid).map Op.key) := fun key hkey => by
    rw [hdb, Function.update_self]
    exact getElem?_overlay_eq_none_iff hw.puts hkey
  have hne : p.other ≠ p := by cases p <;> decide
  let w' : Writers := { w with store, pending := Function.update w.pending p [] }
  have hrows : ∀ q, ∀ key, key ∈ w'.pending q ↔ q = p.other ∧ key ∈ w.pending q := by
    intro q key
    rcases Peer.eq_or_eq_other p q with rfl | rfl
    · simp [w', hne.symm]
    · simp [w', hne]
  refine ⟨w', ?_, ⟨hcounted, ?_, ?_, fun q hq => ?_, ?_, ?_, fun q key hkey => ?_, fun key hkey => ?_⟩, fun hiso => ?_⟩
  · rw [WriteHandlerImpl.commit] at hstore
    simp [step, hp, LevelStore.commit, hwriter, WriteHandlerImpl.commit, hstore, w']
  · simpa only [w', hmaps] using hw.mapped
  · simpa only [w', hmaps] using hw.unread
  · refine eq_nil_iff_forall_not_mem.2 fun key hkey => ?_
    have hmem := ((hrows q key).1 hkey).2
    rw [hw.idle q hq] at hmem
    cases hmem
  · simpa only [w', hpending] using hw.puts
  · simpa only [w', hpending] using hw.batch_used
  · simp only [w', hpending]
    exact hw.collected q key ((hrows q key).1 hkey).2
  · -- a stored key was stored before or is one of the batch
    by_contra hunused
    have hold : (w.store.databases relid)[key]? = none := by
      by_contra hold
      exact hunused (hw.stored_used key hold)
    refine hkey ((hrow key hold).2 fun hmem => ?_)
    obtain ⟨op, hop, rfl⟩ := mem_map.1 hmem
    exact hunused (hw.batch_used op hop)
  · -- the pending rows that remain are the other session's
    constructor
    · intro hiso'
      refine ⟨eq_nil_iff_forall_not_mem.2 fun key hkey => ?_, fun key hkey => ?_⟩
      · have hstored := hiso'.1 p.other key ((hrows _ key).2 ⟨rfl, hkey⟩)
        exact (hrow key (hiso.1 _ key hkey)).1 hstored (hw.collected _ key hkey)
      · exact (hrow key (hiso.2 key hkey)).1 (hiso'.2 key hkey)
    · rintro ⟨hnone, hfailed⟩
      refine ⟨fun q key hkey => ?_, fun key hkey => ?_⟩
      · obtain ⟨rfl, hkey⟩ := (hrows q key).1 hkey
        rw [hnone] at hkey
        cases hkey
      · exact (hrow key (hiso.2 key hkey)).2 (hfailed key hkey)

theorem Inv.finish (p : Peer) :
    ∃ w', w.step relid (.finish p) = .ok w' ∧ w'.Inv relid ∧ (w.Isolated relid → w'.Isolated relid) := by
  cases hp : w.handle p with
  | none => exact ⟨w, by simp [step, hp], hw, id⟩
  | some h =>
    have hheld := mem_held_of_handle hp
    have hmap := hw.mapped _ hheld
    obtain ⟨store, hstore, hcounted, hdb, hiter, hafter⟩ := hw.counted.deleteWriter hheld hmap
    let w' : Writers := { w with
      store
      held := w.held.erase (p, h)
      pending := Function.update w.pending p []
      failed := w.failed ++ w.pending p }
    have hrows : ∀ q, ∀ key ∈ w'.pending q, q ≠ p ∧ key ∈ w.pending q := by
      intro q key hkey
      by_cases hq : q = p
      · subst hq
        simp [w'] at hkey
      · exact ⟨hq, by simpa [w', hq] using hkey⟩
    have hidle : ∀ q, w'.handle q = none → w'.pending q = [] := by
      intro q hq
      refine eq_nil_iff_forall_not_mem.2 fun key hkey => ?_
      obtain ⟨hne, hkey⟩ := hrows q key hkey
      rw [hw.idle q (handle_eq_none_iff.2 fun h' hmem => ?_)] at hkey
      · cases hkey
      · refine handle_eq_none_iff.1 hq h' ((mem_erase_of_ne ?_).2 hmem)
        exact fun heq => hne (Prod.mk.inj heq).1
    refine ⟨w', by simp [step, hp, hstore, w'], ?_, fun hiso => ⟨fun q key hkey => ?_, fun key hkey => ?_⟩⟩
    · have hunread : store.handlerMap .iterator relid = none := (congrFun hiter relid).trans hw.unread
      have hstored : ∀ key, (store.databases relid)[key]? ≠ none → key ∈ w.used := by simpa only [hdb] using hw.stored_used
      obtain ⟨hmap', hpending⟩ | ⟨hpending, hfree⟩ := hafter
      · refine ⟨hcounted, fun x hx => ?_, hunread, hidle, ?_, ?_, fun q key hkey => ?_, hstored⟩
        · rw [hmap', ← hmap]
          exact hw.mapped x (mem_of_mem_erase hx)
        · simpa only [w', hpending] using hw.puts
        · simpa only [w', hpending] using hw.batch_used
        · simp only [w', hpending]
          exact hw.collected q key (hrows q key hkey).2
      · -- all handles are to the one handler, so none is left
        have hnone : ∀ x, x ∉ w'.held := fun x hx => by
          have hx' := hw.mapped x (mem_of_mem_erase hx)
          exact hfree x hx (Option.some.inj (hx'.symm.trans hmap))
        refine ⟨hcounted, fun x hx => absurd hx (hnone x), hunread, hidle, ?_, ?_, fun q key hkey => ?_, hstored⟩
        · simp [w', hpending]
        · simp [w', hpending]
        · rw [hidle q (handle_eq_none_iff.2 fun h' => hnone _)] at hkey
          cases hkey
    · simp only [w', hdb]
      exact hiso.1 q key (hrows q key hkey).2
    · simp only [w', hdb]
      rcases mem_append.1 hkey with hkey | hkey
      · exact hiso.2 key hkey
      · exact hiso.1 p key hkey

theorem Inv.step (hrel : relid ≠ sysRelation) (hattr : relid ≠ sysAttribute) (a : WriterStep) :
    ∃ w', w.step relid a = .ok w' ∧ w'.Inv relid ∧ (w.Isolated relid → (w'.Isolated relid ↔ w.NoForeignRows relid a)) := by
  -- only a commit that succeeds has a condition
  have hfree : ∀ {a}, w.NoForeignRows relid a →
      (∃ w', w.step relid a = .ok w' ∧ w'.Inv relid ∧ (w.Isolated relid → w'.Isolated relid)) →
      ∃ w', w.step relid a = .ok w' ∧ w'.Inv relid ∧ (w.Isolated relid → (w'.Isolated relid ↔ w.NoForeignRows relid a)) :=
    fun hguard ⟨w', hw', hinv, hiso⟩ => ⟨w', hw', hinv, fun h => iff_of_true (hiso h) hguard⟩
  cases a with
  | start p => exact hfree trivial (hw.start hrel hattr p)
  | put p uuid tuple => exact hfree trivial (hw.put p uuid tuple)
  | finish p => exact hfree trivial (hw.finish p)
  | commit p ok =>
    cases hp : w.handle p with
    | none => exact hfree (fun _ hne => absurd hp hne) ⟨w, by simp [Writers.step, hp], hw, id⟩
    | some h =>
      cases ok with
      | false => exact hfree (by rintro ⟨⟩) (hw.commit_failed hp)
      | true =>
        obtain ⟨w', hw', hinv, hiff⟩ := hw.commit_ok hp
        refine ⟨w', hw', hinv, fun hiso => (hiff hiso).trans ?_⟩
        simp [NoForeignRows, hp]

end Steps

/-- In a run of the two sessions a row is in the database only after its own statement's commit, and the rows of a
statement that fails never, exactly when no commit succeeds while the batch holds rows of another statement that
are not committed. -/
theorem safe_iff_noForeignRows (databases : RelationId → Database) (hrel : relid ≠ sysRelation)
    (hattr : relid ≠ sysAttribute) (steps : List WriterStep) :
    Run.Safe (step relid) (Isolated relid) (init databases relid) steps ↔
      Run.Guarded (step relid) (NoForeignRows relid) (init databases relid) steps := by
  refine (Run.safe_and_iff (fun w a w' hw hw' => ?_) (inv_init databases relid)).trans
    (Run.safe_iff_guarded (fun w a ⟨hiso, hinv⟩ => ?_) ⟨isolated_init databases relid, inv_init databases relid⟩)
  · obtain ⟨w'', hw'', hinv, -⟩ := Inv.step hw hrel hattr a
    exact Except.ok.inj (hw'.symm.trans hw'') ▸ hinv
  · obtain ⟨w', hw', hinv', hiff⟩ := Inv.step hinv hrel hattr a
    refine ⟨fun hg => ⟨w', hw', (hiff hiso).2 hg, hinv'⟩, fun ⟨w'', hw'', hiso'', _⟩ => (hiff hiso).1 ?_⟩
    exact Except.ok.inj (hw'.symm.trans hw'') ▸ hiso''

/-- A `COPY` that fails and releases its handler before the next statement begins, and two statements one after
the other in one handler. -/
theorem safe_sequential_writers :
    Run.Safe (step 7) (Isolated 7) (init (fun _ => ∅) 7)
      [.start .first, .put .first [1] [5], .finish .first, .start .first, .start .second,
        .put .first [2] [5], .commit .first true, .put .second [3] [6], .commit .second true] := by
  refine (safe_iff_noForeignRows (fun _ => ∅) (by decide) (by decide) _).2 ?_
  refine .cons trivial rfl <| .cons trivial rfl <| .cons trivial rfl <| .cons trivial rfl <| .cons trivial rfl <|
    .cons trivial rfl <| .cons ?_ rfl <| .cons trivial rfl <| .cons ?_ rfl trivial
  · exact fun _ _ => ⟨rfl, by decide⟩
  · exact fun _ _ => ⟨rfl, by decide⟩

/-- A `COPY` puts a row and fails while an `INSERT` of the other session runs: the `INSERT` commits the row of the
failed `COPY`. -/
theorem not_safe_commit_of_foreign_row :
    ¬ Run.Safe (step 7) (Isolated 7) (init (fun _ => ∅) 7)
      [.start .first, .put .first [1] [5], .start .second, .finish .first, .put .second [2] [6], .commit .second true] := by
  refine Run.not_safe_of_exec_ok rfl fun hiso => ?_
  exact absurd (hiso.2 [1] (by decide)) (by decide)

end Writers

end Dbms18
