import Dbms18.LevelDb.Compaction
import Dbms18.LevelDb.Snapshots

/-!
# The database with compactions (`DBImpl` in `db/db_impl.cc`)

The tables that memtables become go into the levels, and compactions move what is in the levels down. A compaction is
picked, works through its inputs entry by entry and installs its outputs; between any two of these steps writers may
write and a memtable may become a table in a level that the compaction did not know of. Whatever the order of the
steps, nothing goes wrong, and an iterator of the database does what a cursor of it does (`compacted_refines_cursor`):
no reader notices which entries the compactions dropped.

An iterator reads at the last sequence number: nothing in the repository calls `GetSnapshot`, so the list of snapshots
is always empty.
-/

namespace Dbms18.LevelDb

open List Std Iter Versions

/-- The lists that the iterators of `AddIterators` go through. -/
def Version.addIterators (v : Version) : List (List Entry) :=
  (List.range kNumLevels).flatMap fun level => levelEntries level (v.files level)

/-- The fields of `DBImpl` and `VersionSet`, and the compaction that is underway. -/
structure DbImpl where
  queue : WriteQueue
  current : Version
  nextFileNumber : Nat
  compaction : Option CompactionState

namespace DbImpl

def new : DbImpl := ⟨.new, .new, 2, none⟩

def writeLevel0Table (sizes : Sizes) (db : DbImpl) (es : List Entry) : Res DbImpl := do
  let f ← sizes.table db.nextFileNumber es
  let level := db.current.pickLevelForMemTableOutput sizes f.smallest.userKey f.largest.userKey
  return { db with current := ← (flushEdit level f).apply db.current, nextFileNumber := db.nextFileNumber + 1 }

/-- A step of the writers or of `CompactMemTable`; what has become a table goes into a level. -/
def stepQueue (sizes : Sizes) (db : DbImpl) (ev : WriteQueue.Event) : Res DbImpl := do
  let queue ← db.queue.step ev
  (queue.tables.drop db.queue.tables.length).foldlM (writeLevel0Table sizes) { db with queue }

def recordBackgroundError (db : DbImpl) (s : Status) : DbImpl := { db with queue := db.queue.recordBackgroundError s }

/-- `BackgroundCompaction`, when the file at `i` of the level is the one to compact; `LogAndApply`, if it is called, gives
`s`. While a memtable is put aside there is no compaction, and no file of the last level is chosen. -/
def pick (sizes : Sizes) (db : DbImpl) (level i : Nat) (s : Status) : Res DbImpl :=
  if db.queue.bgError ≠ .ok ∨ db.queue.imm.isSome ∨ db.compaction.isSome ∨ kNumLevels ≤ level + 1 then
    return db
  else
    match (db.current.files level)[i]? with
    | none => return db
    | some f => do
      let c ← db.current.pickCompaction sizes level f
      if c.isTrivialMove sizes then
        if s = .ok then
          return { db with current := ← (c.edit c.inputs0).apply db.current }
        else
          return db.recordBackgroundError s
      else
        Res.check (db.current.files c.level ≠ []) .assertion
        return { db with compaction := some (← CompactionState.start c db.queue.lastSequence) }

/-- A pass of the loop of `DoCompactionWork`. -/
def work (sizes : Sizes) (db : DbImpl) : Res DbImpl :=
  match db.compaction with
  | none => return db
  | some st =>
    if inputIter.valid st.input then do
      let worked ← st.work sizes db.nextFileNumber
      return { db with compaction := some worked.1, nextFileNumber := worked.2 }
    else
      return db

/-- The end of `DoCompactionWork`, when the loop is over; `LogAndApply` gives `s`. -/
def install (sizes : Sizes) (db : DbImpl) (s : Status) : Res DbImpl :=
  match db.compaction with
  | none => return db
  | some st =>
    if inputIter.valid st.input then
      return db
    else do
      let outputs ← st.finish sizes
      if s = .ok then
        return { db with current := ← (st.compaction.edit outputs).apply db.current, compaction := none }
      else
        return { db.recordBackgroundError s with compaction := none }

inductive Event
  | queue (ev : WriteQueue.Event)
  /-- A number is taken for a file that is not a table. -/
  | newFileNumber
  | pick (level i : Nat) (s : Status)
  | work
  | install (s : Status)
  /-- A file of the compaction could not be read, written or closed. -/
  | abandon (s : Status)

def step (sizes : Sizes) (db : DbImpl) : Event → Res DbImpl
  | .queue ev => db.stepQueue sizes ev
  | .newFileNumber => return { db with nextFileNumber := db.nextFileNumber + 1 }
  | .pick level i s => db.pick sizes level i s
  | .work => db.work sizes
  | .install s => db.install sizes s
  | .abandon s => return { db.recordBackgroundError s with compaction := none }

def arrival : Event → List Writer
  | .queue ev => WriteQueue.arrival ev
  | .newFileNumber => []
  | .pick _ _ _ => []
  | .work => []
  | .install _ => []
  | .abandon _ => []

/-! ## The levels -/

/-- A compaction of files of the version: how far it is, and that the numbers of its tables are its own. -/
inductive Underway (v : Version) (nextFileNumber : Nat) (st : CompactionState) : Prop
  | mk {c : Compaction} {all : Span Bytes} {es A B : List Entry} (working : Working c es A B st) (inOrder : InOrder es)
      (parse : ∀ e ∈ es, e.1.parse ≠ none) (perm : es.Perm ((c.inputs0 ++ c.inputs1).flatMap FileMetaData.entries))
      (inputVersion : c.inputVersion.Ok) (chosen : Chosen v c all) (nodup : st.out.numbers.Nodup)
      (less : ∀ n ∈ st.out.numbers, n < nextFileNumber)
      (fresh : ∀ n ∈ st.out.numbers, ∀ i, ∀ g ∈ v.files i, g.number ≠ n) : Underway v nextFileNumber st

structure LevelsOk (T : List Entry) (db : DbImpl) : Prop where
  ok : db.current.Ok
  keeps : db.current.Keeps T
  less : ∀ i, ∀ f ∈ db.current.files i, f.number < db.nextFileNumber
  underway : ∀ st ∈ db.compaction, Underway db.current db.nextFileNumber st

variable (sizes : Sizes) {db : DbImpl} {T es : List Entry}

theorem levelsOk_new : LevelsOk [] new :=
  ⟨Version.ok_new, Version.keeps_new, fun _ _ hf => absurd hf not_mem_nil, fun _ h => absurd h (Option.not_mem_none _)⟩

theorem LevelsOk.of_queue (h : LevelsOk T db) (queue : WriteQueue) : LevelsOk T { db with queue } :=
  ⟨h.ok, h.keeps, h.less, h.underway⟩

theorem LevelsOk.without (h : LevelsOk T db) (queue : WriteQueue) : LevelsOk T { db with queue, compaction := none } :=
  ⟨h.ok, h.keeps, h.less, fun _ h => absurd h (Option.not_mem_none _)⟩

theorem LevelsOk.newFileNumber (h : LevelsOk T db) : LevelsOk T { db with nextFileNumber := db.nextFileNumber + 1 } := by
  refine ⟨h.ok, h.keeps, fun i f hf => Nat.lt_succ_of_lt (h.less i f hf), fun st hst => ?_⟩
  obtain ⟨hworking, horder, hparse, hperm, hversion, hchosen, hnodup, hless, hfresh⟩ := h.underway st hst
  exact ⟨hworking, horder, hparse, hperm, hversion, hchosen, hnodup, fun n hn => Nat.lt_succ_of_lt (hless n hn), hfresh⟩

theorem LevelsOk.writeLevel0Table (h : LevelsOk T db) (hparse : ∀ e ∈ T, e.1.parse ≠ none) (hne : es ≠ []) (hes : InOrder es)
    (hnewer : ∀ a ∈ es, ∀ b ∈ T, Newer a b) :
    ∃ db', db.writeLevel0Table sizes es = .ok db' ∧ db'.queue = db.queue ∧ LevelsOk (T ++ es) db' := by
  obtain ⟨f, hf, hnumber, rfl⟩ := Outputs.exists_table sizes db.nextFileNumber hne hes
  obtain ⟨v', hv', hok, hkeeps, hfiles, hchosen⟩ := exists_flush sizes h.ok h.keeps hparse hnewer
    (fun i g hg => hnumber ▸ Nat.ne_of_lt (h.less i g hg))
  refine ⟨{ db with current := v', nextFileNumber := db.nextFileNumber + 1 }, ?_, rfl, hok, hkeeps, fun i g hg => ?_,
    fun st hst => ?_⟩
  · rw [DbImpl.writeLevel0Table, hf, Res.ok_bind]
    change (flushEdit (db.current.pickLevelForMemTableOutput sizes f.span.lo f.span.hi) f).apply db.current >>= _ = _
    rw [hv']
    rfl
  · rcases hfiles i g hg with hg | rfl
    · exact Nat.lt_succ_of_lt (h.less i g hg)
    · exact hnumber ▸ Nat.lt_succ_self _
  · obtain ⟨hworking, horder, hparse, hperm, hversion, hchosen', hnodup, hless, hfresh⟩ := h.underway st hst
    refine ⟨hworking, horder, hparse, hperm, hversion, hchosen _ _ hchosen', hnodup,
      fun n hn => Nat.lt_succ_of_lt (hless n hn), fun n hn i g hg => ?_⟩
    rcases hfiles i g hg with hg | rfl
    · exact hfresh n hn i g hg
    · exact hnumber ▸ Nat.ne_of_gt (hless n hn)

def Later (t es : List Entry) : Prop := ∀ a ∈ es, ∀ b ∈ t, Newer a b

theorem LevelsOk.foldlM {done new : List (List Entry)} (h : LevelsOk done.flatten db)
    (hparse : ∀ e ∈ (done ++ new).flatten, e.1.parse ≠ none) (hnew : ∀ es ∈ new, es ≠ [] ∧ InOrder es)
    (hlater : (done ++ new).Pairwise Later) :
    ∃ db', new.foldlM (DbImpl.writeLevel0Table sizes) db = .ok db' ∧ db'.queue = db.queue ∧
      LevelsOk (done ++ new).flatten db' := by
  induction new generalizing done db with
  | nil => exact ⟨db, rfl, rfl, by rwa [append_nil]⟩
  | cons es new ih =>
    obtain ⟨⟨hne, hes⟩, hrest⟩ := forall_mem_cons.1 hnew
    have hnewer : ∀ a ∈ es, ∀ b ∈ done.flatten, Newer a b := by
      intro a ha b hb
      obtain ⟨t, ht, hb⟩ := mem_flatten.1 hb
      exact (pairwise_append.1 hlater).2.2 t ht es mem_cons_self a ha b hb
    have hcons := append_cons done es new
    rw [hcons] at hparse hlater ⊢
    obtain ⟨db₁, hdb₁, hqueue₁, h₁⟩ := h.writeLevel0Table sizes
      (fun e he => hparse e (by rw [append_assoc, flatten_append]; exact mem_append_left _ he)) hne hes hnewer
    obtain ⟨db', hdb', hqueue', h'⟩ := ih (by rwa [flatten_append, flatten_singleton]) hparse hrest hlater
    exact ⟨db', by rw [foldlM_cons, hdb₁, Res.ok_bind, hdb'], hqueue'.trans hqueue₁, h'⟩

/-! ## Compactions -/

theorem Underway.work {v : Version} {next : Nat} {st : CompactionState} (h : Underway v next st)
    (hless : ∀ i, ∀ g ∈ v.files i, g.number < next) (hvalid : inputIter.valid st.input = true) :
    ∃ st' next', st.work sizes next = .ok (st', next') ∧ next ≤ next' ∧ Underway v next' st' := by
  obtain @⟨c, all, es, A, B, hworking, horder, hparse, hperm, hversion, hchosen, hnodup, hless', hfresh⟩ := h
  cases B with
  | nil =>
    rw [walks_standsAt.valid hworking.input, hworking.cut, append_nil] at hvalid
    exact absurd (of_decide_eq_true hvalid) (Nat.lt_irrefl _)
  | cons e B =>
    have he : e ∈ es := hworking.cut ▸ mem_append_right _ mem_cons_self
    obtain ⟨st', next', hst', hworking', hnumbers⟩ :=
      hworking.work sizes next horder (hparse e he) hversion
    refine ⟨st', next', hst', ?_⟩
    rcases hnumbers with ⟨heq, rfl⟩ | ⟨heq, rfl⟩
    · exact ⟨Nat.le_refl _, hworking', horder, hparse, hperm, hversion, hchosen, heq ▸ hnodup, heq ▸ hless', heq ▸ hfresh⟩
    · refine ⟨Nat.le_succ _, hworking', horder, hparse, hperm, hversion, hchosen, ?_, ?_, ?_⟩
      · rw [heq]
        exact nodup_append.2 ⟨hnodup, nodup_singleton _, fun n hn m hm =>
          mem_singleton.1 hm ▸ Nat.ne_of_lt (hless' n hn)⟩
      · rw [heq]
        exact forall_mem_append.2 ⟨fun n hn => Nat.lt_succ_of_lt (hless' n hn), by simp⟩
      · rw [heq]
        exact forall_mem_append.2 ⟨hfresh, fun n hn i g hg => mem_singleton.1 hn ▸ Nat.ne_of_lt (hless i g hg)⟩

theorem LevelsOk.work (h : LevelsOk T db) : ∃ db', db.work sizes = .ok db' ∧ db'.queue = db.queue ∧ LevelsOk T db' := by
  unfold DbImpl.work
  split
  · exact ⟨db, rfl, rfl, h⟩
  · next st hst =>
    split
    · next hvalid =>
      obtain ⟨st', next', hst', hle, hunderway⟩ := (h.underway st hst).work sizes h.less hvalid
      refine ⟨{ db with compaction := some st', nextFileNumber := next' }, by rw [hst']; rfl, rfl, h.ok, h.keeps,
        fun i f hf => (h.less i f hf).trans_le hle, fun st'' hst'' => ?_⟩
      exact Option.some.inj hst'' ▸ hunderway
    · exact ⟨db, rfl, rfl, h⟩

theorem LevelsOk.install (h : LevelsOk T db) (hparse : ∀ e ∈ T, e.1.parse ≠ none) (s : Status) :
    ∃ db', db.install sizes s = .ok db' ∧ (∃ bgError, db'.queue = { db.queue with bgError }) ∧ LevelsOk T db' := by
  unfold DbImpl.install
  split
  · exact ⟨db, rfl, ⟨_, rfl⟩, h⟩
  · next st hst =>
    split
    · exact ⟨db, rfl, ⟨_, rfl⟩, h⟩
    · next hvalid =>
      obtain @⟨c, all, es, A, B, hworking, horder, -, hperm, hversion, hchosen, hnodup, hless, hfresh⟩ := h.underway st hst
      obtain rfl : B = [] := by
        cases B with
        | nil => rfl
        | cons e B => exact absurd (walks_standsAt.valid_of_cons hworking.cut hworking.input) hvalid
      obtain rfl : es = A := hworking.cut.trans (append_nil A)
      obtain ⟨outputs, houtputs, hnumbers, hkept⟩ := hworking.finish sizes horder
      rw [houtputs, Res.ok_bind]
      by_cases hs : s = .ok
      · obtain ⟨v', hv', hok, hkeeps, hfiles⟩ := exists_replace h.ok h.keeps hparse
          (hchosen.replaces horder hperm hkept (hnumbers ▸ hnodup) (hnumbers ▸ hfresh)) hperm hkept.toKept
        refine ⟨{ db with current := v', compaction := none }, ?_, ⟨_, rfl⟩, hok, hkeeps, fun i g hg => ?_,
          fun _ h => absurd h (Option.not_mem_none _)⟩
        · rw [if_pos hs, hworking.compaction, hv']
          rfl
        · rcases hfiles i g hg with hg | hg
          · exact h.less i g hg
          · exact hless g.number (hnumbers ▸ mem_map_of_mem hg)
      · obtain ⟨bgError, hq⟩ := WriteQueue.recordBackgroundError_eq (q := db.queue) s
        exact ⟨_, if_neg hs, ⟨bgError, hq⟩, h.without _⟩

theorem LevelsOk.move (h : LevelsOk T db) (hparse : ∀ e ∈ T, e.1.parse ≠ none) {c : Compaction} {all : Span Bytes}
    (hchosen : Chosen db.current c all) (hmove : c.isTrivialMove sizes = true) :
    ∃ v', (c.edit c.inputs0).apply db.current = .ok v' ∧ LevelsOk T { db with current := v', compaction := none } := by
  obtain ⟨⟨hone, hnone⟩, -⟩ : (c.inputs0.length = 1 ∧ c.inputs1 = []) ∧ _ := by
    simpa [Compaction.isTrivialMove] using hmove
  obtain ⟨f, hf⟩ := length_eq_one_iff.1 hone
  have hreplaces : Replaces db.current c all c.inputs0 := by
    refine ⟨hchosen, by rw [hf]; exact pairwise_singleton .., fun o ho e he => ⟨o, mem_append_left _ ho, he⟩,
      by rw [hf]; exact pairwise_singleton .., fun o ho i g hg heq => ?_⟩
    obtain ⟨rfl, rfl⟩ := h.ok.numbers hg (hchosen.subset0 ho) heq
    exact ⟨rfl, ho⟩
  obtain ⟨v', hv', hok, hkeeps, hfiles⟩ := exists_replace h.ok h.keeps hparse hreplaces
    (by rw [hnone, append_nil]) (kept_self (c.inputs0.flatMap FileMetaData.entries))
  refine ⟨v', hv', hok, hkeeps, fun i g hg => ?_, fun _ h => absurd h (Option.not_mem_none _)⟩
  rcases hfiles i g hg with hg | hg
  · exact h.less i g hg
  · exact h.less c.level g (hchosen.subset0 hg)

theorem LevelsOk.start (h : LevelsOk T db) (hparse : ∀ e ∈ T, e.1.parse ≠ none)
    (hsees : ∀ e ∈ T, e.1.sequence ≤ db.queue.lastSequence) (hlast : db.queue.lastSequence < kMaxSequenceNumber)
    {c : Compaction} {r all : Span Bytes} (hversion : c.inputVersion = db.current)
    (htaken : Taken db.current c.level c.inputs0 c.inputs1 r all) (hchosen : Chosen db.current c all) :
    ∃ st, CompactionState.start c db.queue.lastSequence = .ok st ∧ LevelsOk T { db with compaction := some st } := by
  obtain ⟨hmem, hdistinct⟩ := hchosen.entries h.ok h.keeps
  obtain ⟨es, hes, hperm⟩ := exists_inOrder hdistinct
  have hmem' : ∀ e ∈ es, e ∈ T := fun e he => hmem e (hperm.subset he)
  obtain ⟨st, hst, hworking, hnumbers⟩ := Working.start (hversion ▸ h.ok) (hversion ▸ htaken) hes hperm
    (fun e he => hsees e (hmem' e he)) hlast
  refine ⟨st, hst, h.ok, h.keeps, h.less, fun st' hst' => ?_⟩
  obtain rfl := Option.some.inj hst'
  exact ⟨hworking, hes, fun e he => hparse e (hmem' e he), hperm, hversion ▸ h.ok, hchosen, by simp [hnumbers],
    by simp [hnumbers], by simp [hnumbers]⟩

theorem LevelsOk.pick (h : LevelsOk T db) (hparse : ∀ e ∈ T, e.1.parse ≠ none)
    (hsees : ∀ e ∈ T, e.1.sequence ≤ db.queue.lastSequence) (hlast : db.queue.lastSequence < kMaxSequenceNumber)
    (level i : Nat) (s : Status) :
    ∃ db', db.pick sizes level i s = .ok db' ∧ (∃ bgError, db'.queue = { db.queue with bgError }) ∧ LevelsOk T db' := by
  unfold DbImpl.pick
  split
  · exact ⟨db, rfl, ⟨_, rfl⟩, h⟩
  · next hidle =>
    simp only [not_or, Nat.not_le] at hidle
    obtain ⟨-, -, hnone, hlevel⟩ := hidle
    have hcompaction : db.compaction = none := Option.not_isSome_iff_eq_none.1 hnone
    split
    · exact ⟨db, rfl, ⟨_, rfl⟩, h⟩
    · next f hf =>
      obtain ⟨c, r, all, hc, rfl, hversion, htaken⟩ := exists_pickCompaction sizes hlevel (mem_of_getElem? hf)
      have hchosen := htaken.chosen h.ok hlevel hversion
      rw [hc, Res.ok_bind]
      by_cases hmove : c.isTrivialMove sizes = true
      · rw [if_pos hmove]
        by_cases hs : s = .ok
        · obtain ⟨v', hv', h'⟩ := h.move sizes hparse hchosen hmove
          rw [if_pos hs, hv']
          refine ⟨{ db with current := v' }, rfl, ⟨_, rfl⟩, ?_⟩
          rwa [← hcompaction] at h'
        · obtain ⟨bgError, hq⟩ := WriteQueue.recordBackgroundError_eq (q := db.queue) s
          exact ⟨_, if_neg hs, ⟨bgError, hq⟩, h.of_queue _⟩
      · obtain ⟨st, hst, h'⟩ := h.start hparse hsees hlast hversion htaken hchosen
        rw [if_neg hmove, Res.check_of (ne_nil_of_mem (mem_of_getElem? hf)), Res.ok_bind, hst]
        exact ⟨{ db with compaction := some st }, rfl, ⟨_, rfl⟩, h'⟩

/-! ## Steps -/

section Queue

variable {ops : Writer → List WriteOp} {arrived : List Writer} {ws : List (WriteOp × Nat)} {q : WriteQueue}

theorem pairwise_later {tables : List (List Entry)} {parts : List (List (WriteOp × Nat))}
    (h : List.Forall₂ WriteQueue.IsTable tables parts) (hws : Numbered parts.flatten) : tables.Pairwise Later := by
  induction h with
  | nil => exact .nil
  | @cons t p ts ps htable hrest ih =>
    rw [flatten_cons] at hws
    refine pairwise_cons.2 ⟨fun es hes a ha b hb => ?_, ih ⟨(pairwise_append.1 hws.increasing).2.1, fun w hw =>
      hws.le w (mem_append_right _ hw)⟩⟩
    exact hws.newer a ((WriteQueue.flatten_perm hrest).subset (mem_flatten_of_mem hes ha)) b (htable.perm.subset hb)

theorem later_tables (h : WriteQueue.Ok ops arrived ws q) : q.tables.Pairwise Later := by
  have hnumbered := h.numbered
  obtain ⟨hparts, -, -⟩ := h.places
  refine pairwise_later hparts ⟨?_, fun w hw => ?_⟩
  · exact (pairwise_append.1 (pairwise_append.1 hnumbered.increasing).1).1
  · exact hnumbered.le w (mem_append_left _ (mem_append_left _ hw))

theorem mem_writes_of_mem_tables (h : WriteQueue.Ok ops arrived ws q) {e : Entry} (he : e ∈ q.tables.flatten) :
    e ∈ ws.map entryOf := by
  obtain ⟨hparts, -, -⟩ := h.places
  rw [map_append, map_append]
  exact mem_append_left _ (mem_append_left _ ((WriteQueue.flatten_perm hparts).subset he))

theorem parse_ne_none (h : Numbered ws) {e : Entry} (he : e ∈ ws.map entryOf) : e.1.parse ≠ none := by
  obtain ⟨w, hw, rfl⟩ := mem_map.1 he
  rw [entryOf, InternalKey.parse_ofParsed (h.le w hw)]
  exact Option.some_ne_none _

theorem sequence_le_of_mem_tables (h : WriteQueue.Ok ops arrived ws q) {e : Entry} (he : e ∈ q.tables.flatten) :
    e.1.sequence ≤ q.lastSequence := by
  obtain ⟨es, hes, he⟩ := mem_flatten.1 he
  exact h.older.tables es hes e he

end Queue

structure Ok (ops : Writer → List WriteOp) (arrived : List Writer) (ws : List (WriteOp × Nat)) (db : DbImpl) : Prop where
  queue : WriteQueue.Ok ops arrived ws db.queue
  levels : LevelsOk db.queue.tables.flatten db

variable {ops : Writer → List WriteOp} {arrived : List Writer} {ws : List (WriteOp × Nat)}

theorem ok_new : Ok ops [] [] new := ⟨WriteQueue.ok_new, levelsOk_new⟩

section Steps

variable (h : Ok ops arrived ws db)

include h

theorem Ok.parse : ∀ e ∈ db.queue.tables.flatten, e.1.parse ≠ none := fun _ he =>
  parse_ne_none h.queue.numbered (mem_writes_of_mem_tables h.queue he)

theorem Ok.stepQueue {ev : WriteQueue.Event} (haccept : WriteQueue.Acceptable ops (arrived ++ WriteQueue.arrival ev)) :
    ∃ db' ws', db.stepQueue sizes ev = .ok db' ∧ Ok ops (arrived ++ WriteQueue.arrival ev) ws' db' := by
  obtain ⟨q, ws', hq, hqueue, hgrows⟩ := h.queue.step ev haccept
  obtain ⟨new, htables, hne⟩ := hgrows.tables
  have hnew : q.tables.drop db.queue.tables.length = new := by rw [htables, drop_left]
  have hparse : ∀ e ∈ (db.queue.tables ++ new).flatten, e.1.parse ≠ none := fun e he =>
    parse_ne_none hqueue.numbered (mem_writes_of_mem_tables hqueue (htables ▸ he))
  have hinOrder : ∀ es ∈ new, InOrder es := fun es hes =>
    hqueue.places.inOrder_tables es (htables ▸ mem_append_right _ hes)
  obtain ⟨db', hdb', hqueue', h'⟩ := (h.levels.of_queue q).foldlM sizes hparse
    (fun es hes => ⟨hne es hes, hinOrder es hes⟩) (htables ▸ later_tables hqueue)
  have hq' : db'.queue = q := hqueue'
  refine ⟨db', ws', ?_, hq' ▸ hqueue, by rw [hq', htables]; exact h'⟩
  rw [DbImpl.stepQueue, hq, Res.ok_bind, hnew]
  exact hdb'

theorem Ok.of_levels {db' : DbImpl} (hqueue : ∃ bgError, db'.queue = { db.queue with bgError })
    (hlevels : LevelsOk db.queue.tables.flatten db') : Ok ops arrived ws db' := by
  obtain ⟨bgError, hqueue⟩ := hqueue
  exact ⟨hqueue ▸ h.queue.of_bgError bgError, by rw [hqueue]; exact hlevels⟩

theorem Ok.step {ev : Event} (haccept : WriteQueue.Acceptable ops (arrived ++ arrival ev)) :
    ∃ db' ws', db.step sizes ev = .ok db' ∧ Ok ops (arrived ++ arrival ev) ws' db' := by
  have haccept' := haccept.of_append
  have hsees : ∀ e ∈ db.queue.tables.flatten, e.1.sequence ≤ db.queue.lastSequence := fun e he =>
    sequence_le_of_mem_tables h.queue he
  cases ev with
  | queue ev => exact h.stepQueue sizes haccept
  | newFileNumber =>
    rw [arrival, append_nil]
    exact ⟨_, ws, rfl, h.of_levels ⟨_, rfl⟩ h.levels.newFileNumber⟩
  | pick level i s =>
    rw [arrival, append_nil]
    obtain ⟨db', hdb', hqueue, hlevels⟩ := h.levels.pick sizes h.parse hsees (h.queue.lastSequence_lt haccept') level i s
    exact ⟨db', ws, hdb', h.of_levels hqueue hlevels⟩
  | work =>
    rw [arrival, append_nil]
    obtain ⟨db', hdb', hqueue, hlevels⟩ := h.levels.work sizes
    exact ⟨db', ws, hdb', h.of_levels ⟨_, hqueue⟩ hlevels⟩
  | install s =>
    rw [arrival, append_nil]
    obtain ⟨db', hdb', hqueue, hlevels⟩ := h.levels.install sizes h.parse s
    exact ⟨db', ws, hdb', h.of_levels hqueue hlevels⟩
  | abandon s =>
    rw [arrival, append_nil]
    exact ⟨_, ws, rfl, h.of_levels (WriteQueue.recordBackgroundError_eq s) (h.levels.without _)⟩

end Steps

theorem Ok.run (h : Ok ops arrived ws db) {events : List Event}
    (haccept : WriteQueue.Acceptable ops (arrived ++ events.flatMap arrival)) :
    ∃ db' ws', events.foldlM (DbImpl.step sizes) db = .ok db' ∧ Ok ops (arrived ++ events.flatMap arrival) ws' db' := by
  induction events generalizing arrived ws db with
  | nil => exact ⟨db, ws, rfl, by simpa using h⟩
  | cons ev events ih =>
    rw [flatMap_cons, ← append_assoc] at haccept ⊢
    obtain ⟨db₁, ws₁, hstep, h₁⟩ := h.step sizes haccept.of_append
    obtain ⟨db', ws', hrun, h'⟩ := ih h₁ haccept
    exact ⟨db', ws', by rw [foldlM_cons, hstep, Res.ok_bind, hrun], h'⟩

/-! ## Iterators -/

section Iterators

variable {τ : Type} {it : Iter τ InternalKey Bytes}

theorem inOrder_addIterators {v : Version} (hv : v.Ok) : ∀ L ∈ v.addIterators, InOrder L := by
  intro L hL
  obtain ⟨level, -, hL⟩ := mem_flatMap.1 hL
  exact inOrder_levelEntries (hv.separated level) L hL

theorem flatten_addIterators (v : Version) : v.addIterators.flatten = v.entries := by
  rw [Version.addIterators, Version.entries, entriesOf]
  induction List.range kNumLevels with
  | nil => rfl
  | cons level levels ih => rw [flatMap_cons, flatMap_cons, flatten_append, flatten_levelEntries, ih]

theorem Ok.lookup_eq {wt wn : List (WriteOp × Nat)} (h : Ok ops arrived (wt ++ wn) db) {N es : List Entry}
    (ht : db.queue.tables.flatten.Perm (wt.map entryOf)) (hn : N.Perm (wn.map entryOf)) (hes : InOrder es)
    (hperm : es.Perm (N ++ db.current.entries)) (k : Bytes) :
    (Database.write ∅ (db.queue.told ops))[k]? = (lookup (shows db.queue.lastSequence) k es).join := by
  obtain ⟨es₀, hes₀, hperm₀⟩ := exists_inOrder h.queue.numbered.distinct
  have hmem : ∀ e, e ∈ N ++ db.queue.tables.flatten ↔ e ∈ es₀ := fun e => by
    rw [hperm₀.mem_iff, map_append, mem_append, mem_append, hn.mem_iff, ht.mem_iff, or_comm]
  have hnewer : ∀ a ∈ N, ∀ b ∈ db.queue.tables.flatten, Sees (shows db.queue.lastSequence) k a →
      Sees (shows db.queue.lastSequence) k b → Before a b := by
    rintro a ha b hb ⟨o, ho⟩ ⟨o', ho'⟩
    exact h.queue.numbered.newer a (hn.subset ha) b (ht.subset hb) ((userKey_of_shows ho).trans (userKey_of_shows ho').symm)
  have hfinds : Finds (shows db.queue.lastSequence) Before k es₀ (lookup (shows db.queue.lastSequence) k es₀).join :=
    finds_lookup (hes₀.imp fun hlt _ _ => hlt)
  have happend := (hfinds.of_mem_iff hmem).append (fun _ _ => Before.asymm) hnewer h.levels.keeps.mem
    fun o => h.levels.keeps.finds fun e he => sequence_le_of_mem_tables h.queue he
  have hfound := (happend.of_mem_iff fun e => hperm.mem_iff).lookup_eq not_before_self (fun _ _ => Before.asymm)
    (hes.imp fun hlt _ _ => hlt)
  rw [hfound, ← h.queue.upTo_eq]
  exact getElem?_write_upTo hes₀ hperm₀ h.queue.numbered db.queue.lastSequence k

theorem Ok.exists_entries {wt wn : List (WriteOp × Nat)} (h : Ok ops arrived (wt ++ wn) db) {N : List Entry}
    (ht : db.queue.tables.flatten.Perm (wt.map entryOf)) (hn : N.Perm (wn.map entryOf)) :
    ∃ es, InOrder es ∧ es.Perm (N ++ db.current.entries) ∧ (∀ e ∈ es, e ∈ (wt ++ wn).map entryOf) ∧
      es.length ≤ (wt ++ wn).length := by
  have hnumbered := h.queue.numbered
  have hmem : ∀ e ∈ db.current.entries, e ∈ wt.map entryOf := fun e he => ht.subset (h.levels.keeps.mem e he)
  have hN : N.Pairwise fun a b => InternalKey.compare a.1 b.1 ≠ .eq := by
    have hdistinct := hnumbered.distinct
    rw [map_append] at hdistinct
    exact (pairwise_ne_perm hn).2 (pairwise_append.1 hdistinct).2.1
  have hacross := distinct_of_newer fun a (ha : a ∈ N) b (hb : b ∈ db.current.entries) =>
    hnumbered.newer a (hn.subset ha) b (hmem b hb)
  obtain ⟨es, hes, hperm⟩ := exists_inOrder (pairwise_append.2 ⟨hN, h.levels.keeps.distinct, hacross⟩)
  refine ⟨es, hes, hperm, fun e he => ?_, ?_⟩
  · rw [map_append]
    rcases mem_append.1 (hperm.subset he) with he | he
    · exact mem_append_right _ (hn.subset he)
    · exact mem_append_left _ (hmem e he)
  · have hnodup : db.current.entries.Nodup := by
      refine List.Pairwise.imp ?_ h.levels.keeps.distinct
      rintro a b hne rfl
      exact hne ReflCmp.compare_self
    have hle := (hnodup.subperm hmem).length_le
    rw [hperm.length_eq, length_append, hn.length_eq, length_append]
    rw [length_map] at hle ⊢
    omega

/-- Writers write, memtables become tables in the levels, compactions are picked, work and install their outputs, in any
order of steps and with any answers: nothing goes wrong, and an iterator of the database does what a cursor does of the
writes that were told `ok`. -/
theorem compacted_refines_cursor {events : List Event} (haccept : WriteQueue.Acceptable ops (events.flatMap arrival))
    (hkeys : ∀ k : InternalKey, k.rep.length < 2 ^ 32 → it.accepts k) {fuel : Nat}
    (hfuel : ((events.flatMap arrival).flatMap ops).length < fuel) :
    ∃ db, events.foldlM (step sizes) new = .ok db ∧
      ∀ tables, List.Forall₂ (fun s L => ∃ i, it.StandsAt InternalKey.compare L s i) tables db.current.addIterators →
      ∀ (calls : List (Call Bytes)) (c : Cursor), (∀ target, .seek target ∈ calls → target.length + 8 < 2 ^ 32) →
        calls.foldlM Cursor.step (Cursor.ofDatabase (Database.write ∅ (db.queue.told ops))) = some c →
        ∃ m d, db.queue.newInternalIterator it tables = .ok m ∧
          calls.foldlM (DBIter.asIter (MergedIterator.asIter (MemTable.asIter.sum it) InternalKey.compare)
            db.queue.lastSequence fuel).call (DBIter.new m) = .ok d ∧
          ShowsCursor (MergedIterator.asIter (MemTable.asIter.sum it) InternalKey.compare) d c := by
  obtain ⟨db, ws, hrun, h⟩ := (@ok_new ops).run sizes haccept
  refine ⟨db, hrun, fun tables htables calls c htargets hcalls => ?_⟩
  obtain ⟨wt, wn, Ls, rfl, hpermt, hpermn, hLs, hmems⟩ := h.queue.places.exists_memEntries it
  obtain ⟨es, hes, hperm, hmem, hlength⟩ := h.exists_entries hpermt hpermn
  have hm : MergingIterator.Merges InternalKey.compare (Ls ++ db.current.addIterators) es := by
    refine ⟨hes, ?_, forall_mem_append.2 ⟨hLs, inOrder_addIterators h.levels.ok⟩⟩
    rwa [flatten_append, flatten_addIterators]
  exact WriteQueue.refines_cursor hmems htables hm hkeys (fun e he => h.queue.length_rep haccept (hmem e he))
    (h.queue.lastSequence_lt haccept).le ((hlength.trans h.queue.length_le).trans_lt hfuel)
    (h.lookup_eq hpermt hpermn hes hperm) htargets hcalls

/-- A table in level 2 and one in level 1 that overlaps it; they are compacted while a writer writes. -/
def fiveCompacted : List Event :=
  [.queue (.arrive ⟨some (WriteBatch.clear.put [1] [2]), false⟩), .queue .lead,
    .queue (.arrive ⟨some (WriteBatch.clear.delete [3]), false⟩), .queue (.makeRoom 0 false .ok), .queue (.write .ok .ok),
    .queue .finish, .queue (.arrive ⟨none, false⟩), .queue .lead, .queue (.makeRoom 0 false .ok),
    .queue (.makeRoom 0 false .ok), .newFileNumber, .queue (.compactMemTable .ok),
    .queue (.arrive ⟨some (WriteBatch.clear.put [1] [4]), true⟩), .queue .lead, .queue (.makeRoom 0 false .ok),
    .queue (.write .ok .ok), .queue .finish, .queue (.arrive ⟨some (WriteBatch.clear.delete [3]), false⟩), .queue .lead,
    .queue (.makeRoom 0 true .ok), .queue (.makeRoom 0 false .ok), .queue (.compactMemTable .ok), .pick 1 0 .ok, .work,
    .queue (.write .ok .ok), .work, .queue .finish, .work, .install .ok]

/-- The compaction leaves one entry of three: the newer one of the first key. -/
theorem compacted_refines_cursor_five : ∃ db m d, fiveCompacted.foldlM (step ⟨100, fun es => 10 * es.length⟩) new = .ok db ∧
    db.queue.newInternalIterator (ofList InternalKey.compare) (db.current.addIterators.map fun L => (L, 0)) = .ok m ∧
    [Call.seekToLast, .seek [3], .seekToFirst].foldlM (DBIter.asIter (MergedIterator.asIter
      (MemTable.asIter.sum (ofList InternalKey.compare)) InternalKey.compare) db.queue.lastSequence 5).call (DBIter.new m) =
        .ok d ∧
    ShowsCursor (MergedIterator.asIter (MemTable.asIter.sum (ofList InternalKey.compare)) InternalKey.compare) d
      (Cursor.ofDatabase (Database.write ∅ (db.queue.told WriteQueue.fiveWritesOps))).seekToFirst := by
  have haccept : WriteQueue.Acceptable WriteQueue.fiveWritesOps (fiveCompacted.flatMap arrival) :=
      WriteQueue.acceptable_fiveWrites
  obtain ⟨db, hrun, hshows⟩ := @compacted_refines_cursor ⟨100, fun es => 10 * es.length⟩ _ _ (ofList InternalKey.compare)
    _ haccept (fun _ _ => trivial) 5 (by decide)
  have htargets : ∀ target : Bytes, .seek target ∈ [Call.seekToLast, .seek [3], .seekToFirst] → target.length + 8 < 2 ^ 32 := by
    simp
  obtain ⟨m, d, hm, hd, hcursor⟩ := hshows _ (forall₂_standsAt_ofList ..) _ _ htargets rfl
  exact ⟨db, m, d, hrun, hm, hd, hcursor⟩

end Iterators

end DbImpl

end Dbms18.LevelDb
