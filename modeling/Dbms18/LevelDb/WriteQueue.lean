import Mathlib.Data.List.Flatten
import Dbms18.LevelDb.MemTable

/-!
# The queue of writers (`DBImpl::Write`, `BuildBatchGroup`, `MakeRoomForWrite`, `CompactMemTable` in `db/db_impl.cc`)

A writer that comes in is put at the end of a queue and waits until it is done or at the front. The writer at the
front first makes room: it may have to wait, and it may put the memtable aside and begin a new one, which it always
does if it came without a batch. Then it writes for itself and for some of those behind it: it makes their batches
into one, adds it to the log and to the memtable with the mutex released, moves the last sequence number on, and takes
them all from the queue with the same status. Meanwhile other writers may come in, and the memtable that was put aside
becomes a table.

A step is what happens while the mutex is held once, or what the writer at the front does with the mutex released.
What the surroundings answer is part of the step: how many tables level 0 has, whether the memtable is full, whether
the log could be opened, extended and synchronised. Whatever the order of the steps and the answers, the operations of
the writers that were told `ok` are stored in the order in which the writers came, each once, and nothing else is
(`writes_in_order`). The log itself is left out, and a table is the list of its entries.
-/

namespace Dbms18.LevelDb

open List Iter

/-- `DBImpl::Writer`; `TEST_CompactMemTable` comes in with no batch. -/
structure Writer where
  batch : Option WriteBatch
  sync : Bool

/-- How far the writer at the front is. -/
inductive Phase
  /-- It has not begun. -/
  | idle
  /-- It is in `MakeRoomForWrite`. -/
  | room (force allowDelay : Bool)
  /-- It has made the batch of the first `n` writers. -/
  | writing (updates : WriteBatch) (n lastSequence : Nat)
  /-- It has written the batch, or failed to. -/
  | written (n lastSequence : Nat) (status : Status) (syncError : Bool)

/-- The fields of `DBImpl` and `VersionSet` that writing uses, and the writers that have returned. -/
structure WriteQueue where
  writers : List Writer
  phase : Phase
  mem : MemTable
  imm : Option MemTable
  tables : List (List Entry)
  lastSequence : Nat
  bgError : Status
  returned : List (Writer × Status)

namespace WriteQueue

def kL0_SlowdownWritesTrigger : Nat := 8

def kL0_StopWritesTrigger : Nat := 12

def new : WriteQueue := ⟨[], .idle, SkipList.new, none, [], 0, .ok, []⟩

/-- The loop of `BuildBatchGroup` over the writers behind the first: the batch, and how many of them it is for. `own`
says that the batch is still the first writer's own one. -/
def extendGroup (first : Writer) (maxSize : Nat) :
    List Writer → (size : Nat) → (result : WriteBatch) → (own : Bool) → WriteBatch × Nat
  | [], _, result, _ => (result, 0)
  | w :: ws, size, result, own =>
    if w.sync && !first.sync then
      (result, 0)
    else
      match w.batch with
      | none => ((extendGroup first maxSize ws size result own).1, (extendGroup first maxSize ws size result own).2 + 1)
      | some b =>
        if size + b.byteSize > maxSize then
          (result, 0)
        else
          let result := (if own then WriteBatch.clear.append result else result).append b
          ((extendGroup first maxSize ws (size + b.byteSize) result false).1,
            (extendGroup first maxSize ws (size + b.byteSize) result false).2 + 1)

/-- `BuildBatchGroup`, with the batch of the first writer. -/
def buildBatchGroup (first : Writer) (b : WriteBatch) (rest : List Writer) : WriteBatch × Nat :=
  let maxSize := if b.byteSize ≤ 128 <<< 10 then b.byteSize + 128 <<< 10 else 1 <<< 20
  ((extendGroup first maxSize rest b.byteSize b true).1, (extendGroup first maxSize rest b.byteSize b true).2 + 1)

/-- `last_sequence += Count(updates)`: an `int` is added to an `uint64_t`. -/
def addCount (lastSequence count : Nat) : Nat :=
  ((lastSequence + Int.bmod count 0x100000000) % 0x10000000000000000).toNat

/-- The loop at the end of `Write`: the first `n` writers leave the queue. -/
def pop (q : WriteQueue) (n : Nat) (status : Status) : WriteQueue :=
  { q with
    writers := q.writers.drop n
    phase := .idle
    returned := q.returned ++ (q.writers.take n).map fun w => (w, status) }

def lead (q : WriteQueue) : WriteQueue :=
  match q.phase, q.writers with
  | .idle, first :: _ => { q with phase := .room first.batch.isNone (!first.batch.isNone) }
  | _, _ => q

/-- `MakeRoomForWrite` has returned `status`. -/
def leaveRoom (q : WriteQueue) (status : Status) : WriteQueue :=
  match q.writers with
  | ⟨some b, sync⟩ :: rest =>
    if status = .ok then
      let group := buildBatchGroup ⟨some b, sync⟩ b rest
      let updates := group.1.setSequence (q.lastSequence + 1)
      { q with phase := .writing updates group.2 (addCount q.lastSequence updates.count) }
    else
      q.pop 1 status
  | _ => q.pop 1 status

/-- A pass of the loop of `MakeRoomForWrite`: level 0 has `files` tables, `full` says that the memtable uses more than
`write_buffer_size`, and opening a new log gives `opened`. -/
def makeRoom (q : WriteQueue) (files : Nat) (full : Bool) (opened : Status) : WriteQueue :=
  match q.phase with
  | .room force allowDelay =>
    if q.bgError ≠ .ok then
      q.leaveRoom q.bgError
    else if allowDelay && decide (kL0_SlowdownWritesTrigger ≤ files) then
      { q with phase := .room force false }
    else if !force && !full then
      q.leaveRoom .ok
    else if q.imm.isSome then
      q
    else if kL0_StopWritesTrigger ≤ files then
      q
    else if opened ≠ .ok then
      q.leaveRoom opened
    else
      { q with phase := .room false allowDelay, mem := SkipList.new, imm := some q.mem }
  | _ => q

def recordBackgroundError (q : WriteQueue) (s : Status) : WriteQueue :=
  if q.bgError = .ok then { q with bgError := s } else q

/-- What is done with the mutex released: `AddRecord` gives `added` and `Sync`, if it is called, `synced`. -/
def write (q : WriteQueue) (added synced : Status) : Res WriteQueue :=
  match q.phase, q.writers with
  | .writing updates n lastSequence, first :: _ => do
    let status := if added = .ok ∧ first.sync then synced else added
    let syncError := decide (added = .ok ∧ first.sync ∧ synced ≠ .ok)
    if status = .ok then
      let (status, _, mem) ← MemTable.insertInto updates q.mem
      return { q with mem, phase := .written n lastSequence status syncError }
    else
      return { q with phase := .written n lastSequence status syncError }
  | _, _ => return q

def finish (q : WriteQueue) : Res WriteQueue :=
  match q.phase with
  | .written n lastSequence status syncError => do
    let q := if syncError then q.recordBackgroundError status else q
    -- `SetLastSequence`
    Res.check (q.lastSequence ≤ lastSequence) .assertion
    return { q.pop n status with lastSequence }
  | _ => return q

/-- The loop of `BuildTable`: the entries of the table. -/
def buildTable (m : MemTable) : Res (List Entry) := do
  MemTable.asIter.collect (m.nodes.length + 1) (← MemTable.asIter.seekToFirst (MemTable.newIterator m))

/-- `CompactMemTable`, if writing the table and recording it gives `s`. No table is made of a memtable without entries. -/
def compactMemTable (q : WriteQueue) (s : Status) : Res WriteQueue :=
  match q.imm with
  | none => return q
  | some m => do
    let es ← buildTable m
    if s = .ok then
      return { q with imm := none, tables := if es.isEmpty then q.tables else q.tables ++ [es] }
    else
      return q.recordBackgroundError s

inductive Event
  | arrive (w : Writer)
  | lead
  | makeRoom (files : Nat) (full : Bool) (opened : Status)
  | write (added synced : Status)
  | finish
  | compactMemTable (s : Status)
  | backgroundError (s : Status)

def step (q : WriteQueue) : Event → Res WriteQueue
  | .arrive w => return { q with writers := q.writers ++ [w] }
  | .lead => return q.lead
  | .makeRoom files full opened => return q.makeRoom files full opened
  | .write added synced => q.write added synced
  | .finish => q.finish
  | .compactMemTable s => q.compactMemTable s
  | .backgroundError s => return q.recordBackgroundError s

def arrival : Event → List Writer
  | .arrive w => [w]
  | .lead => []
  | .makeRoom _ _ _ => []
  | .write _ _ => []
  | .finish => []
  | .compactMemTable _ => []
  | .backgroundError _ => []

/-! ## Groups -/

variable {ops : Writer → List WriteOp} {first : Writer} {maxSize : Nat}

def Carries (ops : Writer → List WriteOp) (w : Writer) : Prop :=
  (∀ b, w.batch = some b → WriteBatch.Built b (ops w)) ∧ (w.batch = none → ops w = [])

theorem extendGroup_built {ws : List Writer} (hws : ∀ w ∈ ws, Carries ops w) {size : Nat} {result : WriteBatch} {own : Bool}
    {ops₀ : List WriteOp} (hresult : WriteBatch.Built result ops₀) :
    (extendGroup first maxSize ws size result own).2 ≤ ws.length ∧
      WriteBatch.Built (extendGroup first maxSize ws size result own).1
        (ops₀ ++ (ws.take (extendGroup first maxSize ws size result own).2).flatMap ops) := by
  induction ws generalizing size result own ops₀ with
  | nil => exact ⟨Nat.le_refl _, by simpa [extendGroup] using hresult⟩
  | cons w ws ih =>
    have hstop : (0 : Nat) ≤ (w :: ws).length ∧ WriteBatch.Built result (ops₀ ++ ((w :: ws).take 0).flatMap ops) :=
      ⟨Nat.zero_le _, by simpa using hresult⟩
    have hrest := fun w' hw' => hws w' (mem_cons_of_mem w hw')
    unfold extendGroup
    split
    · exact hstop
    · cases hb : w.batch with
      | none =>
        have hops := (hws w mem_cons_self).2 hb
        obtain ⟨hle, hbuilt⟩ := @ih hrest size result own ops₀ hresult
        refine ⟨Nat.succ_le_succ hle, ?_⟩
        rw [take_succ_cons, flatMap_cons, hops, nil_append]
        exact hbuilt
      | some b =>
        have hops := (hws w mem_cons_self).1 b hb
        dsimp only
        split
        · exact hstop
        · have hnext : WriteBatch.Built ((if own then WriteBatch.clear.append result else result).append b)
              (ops₀ ++ ops w) := by
            refine WriteBatch.Built.append ?_ hops
            split
            · exact WriteBatch.Built.append .clear hresult
            · exact hresult
          obtain ⟨hle, hbuilt⟩ := @ih hrest (size + b.byteSize) _ false _ hnext
          refine ⟨Nat.succ_le_succ hle, ?_⟩
          rw [take_succ_cons, flatMap_cons, ← append_assoc]
          exact hbuilt

theorem buildBatchGroup_built {b : WriteBatch} {rest : List Writer} (hb : WriteBatch.Built b (ops first))
    (hrest : ∀ w ∈ rest, Carries ops w) :
    (buildBatchGroup first b rest).2 ≤ (first :: rest).length ∧
      WriteBatch.Built (buildBatchGroup first b rest).1
        (((first :: rest).take (buildBatchGroup first b rest).2).flatMap ops) := by
  obtain ⟨hle, hbuilt⟩ := extendGroup_built hrest hb
  refine ⟨Nat.succ_le_succ hle, ?_⟩
  rw [buildBatchGroup, take_succ_cons, flatMap_cons]
  exact hbuilt

theorem addCount_eq {lastSequence count : Nat} (hcount : count < 2 ^ 31) (hlast : lastSequence < 2 ^ 31) :
    addCount lastSequence count = lastSequence + count := by
  have hbmod : Int.bmod count 0x100000000 = count := by
    rw [Int.bmod_def, if_pos] <;> omega
  have hsum : ((lastSequence + (count : Int)) % 0x10000000000000000).toNat = lastSequence + count := by omega
  exact (congrArg (fun n : Int => ((lastSequence + n) % 0x10000000000000000).toNat) hbmod).trans hsum

/-! ## What is stored -/

def told (ops : Writer → List WriteOp) (q : WriteQueue) : List WriteOp :=
  (q.returned.filter fun r => r.2 = .ok).flatMap fun r => ops r.1

def groupOps (ops : Writer → List WriteOp) (writers : List Writer) (n : Nat) : List WriteOp := (writers.take n).flatMap ops

/-- The operations that are in the memtable, but whose writers have not been told yet. -/
def underway (ops : Writer → List WriteOp) (q : WriteQueue) : List WriteOp :=
  match q.phase with
  | .written n _ status _ => if status = .ok then groupOps ops q.writers n else []
  | _ => []

theorem underway_written {q : WriteQueue} {n last : Nat} {status : Status} {e : Bool} (h : q.phase = .written n last status e) :
    q.underway ops = if status = .ok then groupOps ops q.writers n else [] := by
  rw [underway, h]

structure IsTable (es : List Entry) (ws : List (WriteOp × Nat)) : Prop where
  inOrder : InOrder es
  perm : es.Perm (ws.map entryOf)

/-- The tables, the memtable that was put aside and the memtable hold the writes `ws`: the older ones are in the tables
and the newest in the memtable. -/
inductive Places (q : WriteQueue) : List (WriteOp × Nat) → Prop
  | mk {parts : List (List (WriteOp × Nat))} {wi wm : List (WriteOp × Nat)} (tables : List.Forall₂ IsTable q.tables parts)
      (imm : q.imm.elim (wi = []) (MemTable.Written · wi)) (mem : q.mem.Written wm) : Places q (parts.flatten ++ wi ++ wm)

/-- What the writer at the front has to write. -/
def PhaseOk (ops : Writer → List WriteOp) (writers : List Writer) (lastSequence : Nat) : Phase → Prop
  | .idle => True
  | .room _ _ => writers ≠ []
  | .writing updates n last => writers ≠ [] ∧ n ≤ writers.length ∧ last = lastSequence + (groupOps ops writers n).length ∧
      ∃ b, WriteBatch.Built b (groupOps ops writers n) ∧ updates = b.setSequence (lastSequence + 1)
  | .written n last _ _ => n ≤ writers.length ∧ last = lastSequence + (groupOps ops writers n).length

/-- What is in the tables and in the memtable that was put aside has been told to its writers. -/
structure Older (q : WriteQueue) : Prop where
  tables : ∀ es ∈ q.tables, ∀ e ∈ es, e.1.sequence ≤ q.lastSequence
  imm : ∀ m ∈ q.imm, ∀ es, buildTable m = .ok es → ∀ e ∈ es, e.1.sequence ≤ q.lastSequence

/-- After the writers `arrived` have come in: those that have returned and those in the queue are all of them, in their
order; the writes `ws` are stored, and those up to the last sequence number are the ones of the writers that were told
`ok`. -/
structure Ok (ops : Writer → List WriteOp) (arrived : List Writer) (ws : List (WriteOp × Nat)) (q : WriteQueue) : Prop where
  all : q.returned.map Prod.fst ++ q.writers = arrived
  numbered : Numbered ws
  places : q.Places ws
  writes : ∃ ws₀, ws = ws₀ ++ (q.underway ops).zipIdx (q.lastSequence + 1) ∧ ws₀.map Prod.fst = q.told ops ∧
    ∀ w ∈ ws₀, w.2 ≤ q.lastSequence
  older : q.Older
  lastSequence : q.lastSequence ≤ ((q.returned.map Prod.fst).flatMap ops).length
  phase : PhaseOk ops q.writers q.lastSequence q.phase

theorem ok_new : Ok ops [] [] new :=
  ⟨rfl, ⟨.nil, by simp⟩, @Places.mk new [] [] [] .nil rfl MemTable.written_new, ⟨[], rfl, rfl, by simp⟩,
    ⟨fun _ hes => absurd hes not_mem_nil, fun _ hm => absurd hm (Option.not_mem_none _)⟩, Nat.le_refl _, trivial⟩

/-- Writers come with batches that were built, of operations that can be stored, and not with too many of them. -/
structure Acceptable (ops : Writer → List WriteOp) (arrived : List Writer) : Prop where
  carries : ∀ w ∈ arrived, Carries ops w
  storable : ∀ w ∈ arrived, ∀ op ∈ ops w, MemTable.Storable op
  total : (arrived.flatMap ops).length < 2 ^ 31

/-- What was stored stays, and what is new gets numbers above the last one; tables stay, and those that are new have
entries. -/
structure Grows (q : WriteQueue) (ws : List (WriteOp × Nat)) (q' : WriteQueue) (ws' : List (WriteOp × Nat)) : Prop where
  lastSequence : q.lastSequence ≤ q'.lastSequence
  writes : ∃ new, ws' = ws ++ new ∧ ∀ w ∈ new, q.lastSequence < w.2
  tables : ∃ new, q'.tables = q.tables ++ new ∧ ∀ es ∈ new, es ≠ []

variable {arrived : List Writer} {ws ws' ws'' : List (WriteOp × Nat)} {q q' q'' : WriteQueue}

theorem Grows.of_le (h : q.lastSequence ≤ q'.lastSequence) (htables : q'.tables = q.tables) : Grows q ws q' ws :=
  ⟨h, ⟨[], by simp⟩, ⟨[], by simp [htables]⟩⟩

theorem grows_refl : Grows q ws q ws := .of_le (Nat.le_refl _) rfl

theorem Grows.trans (h : Grows q ws q' ws') (h' : Grows q' ws' q'' ws'') : Grows q ws q'' ws'' := by
  obtain ⟨hle, ⟨new, rfl, hnew⟩, ⟨added, hadded, hne⟩⟩ := h
  obtain ⟨hle', ⟨new', rfl, hnew'⟩, ⟨added', hadded', hne'⟩⟩ := h'
  refine ⟨hle.trans hle', ⟨new ++ new', append_assoc .., fun w hw => ?_⟩, added ++ added', ?_,
    forall_mem_append.2 ⟨hne, hne'⟩⟩
  · rcases mem_append.1 hw with hw | hw
    · exact hnew w hw
    · exact hle.trans_lt (hnew' w hw)
  · rw [hadded', hadded, append_assoc]

theorem Grows.upTo_eq (h : Grows q ws q' ws') : upTo q.lastSequence ws' = upTo q.lastSequence ws := by
  obtain ⟨new, rfl, hnew⟩ := h.writes
  have hnone : new.filter (fun w => decide (w.2 ≤ q.lastSequence)) = [] := by
    simpa [filter_eq_nil_iff] using hnew
  rw [upTo_append, upTo, upTo, hnone]
  simp

theorem Ok.upTo_eq (h : Ok ops arrived ws q) : upTo q.lastSequence ws = q.told ops := by
  obtain ⟨ws₀, rfl, hfst, hle⟩ := h.writes
  have hall : ws₀.filter (fun w => decide (w.2 ≤ q.lastSequence)) = ws₀ := by
    simpa [filter_eq_self] using hle
  have hnone : ((q.underway ops).zipIdx (q.lastSequence + 1)).filter (fun w => decide (w.2 ≤ q.lastSequence)) = [] := by
    rw [filter_eq_nil_iff]
    intro w hw
    have := (mem_zipIdx hw).1
    simp
    omega
  rw [upTo_append, upTo, upTo, hall, hnone, hfst]
  simp

theorem Ok.map_fst (h : Ok ops arrived ws q) : ws.map Prod.fst = q.told ops ++ q.underway ops := by
  obtain ⟨ws₀, rfl, hfst, -⟩ := h.writes
  rw [map_append, hfst, zipIdx_map_fst]

/-! ## Steps -/

theorem told_pop (n : Nat) (status : Status) :
    (q.pop n status).told ops = q.told ops ++ if status = .ok then groupOps ops q.writers n else [] := by
  rw [told, pop, filter_append, flatMap_append, filter_map, flatMap_map]
  by_cases hstatus : status = .ok <;> simp [hstatus, told, groupOps, Function.comp_def]

theorem grows_lead : Grows q ws q.lead ws := by
  unfold lead
  split
  · exact .of_le (Nat.le_refl _) rfl
  · exact grows_refl

theorem grows_leaveRoom {status : Status} : Grows q ws (q.leaveRoom status) ws := by
  unfold leaveRoom
  split
  · split_ifs
    · exact .of_le (Nat.le_refl _) rfl
    · exact .of_le (Nat.le_refl _) rfl
  · exact .of_le (Nat.le_refl _) rfl

theorem grows_makeRoom {files : Nat} {full : Bool} {opened : Status} : Grows q ws (q.makeRoom files full opened) ws := by
  unfold makeRoom
  split
  · split_ifs <;> first | exact grows_leaveRoom | exact .of_le (Nat.le_refl _) rfl
  · exact grows_refl

theorem Acceptable.of_append {arrived' : List Writer} (h : Acceptable ops (arrived ++ arrived')) : Acceptable ops arrived := by
  refine ⟨fun w hw => h.carries w (mem_append_left _ hw), fun w hw => h.storable w (mem_append_left _ hw), ?_⟩
  have := h.total
  rw [flatMap_append, length_append] at this
  omega

theorem groupOps_append {writers : List Writer} {n : Nat} (h : n ≤ writers.length) (w : Writer) :
    groupOps ops (writers ++ [w]) n = groupOps ops writers n := by
  rw [groupOps, take_append_of_le_length h, groupOps]

theorem buildTable_eq {m : MemTable} {wi : List (WriteOp × Nat)} (hm : m.Written wi) :
    ∃ es, buildTable m = .ok es ∧ IsTable es wi := by
  obtain ⟨es, hholds, hperm⟩ := hm
  obtain ⟨s, hs, hfirst⟩ := walks_standsAt.seekToFirst hholds.standsAt
  refine ⟨es, ?_, hholds.inOrder, hperm⟩
  rw [buildTable, hs, Res.ok_bind, hfirst.collect_eq]
  · rfl
  · exact Nat.lt_succ_of_le hholds.length_le

section Steps

variable (h : Ok ops arrived ws q)

include h

theorem Ok.arrive (w : Writer) : Ok ops (arrived ++ [w]) ws { q with writers := q.writers ++ [w] } := by
  have hunderway : underway ops { q with writers := q.writers ++ [w] } = q.underway ops := by
    have hphase := h.phase
    unfold underway
    cases hq : q.phase with
    | written n last status e =>
      rw [hq] at hphase
      exact congrArg (fun g => if status = .ok then g else []) (groupOps_append hphase.1 w)
    | _ => rfl
  refine ⟨by rw [← append_assoc, h.all], h.numbered, ?_, ?_, ⟨h.older.tables, h.older.imm⟩, h.lastSequence, ?_⟩
  · obtain ⟨htables, himm, hmem⟩ := h.places
    exact .mk htables himm hmem
  · rw [hunderway]
    exact h.writes
  · have hphase := h.phase
    dsimp only
    cases hq : q.phase with
    | idle => trivial
    | room => simp [PhaseOk]
    | writing updates n last =>
      rw [hq] at hphase
      obtain ⟨-, hn, hlast⟩ := hphase
      rw [PhaseOk, groupOps_append hn]
      exact ⟨by simp, by rw [length_append]; omega, hlast⟩
    | written n last status e =>
      rw [hq] at hphase
      obtain ⟨hn, hlast⟩ := hphase
      rw [PhaseOk, groupOps_append hn]
      exact ⟨by rw [length_append]; omega, hlast⟩

theorem Ok.of_phase {phase : Phase} (hunderway : underway ops { q with phase } = q.underway ops)
    (hphase : PhaseOk ops q.writers q.lastSequence phase) : Ok ops arrived ws { q with phase } := by
  obtain ⟨htables, himm, hmem⟩ := h.places
  refine ⟨h.all, h.numbered, .mk htables himm hmem, ?_, ⟨h.older.tables, h.older.imm⟩, h.lastSequence, hphase⟩
  rw [hunderway]
  exact h.writes

theorem Ok.lead : Ok ops arrived ws q.lead := by
  unfold WriteQueue.lead
  split
  · next hphase hwriters =>
    refine h.of_phase ?_ ?_
    · rw [underway, underway, hphase]
    · rw [PhaseOk, hwriters]
      exact cons_ne_nil _ _
  · exact h

omit h in
theorem recordBackgroundError_eq (s : Status) : ∃ bgError, q.recordBackgroundError s = { q with bgError } := by
  unfold recordBackgroundError
  split
  · exact ⟨s, rfl⟩
  · exact ⟨q.bgError, rfl⟩

theorem Ok.of_bgError (bgError : Status) : Ok ops arrived ws { q with bgError } := by
  obtain ⟨htables, himm, hmem⟩ := h.places
  exact ⟨h.all, h.numbered, .mk htables himm hmem, h.writes, ⟨h.older.tables, h.older.imm⟩, h.lastSequence, h.phase⟩

omit h in
theorem pop_all (n : Nat) (status : Status) :
    (q.pop n status).returned.map Prod.fst ++ (q.pop n status).writers = q.returned.map Prod.fst ++ q.writers := by
  simp only [pop, map_append, map_map, Function.comp_def, map_id', append_assoc, take_append_drop]

theorem Ok.length_groupOps_le (n : Nat) (status : Status) :
    q.lastSequence + (groupOps ops q.writers n).length ≤
      (((q.pop n status).returned.map Prod.fst).flatMap ops).length := by
  have := h.lastSequence
  simp only [pop, map_append, map_map, Function.comp_def, map_id', flatMap_append,
    length_append, groupOps]
  omega

variable {status : Status}

theorem Ok.pop_one (hunderway : q.underway ops = [])
    (hnone : status = .ok → groupOps ops q.writers 1 = []) : Ok ops arrived ws (q.pop 1 status) := by
  obtain ⟨htables, himm, hmem⟩ := h.places
  obtain ⟨ws₀, hws, hfst, hle⟩ := h.writes
  refine ⟨by rw [pop_all, h.all], h.numbered, .mk htables himm hmem, ⟨ws₀, ?_, ?_, hle⟩,
    ⟨h.older.tables, h.older.imm⟩, ?_, trivial⟩
  · rw [hws, hunderway]
    rfl
  · rw [told_pop, hfst]
    split
    · next hok => rw [hnone hok, append_nil]
    · rw [append_nil]
  · exact (Nat.le_add_right ..).trans (h.length_groupOps_le 1 status)

theorem Ok.length_lt (haccept : Acceptable ops arrived) (n : Nat) :
    q.lastSequence + (groupOps ops q.writers n).length < 2 ^ 31 := by
  have hle := h.length_groupOps_le n .ok
  have hall : arrived = (q.pop n .ok).returned.map Prod.fst ++ (q.pop n .ok).writers := by rw [pop_all, h.all]
  have htotal := haccept.total
  rw [hall, flatMap_append, length_append] at htotal
  omega

theorem Ok.storable_groupOps (haccept : Acceptable ops arrived) (n : Nat) :
    ∀ op ∈ groupOps ops q.writers n, MemTable.Storable op := by
  intro op hop
  obtain ⟨w, hw, hop⟩ := mem_flatMap.1 hop
  exact haccept.storable w (h.all ▸ mem_append_right _ (mem_of_mem_take hw)) op hop

variable {n last : Nat}

theorem Ok.addCount_group (haccept : Acceptable ops arrived) {b : WriteBatch}
    (hb : WriteBatch.Built b (groupOps ops q.writers n)) :
    addCount q.lastSequence (b.setSequence (q.lastSequence + 1)).count =
      q.lastSequence + (groupOps ops q.writers n).length := by
  have hlt := h.length_lt haccept n
  have hfits : ∀ op ∈ groupOps ops q.writers n, Fits op := fun op hop => (h.storable_groupOps haccept n op hop).fits
  have hcount := ((hb.setSequence (q.lastSequence + 1)).holds hfits (by omega)).count
  rw [hcount, addCount_eq (by omega) (by omega)]

theorem Ok.leaveRoom (haccept : Acceptable ops arrived) (hunderway : q.underway ops = []) (hwriters : q.writers ≠ [])
    (status : Status) : Ok ops arrived ws (q.leaveRoom status) := by
  have hmem : ∀ w ∈ q.writers, Carries ops w := fun w hw => haccept.carries w (h.all ▸ mem_append_right _ hw)
  unfold WriteQueue.leaveRoom
  split
  · next b sync rest hq =>
    obtain ⟨hfirst, hrest⟩ := forall_mem_cons.1 (hq ▸ hmem)
    by_cases hok : status = .ok
    · rw [if_pos hok]
      obtain ⟨hle, hbuilt⟩ := buildBatchGroup_built (hfirst.1 b rfl) hrest
      rw [← hq] at hle hbuilt
      exact h.of_phase (by rw [hunderway]; rfl) ⟨hwriters, hle, h.addCount_group haccept hbuilt, _, hbuilt, rfl⟩
    · rw [if_neg hok]
      exact h.pop_one hunderway fun h => absurd h hok
  · next hnone =>
    refine h.pop_one hunderway fun _ => ?_
    -- the writer has no batch
    obtain ⟨first, rest, hq⟩ := exists_cons_of_ne_nil hwriters
    have hbatch : first.batch = none := by
      cases hb : first.batch with
      | none => rfl
      | some b => exact absurd (by rw [hq, ← hb]) (hnone b first.sync rest)
    rw [groupOps, hq, take_succ_cons, take_zero, flatMap_singleton]
    exact (hmem first (hq ▸ mem_cons_self)).2 hbatch

theorem Ok.sequence_le (hunderway : q.underway ops = []) {m : MemTable} {wm : List (WriteOp × Nat)} (hm : m.Written wm)
    (hsub : ∀ w ∈ wm, w ∈ ws) : ∀ es, buildTable m = .ok es → ∀ e ∈ es, e.1.sequence ≤ q.lastSequence := by
  intro es hes e he
  obtain ⟨ws₀, hws, -, hle⟩ := h.writes
  rw [hunderway, zipIdx_nil, append_nil] at hws
  obtain ⟨es', hes', htable⟩ := buildTable_eq hm
  obtain rfl : es' = es := Except.ok.inj (hes'.symm.trans hes)
  obtain ⟨w, hw, rfl⟩ := mem_map.1 (htable.perm.subset he)
  rw [entryOf, InternalKey.sequence_ofParsed (h.numbered.le w (hsub w hw))]
  exact hle w (hws ▸ hsub w hw)

theorem Ok.makeRoom (haccept : Acceptable ops arrived) (files : Nat) (full : Bool) (opened : Status) :
    Ok ops arrived ws (q.makeRoom files full opened) := by
  unfold WriteQueue.makeRoom
  split
  · next force allowDelay hphase =>
    have hunderway : q.underway ops = [] := by rw [underway, hphase]
    have hwriters : q.writers ≠ [] := by
      have := h.phase
      rwa [hphase] at this
    have hleave := h.leaveRoom haccept hunderway hwriters
    split_ifs with hbg hdelay hroom himm hstop hopened
    · exact hleave _
    · exact h.of_phase (by rw [hunderway]; rfl) hwriters
    · exact hleave _
    · exact h
    · exact h
    · exact hleave _
    · -- the memtable is put aside; there was none put aside before
      obtain ⟨htables, himm', hmem⟩ := h.places
      obtain ⟨ws₀, hws, hfst, hle⟩ := h.writes
      rw [Option.not_isSome_iff_eq_none.1 himm] at himm'
      obtain rfl : _ = [] := himm'
      have hplaces := @Places.mk { q with phase := .room false allowDelay, mem := SkipList.new, imm := some q.mem }
        _ _ [] htables hmem MemTable.written_new
      rw [append_nil] at hplaces
      refine ⟨h.all, h.numbered, by rwa [append_nil], ⟨ws₀, by rwa [hunderway] at hws, hfst, hle⟩,
        ⟨h.older.tables, fun m hm => ?_⟩, h.lastSequence, hwriters⟩
      exact Option.some.inj hm ▸ h.sequence_le hunderway hmem fun w => mem_append_right _
  · exact h

variable {e : Bool}

theorem Ok.written (hunderway : q.underway ops = []) (hstatus : status ≠ .ok)
    (hn : n ≤ q.writers.length) (hlast : last = q.lastSequence + (groupOps ops q.writers n).length) :
    Ok ops arrived ws { q with phase := .written n last status e } :=
  h.of_phase (by rw [hunderway]; exact if_neg hstatus) ⟨hn, hlast⟩

theorem Ok.insertInto (haccept : Acceptable ops arrived) {b : WriteBatch}
    (hunderway : q.underway ops = []) (hn : n ≤ q.writers.length)
    (hlast : last = q.lastSequence + (groupOps ops q.writers n).length) (hb : WriteBatch.Built b (groupOps ops q.writers n)) :
    ∃ mem next, MemTable.insertInto (b.setSequence (q.lastSequence + 1)) q.mem = .ok (.ok, next, mem) ∧
      ∃ ws', Ok ops arrived ws' { q with mem, phase := .written n last .ok e } ∧
        Grows q ws { q with mem, phase := .written n last .ok e } ws' := by
  obtain ⟨ws₀, hws, hfst, hle⟩ := h.writes
  obtain ⟨htables, himm, hmem⟩ := h.places
  rw [hunderway, zipIdx_nil, append_nil] at hws
  have hlt := h.length_lt haccept n
  have hmax : kMaxSequenceNumber = 2 ^ 56 - 1 := by decide
  have hless : ∀ w ∈ ws₀, w.2 < q.lastSequence + 1 := fun w hw => Nat.lt_succ_of_le (hle w hw)
  obtain ⟨mem, hinsert, hmem'⟩ := hmem.insertInto hb (h.storable_groupOps haccept n) (by omega)
    (by omega : q.lastSequence + 1 + _ ≤ _) fun w hw => hless w (hws ▸ mem_append_right _ hw)
  have hplaces := @Places.mk { q with mem, phase := .written n last .ok e } _ _ _ htables himm hmem'
  have hnumbered := @Numbered.append_zipIdx _ h.numbered (q.lastSequence + 1) (fun w hw => hless w (hws ▸ hw))
    (groupOps ops q.writers n) (by omega)
  rw [← append_assoc, hws] at hplaces
  rw [hws] at hnumbered ⊢
  refine ⟨mem, _, hinsert, _, ⟨h.all, hnumbered, hplaces, ⟨ws₀, ?_, hfst, hle⟩,
    ⟨h.older.tables, h.older.imm⟩, h.lastSequence, hn, hlast⟩,
    Nat.le_refl _, ⟨_, rfl, fun w hw => ?_⟩, [], by simp⟩
  · rw [underway_written rfl, if_pos rfl]
  · exact (mem_zipIdx hw).1

theorem Ok.write (haccept : Acceptable ops arrived) (added synced : Status) :
    ∃ q' ws', q.write added synced = .ok q' ∧ Ok ops arrived ws' q' ∧ Grows q ws q' ws' := by
  unfold WriteQueue.write
  split
  · next updates n last first rest hphase hwriters =>
    have hunderway : q.underway ops = [] := by rw [underway, hphase]
    have hok := h.phase
    rw [hphase] at hok
    obtain ⟨-, hn, hlast, b, hb, rfl⟩ := hok
    generalize (if added = .ok ∧ first.sync then synced else added) = status
    generalize decide (added = .ok ∧ first.sync ∧ synced ≠ .ok) = syncError
    dsimp only
    by_cases hstatus : status = .ok
    · obtain ⟨mem, next, hinsert, ws', h', hgrows⟩ := h.insertInto haccept hunderway hn hlast hb
      refine ⟨_, ws', ?_, h', hgrows⟩
      rw [if_pos hstatus, hinsert]
      rfl
    · rw [if_neg hstatus]
      exact ⟨_, ws, rfl, h.written hunderway hstatus hn hlast, .of_le (Nat.le_refl _) rfl⟩
  · exact ⟨q, ws, rfl, h, grows_refl⟩

theorem Ok.announce (hphase : q.phase = .written n last status e) :
    q.lastSequence ≤ last ∧ Ok ops arrived ws { q.pop n status with lastSequence := last } := by
  have hok := h.phase
  rw [hphase] at hok
  obtain ⟨hn, rfl⟩ := hok
  obtain ⟨htables, himm, hmem⟩ := h.places
  obtain ⟨ws₀, hws, hfst, hle⟩ := h.writes
  have hlast := Nat.le_add_right q.lastSequence (groupOps ops q.writers n).length
  refine ⟨hlast, by rw [← h.all]; exact pop_all n status, h.numbered, .mk htables himm hmem, ?_,
    ⟨fun es hes e he => (h.older.tables es hes e he).trans hlast, fun m hm es hes e he =>
      (h.older.imm m hm es hes e he).trans hlast⟩, h.length_groupOps_le n status, trivial⟩
  refine ⟨_, (append_nil _).symm, ?_, fun w hw => ?_⟩
  · rw [h.map_fst, underway_written hphase]
    exact (told_pop n status).symm
  · rw [hws, underway_written hphase] at hw
    change w.2 ≤ q.lastSequence + (groupOps ops q.writers n).length
    rcases mem_append.1 hw with hw | hw
    · exact (hle w hw).trans (Nat.le_add_right ..)
    · have hlt := (mem_zipIdx hw).2.1
      split at hlt
      · omega
      · rw [length_nil] at hlt
        omega

theorem Ok.finish : ∃ q', q.finish = .ok q' ∧ Ok ops arrived ws q' ∧ Grows q ws q' ws := by
  unfold WriteQueue.finish
  split
  · next n last status syncError hphase =>
    obtain ⟨bgError, hq⟩ : ∃ bgError, (if syncError then q.recordBackgroundError status else q) = { q with bgError } := by
      split
      · exact recordBackgroundError_eq status
      · exact ⟨q.bgError, rfl⟩
    obtain ⟨hle, h'⟩ := (h.of_bgError bgError).announce hphase
    refine ⟨_, ?_, h', .of_le hle rfl⟩
    rw [hq]
    exact congrArg (· >>= fun _ => _) (Res.check_of hle)
  · exact ⟨q, rfl, h, grows_refl⟩

variable {tables : List (List Entry)} {es : List Entry}

omit h in
theorem tables_flush {parts : List (List (WriteOp × Nat))}
    {wi : List (WriteOp × Nat)} (htables : List.Forall₂ IsTable tables parts) (htable : IsTable es wi) :
    ∃ parts', List.Forall₂ IsTable (if es.isEmpty then tables else tables ++ [es]) parts' ∧
      parts'.flatten = parts.flatten ++ wi := by
  cases es with
  | nil =>
    obtain rfl := map_eq_nil_iff.1 (nil_perm.1 htable.perm)
    exact ⟨parts, htables, (append_nil _).symm⟩
  | cons e es => exact ⟨parts ++ [wi], rel_append htables (.cons htable .nil), by simp⟩

omit h in
theorem exists_tables_flush :
    ∃ new, (if es.isEmpty then tables else tables ++ [es]) = tables ++ new ∧ ∀ es ∈ new, es ≠ [] := by
  split
  · exact ⟨[], by simp⟩
  · next hes => exact ⟨[es], rfl, by simpa using hes⟩

omit h in
theorem forall_mem_tables_flush {P : List Entry → Prop} (htables : ∀ es ∈ tables, P es)
    (hes : P es) : ∀ es' ∈ (if es.isEmpty then tables else tables ++ [es]), P es' := by
  split
  · exact htables
  · exact forall_mem_append.2 ⟨htables, by simpa using hes⟩

theorem Ok.compactMemTable (s : Status) : ∃ q', q.compactMemTable s = .ok q' ∧ Ok ops arrived ws q' ∧ Grows q ws q' ws := by
  unfold WriteQueue.compactMemTable
  split
  · exact ⟨q, rfl, h, grows_refl⟩
  · next m himm =>
    obtain ⟨ws₀, hws, hfst, hle⟩ := h.writes
    obtain ⟨htables, hm, hmem⟩ := h.places
    rw [himm] at hm
    obtain ⟨es, hes, htable⟩ := buildTable_eq hm
    rw [hes, Res.ok_bind]
    by_cases hs : s = .ok
    · refine ⟨_, if_pos hs, ⟨h.all, h.numbered, ?_, ⟨ws₀, hws, hfst, hle⟩, ⟨?_, fun _ hm => absurd hm (Option.not_mem_none _)⟩,
        h.lastSequence, h.phase⟩, Nat.le_refl _, ⟨[], by simp⟩, exists_tables_flush⟩
      · obtain ⟨parts', htables', hflatten⟩ := tables_flush htables htable
        have hplaces := @Places.mk { q with imm := none, tables := if es.isEmpty then q.tables else q.tables ++ [es] }
          _ [] _ htables' rfl hmem
        rwa [append_nil, hflatten] at hplaces
      · exact forall_mem_tables_flush h.older.tables (h.older.imm m himm es hes)
    · obtain ⟨bgError, hq⟩ := recordBackgroundError_eq (q := q) s
      exact ⟨_, if_neg hs, hq ▸ h.of_bgError bgError, .of_le (by rw [hq]) (by rw [hq])⟩

theorem Ok.step (ev : Event) (haccept : Acceptable ops (arrived ++ arrival ev)) :
    ∃ q' ws', q.step ev = .ok q' ∧ Ok ops (arrived ++ arrival ev) ws' q' ∧ Grows q ws q' ws' := by
  have haccept' := haccept.of_append
  cases ev with
  | arrive w => exact ⟨_, ws, rfl, h.arrive w, .of_le (Nat.le_refl _) rfl⟩
  | lead =>
    rw [arrival, append_nil]
    exact ⟨_, ws, rfl, h.lead, grows_lead⟩
  | makeRoom files full opened =>
    rw [arrival, append_nil]
    exact ⟨_, ws, rfl, h.makeRoom haccept' files full opened, grows_makeRoom⟩
  | write added synced =>
    rw [arrival, append_nil]
    exact h.write haccept' added synced
  | finish =>
    rw [arrival, append_nil]
    obtain ⟨q', hq', h'⟩ := h.finish
    exact ⟨q', ws, hq', h'⟩
  | compactMemTable s =>
    rw [arrival, append_nil]
    obtain ⟨q', hq', h'⟩ := h.compactMemTable s
    exact ⟨q', ws, hq', h'⟩
  | backgroundError s =>
    rw [arrival, append_nil]
    obtain ⟨bgError, hq⟩ := recordBackgroundError_eq (q := q) s
    exact ⟨_, ws, congrArg Except.ok hq, h.of_bgError bgError, .of_le (Nat.le_refl _) rfl⟩

end Steps

theorem underway_sublist : (q.underway ops).Sublist (q.writers.flatMap ops) := by
  unfold underway
  split
  · split
    · exact (take_sublist ..).flatMap ops
    · exact nil_sublist _
  · exact nil_sublist _

theorem Ok.sublist (h : Ok ops arrived ws q) : (ws.map Prod.fst).Sublist (arrived.flatMap ops) := by
  rw [h.map_fst, ← h.all, flatMap_append, flatMap_map]
  exact (filter_sublist.flatMap _).append underway_sublist

theorem Ok.storable (h : Ok ops arrived ws q) (haccept : Acceptable ops arrived) {w : WriteOp × Nat} (hw : w ∈ ws) :
    MemTable.Storable w.1 := by
  obtain ⟨writer, hwriter, hop⟩ := mem_flatMap.1 (h.sublist.subset (mem_map_of_mem hw))
  exact haccept.storable writer hwriter w.1 hop

/-! ## Runs -/

theorem Ok.run (h : Ok ops arrived ws q) {events : List Event} (haccept : Acceptable ops (arrived ++ events.flatMap arrival)) :
    ∃ q' ws', events.foldlM WriteQueue.step q = .ok q' ∧ Ok ops (arrived ++ events.flatMap arrival) ws' q' ∧
      Grows q ws q' ws' := by
  induction events generalizing arrived ws q with
  | nil => exact ⟨q, ws, rfl, by simpa using h, grows_refl⟩
  | cons ev events ih =>
    rw [flatMap_cons, ← append_assoc] at haccept ⊢
    obtain ⟨q₁, ws₁, hstep, h₁, hgrows⟩ := h.step ev haccept.of_append
    obtain ⟨q', ws', hrun, h', hgrows'⟩ := ih h₁ haccept
    exact ⟨q', ws', by rw [foldlM_cons, hstep, Res.ok_bind, hrun], h', hgrows.trans hgrows'⟩

/-- Writers come in, wait, make room and write, and memtables become tables, in any order of steps and with any answers:
nothing goes wrong; the writers that have returned and those that wait are all that have come in, in the order in which
they came; and what the tables and memtables hold are the operations of the writers that were told `ok`, each once and
in that order, and then those of a group that has been written and not told yet, with numbers that readers do not see. -/
theorem writes_in_order {events : List Event} (haccept : Acceptable ops (events.flatMap arrival)) :
    ∃ q ws, events.foldlM step new = .ok q ∧ q.returned.map Prod.fst ++ q.writers = events.flatMap arrival ∧
      q.Places ws ∧ Numbered ws ∧ ws.map Prod.fst = q.told ops ++ q.underway ops ∧
      upTo q.lastSequence ws = q.told ops := by
  obtain ⟨q, ws, hrun, h, -⟩ := ok_new.run haccept
  exact ⟨q, ws, hrun, h.all, h.places, h.numbered, h.map_fst, h.upTo_eq⟩

/-- Two writers that write in one group, one that comes while they do and asks for a new memtable, one whose log cannot
be synchronised, and one that comes after it. -/
def fiveWrites : List Event :=
  [.arrive ⟨some (WriteBatch.clear.put [1] [2]), false⟩, .lead, .arrive ⟨some (WriteBatch.clear.delete [3]), false⟩,
    .makeRoom 8 false .ok, .makeRoom 8 false .ok, .arrive ⟨none, false⟩, .write .ok .ok, .finish,
    .lead, .makeRoom 0 false .ok, .makeRoom 0 false .ok,
    .arrive ⟨some (WriteBatch.clear.put [1] [4]), true⟩, .lead, .makeRoom 0 false .ok, .compactMemTable .ok,
    .write .ok (.ioError []), .finish,
    .arrive ⟨some (WriteBatch.clear.delete [3]), false⟩, .lead, .makeRoom 0 false .ok]

def fiveWritesOps (w : Writer) : List WriteOp :=
  if w.batch.isNone then [] else if w.sync then [.put [1] [4]] else
    if w.batch.map WriteBatch.rep = some (WriteBatch.clear.put [1] [2]).rep then [.put [1] [2]] else [.delete [3]]

theorem carries_of_built {b : WriteBatch} {sync : Bool} (h : WriteBatch.Built b (ops ⟨some b, sync⟩)) :
    Carries ops ⟨some b, sync⟩ :=
  ⟨fun _ hb => Option.some.inj hb ▸ h, fun hb => nomatch hb⟩

theorem acceptable_fiveWrites : Acceptable fiveWritesOps (fiveWrites.flatMap arrival) := by
  have hput : WriteBatch.Built (WriteBatch.clear.put [1] [2]) [.put [1] [2]] := .put [1] [2] .clear
  have hdelete : WriteBatch.Built (WriteBatch.clear.delete [3]) [.delete [3]] := .delete [3] .clear
  have hlast : WriteBatch.Built (WriteBatch.clear.put [1] [4]) [.put [1] [4]] := .put [1] [4] .clear
  have hstorable : ∀ op ∈ ([.put [1] [2], .delete [3], .put [1] [4], .delete [3]] : List WriteOp), MemTable.Storable op := by
    simp only [forall_mem_cons]
    exact ⟨⟨by decide, by decide⟩, ⟨by decide, by decide⟩, ⟨by decide, by decide⟩, ⟨by decide, by decide⟩, by simp⟩
  refine ⟨?_, fun w hw op hop => hstorable op ?_, by decide⟩
  · change ∀ w ∈ [_, _, _, _, _], Carries fiveWritesOps w
    simp only [forall_mem_cons]
    exact ⟨carries_of_built hput, carries_of_built hdelete, ⟨fun _ h => (nomatch h), fun _ => rfl⟩, carries_of_built hlast,
      carries_of_built hdelete, by simp⟩
  · exact (mem_flatMap.2 ⟨w, hw, hop⟩ : op ∈ (fiveWrites.flatMap arrival).flatMap fiveWritesOps)

theorem writes_in_order_five : ∃ q ws, fiveWrites.foldlM step new = .ok q ∧
    q.returned.map Prod.fst ++ q.writers = fiveWrites.flatMap arrival ∧
    q.Places ws ∧ Numbered ws ∧ ws.map Prod.fst = q.told fiveWritesOps ++ q.underway fiveWritesOps ∧
    upTo q.lastSequence ws = q.told fiveWritesOps :=
  writes_in_order acceptable_fiveWrites

end WriteQueue

end Dbms18.LevelDb
