import Dbms18.Storage.LevelDb

/-!
# `WriteHandlerImpl` (`storage/write_handler_impl.cpp`)

Puts and deletes are collected in `batch_`; `Commit` writes the batch to the database and leaves it
as it is, so the next `Commit` writes the same operations once more. `db_commit` says that this is
harmless as long as nobody else writes to the database.
-/

namespace Dbms18

open Overlay

/-- The outcome of `DB::Write`. A write that fails may have applied some of the batch. -/
inductive WriteStatus
  | ok
  | failed (applied : Nat)
deriving DecidableEq

/-- The part of the batch that reaches the database. -/
def WriteStatus.applied : WriteStatus → List WriteOp → List WriteOp
  | ok, batch => batch
  | failed applied, batch => batch.take applied

theorem WriteStatus.applied_initial (status : WriteStatus) (batch : List WriteOp) :
    status.applied batch <+: batch := by
  cases status with
  | ok => exact List.prefix_refl _
  | failed applied => exact List.take_prefix _ _

structure WriteHandlerImpl where
  db : Database
  batch : List WriteOp

namespace WriteHandlerImpl

def new (db : Database) : WriteHandlerImpl := ⟨db, []⟩

/-- `Put(tuple_id, tuple)`; `Put(tuple)` is the same with a key from `GenUUID`. -/
def put (w : WriteHandlerImpl) (tupleId tuple : Bytes) : WriteHandlerImpl :=
  { w with batch := w.batch ++ [.put tupleId tuple] }

def delete (w : WriteHandlerImpl) (tupleId : Bytes) : WriteHandlerImpl :=
  { w with batch := w.batch ++ [.delete tupleId] }

def commit (w : WriteHandlerImpl) (status : WriteStatus) : WriteHandlerImpl × Bool :=
  ({ w with db := w.db.write (status.applied w.batch) }, status = .ok)

end WriteHandlerImpl

inductive WriteCall
  | put (tupleId tuple : Bytes)
  | delete (tupleId : Bytes)
  | commit (status : WriteStatus)

def WriteCall.issued : List WriteCall → List WriteOp
  | [] => []
  | .put tupleId tuple :: calls => .put tupleId tuple :: issued calls
  | .delete tupleId :: calls => .delete tupleId :: issued calls
  | .commit _ :: calls => issued calls

namespace WriteHandlerImpl

def step (w : WriteHandlerImpl) : WriteCall → WriteHandlerImpl
  | .put tupleId tuple => w.put tupleId tuple
  | .delete tupleId => w.delete tupleId
  | .commit status => (w.commit status).1

def run (w : WriteHandlerImpl) (calls : List WriteCall) : WriteHandlerImpl := calls.foldl step w

@[simp] theorem run_nil (w : WriteHandlerImpl) : w.run [] = w := rfl

@[simp] theorem run_cons (w : WriteHandlerImpl) (call : WriteCall) (calls : List WriteCall) :
    w.run (call :: calls) = (w.step call).run calls := rfl

theorem batch_run (w : WriteHandlerImpl) (calls : List WriteCall) :
    (w.run calls).batch = w.batch ++ WriteCall.issued calls := by
  induction calls generalizing w with
  | nil => simp [WriteCall.issued]
  | cons call calls ih =>
    rw [run_cons, ih]
    cases call with
    | put tupleId tuple => simp [step, put, WriteCall.issued]
    | delete tupleId => simp [step, delete, WriteCall.issued]
    | commit status => rfl

/-- Writing the batch now gives what writing it to the initial database gives. -/
def Replays (db₀ : Database) (w : WriteHandlerImpl) : Prop :=
  overlay w.db w.batch = overlay db₀ w.batch

variable {db₀ : Database} {w : WriteHandlerImpl}

theorem Replays.write (h : w.Replays db₀) {ops : List WriteOp}
    (hops : ops <+: w.batch) : Replays db₀ { w with db := w.db.write ops } :=
  (overlay_overlay_absorb w.db hops).trans h

theorem Replays.append (h : w.Replays db₀) (op : WriteOp) :
    Replays db₀ { w with batch := w.batch ++ [op] } := by
  have h : overlay w.db w.batch = overlay db₀ w.batch := h
  simp only [Replays, overlay_append, h]

theorem Replays.step (h : w.Replays db₀) (call : WriteCall) :
    (w.step call).Replays db₀ := by
  cases call with
  | put tupleId tuple => exact h.append _
  | delete tupleId => exact h.append _
  | commit status => exact h.write (status.applied_initial w.batch)

theorem Replays.run (h : w.Replays db₀) (calls : List WriteCall) :
    (w.run calls).Replays db₀ := by
  induction calls generalizing w with
  | nil => exact h
  | cons call calls ih => exact ih (h.step call)

/-- A successful `Commit` leaves the initial database with every operation issued so far applied once,
in call order, although earlier commits have already written the operations before them. -/
theorem db_commit (db₀ : Database) (calls : List WriteCall) :
    (((new db₀).run calls).commit .ok).1.db = overlay db₀ (WriteCall.issued calls) := by
  have h : ((new db₀).run calls).Replays db₀ := Replays.run rfl calls
  have hbatch : ((new db₀).run calls).batch = WriteCall.issued calls := batch_run _ _
  rw [Replays, hbatch] at h
  simpa only [commit, WriteStatus.applied, Database.write, hbatch] using h

end WriteHandlerImpl

end Dbms18
