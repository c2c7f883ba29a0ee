import Dbms18.Common.MiniCsv
import Dbms18.Common.RowDesc
import Dbms18.Executor.Plan
import Dbms18.Lib.Ensures

/-!
# Exporting rows to a file (`executor/export.cpp`)

`Exec` writes a line for every row that its child gives. What it has written is a list of bytes here;
`Prepare` does not notice when the file cannot be opened.
-/

namespace Dbms18

open Res

/-- The variables of the loop in `Export::Exec`, with the child's members. -/
structure Export (ω σ : Type) where
  members : σ
  world : ω
  row : TupleRow
  os : MiniCsv.OutStream := {}
  rows : Int32 := 0

namespace Export

variable {ω σ : Type} (doubleText : UInt64 → Bytes) (tupler : Executor ω σ) (desc : RowDesc)

/-- The `switch` of `Exec`: the text that is put for a column, if any. -/
def columnText (type : DataType) (tuple : RawTuple) (off len : UInt16) : Res (Option Bytes) :=
  match type with
  | .integer | .date => do return some (decimal (← tuple.getInteger off.toNat).toInt64.toInt)
  | .float => do return some (doubleText (← tuple.getDouble off.toNat))
  | .varchar => do return some (← tuple.getValue off.toNat len.toNat)
  | _ => .ok none

/-- One pass of the loop over the columns. -/
def putColumn (row : TupleRow) (os : MiniCsv.OutStream) (column : ColumnDesc × Nat) : Res MiniCsv.OutStream := do
  let tuple ← row.getTuple 0
  let off ← tuple.slotOffset column.2
  let len ← tuple.slotLength column.2
  match ← columnText doubleText column.1.dataType tuple off len with
  | some text => return os.put text
  | none => return os

def putRow (row : TupleRow) (os : MiniCsv.OutStream) : Res MiniCsv.OutStream := do
  return (← desc.zipIdx.foldlM (putColumn doubleText row) os).endLine

def step (e : Export ω σ) : Res (Export ω σ ⊕ State × Export ω σ) := do
  let (state, row, members, world) ← tupler.getNext e.members e.world e.row
  let e := { e with members, world, row }
  if state ≠ .ok then return .inr (state, e)
  return .inl { e with rows := e.rows + 1, os := ← putRow doubleText desc row e.os }

/-- `Exec`: the state, the response, and what the file has been given. -/
def exec (fuel : Nat) (members : σ) (w : ω) : Res (State × Bytes × Bytes × ω) := do
  let (state, members, world) ← tupler.execOpen members w
  let e : Export ω σ := { members, world, row := TupleRow.new 1 }
  let (state, e) ← (if state = .ok then Res.loop (step doubleText tupler desc) fuel e else .ok (state, e))
  let (_, w) ← tupler.close e.members e.world
  if state = .eof then
    return (.ok, ascii "copy " ++ decimal e.rows.toInt ++ ascii ".", e.os.out, w)
  return (state, ascii "copy failed.", e.os.out, w)

variable {doubleText tupler desc} in
theorem exec_mono {fuel fuel' : Nat} {members : σ} {w : ω} {r : State × Bytes × Bytes × ω}
    (h : exec doubleText tupler desc fuel members w = .ok r) (hle : fuel ≤ fuel') :
    exec doubleText tupler desc fuel' members w = .ok r := by
  obtain ⟨⟨state, members', world⟩, hopen, h⟩ := bind_eq_ok.1 h
  obtain ⟨e, hloop, h⟩ := bind_eq_ok.1 h
  refine bind_eq_ok.2 ⟨_, hopen, bind_eq_ok.2 ⟨e, ?_, h⟩⟩
  split
  · next hstate =>
    rw [if_pos hstate] at hloop
    exact loop_mono hloop hle
  · next hstate => rwa [if_neg hstate] at hloop

/-! ## An export of a table -/

section

variable {doubleText : UInt64 → Bytes} {desc : RowDesc} {scan : SeqScan}

theorem ensures_putRow (row : TupleRow) (os : MiniCsv.OutStream) :
    Res.Ensures (putRow doubleText desc row os) fun os => os.out.getLast? = some newline :=
  .of_bind fun os => ensures_ok (by simp [MiniCsv.OutStream.endLine])

/-- What the file holds while the records of the table are written to it: whole lines, and none only as
long as no record has been read. -/
def Written (records : List (Bytes × Bytes)) (out : Bytes) : Prop :=
  out.getLast? = some newline ∧ records ≠ [] ∨ out = [] ∧ records = []

theorem Written.eq_nil_iff {records : List (Bytes × Bytes)} {out : Bytes} (h : Written records out) :
    out = [] ↔ records = [] := by
  rcases h with ⟨hlast, hrecords⟩ | ⟨hout, hrecords⟩
  · refine iff_of_false ?_ hrecords
    rintro rfl
    cases hlast
  · exact iff_of_true hout hrecords

theorem ensures_exec (fuel : Nat) (s : LevelStore) :
    Res.Ensures (exec doubleText scan.executor desc fuel () s) fun r =>
      r.1 = .ok ∧ ∃ c, s.iter scan.iterator = .ok c ∧ Written c.records r.2.2.1 := by
  intro r h
  obtain ⟨⟨state, _, s₁⟩, hopen, h⟩ := bind_eq_ok.1 h
  obtain ⟨⟨state', s₁'⟩, hscan, heq⟩ := bind_eq_ok.1 hopen
  obtain ⟨rfl, rfl⟩ : state' = state ∧ s₁' = s₁ := by simpa using Except.ok.inj heq
  obtain ⟨rfl, c, hc, hc₁⟩ := SeqScan.execOpen_eq_ok hscan
  obtain ⟨⟨state, e⟩, hloop, h⟩ := bind_eq_ok.1 h
  -- before the first line is written, the iterator is at the first record
  let I := fun e : Export LevelStore Unit => e.os.out.getLast? = some newline ∧ c.records ≠ [] ∨
    e.os.out = [] ∧ e.world.iter scan.iterator = .ok ⟨c.records, 0⟩
  have hwritten : state = .eof ∧ Written c.records e.os.out := by
    refine ensures_loop (I := I) (R := fun r => r.1 = .eof ∧ Written c.records r.2.os.out) ?_
      (.inr ⟨rfl, hc₁⟩) fuel _ hloop
    intro e he r hr
    obtain ⟨⟨state, row, _, s₂⟩, hget, hr⟩ := bind_eq_ok.1 hr
    obtain ⟨⟨state', row', s₂'⟩, hnext, heq⟩ := bind_eq_ok.1 hget
    obtain ⟨rfl, rfl, rfl⟩ : state' = state ∧ row' = row ∧ s₂' = s₂ := by simpa using Except.ok.inj heq
    obtain ⟨c', hc', hstate⟩ := SeqScan.getNext_eq_ok hnext
    have hrecords : e.os.out = [] → c' = ⟨c.records, 0⟩ := by
      intro hout
      rcases he with ⟨hlast, -⟩ | ⟨-, hiter⟩
      · rw [hout] at hlast
        cases hlast
      · exact Except.ok.inj (hc'.symm.trans hiter)
    dsimp only at hr
    split at hstate
    · next hvalid =>
      subst hstate
      obtain ⟨os, hput, hr⟩ := bind_eq_ok.1 hr
      obtain rfl := Except.ok.inj hr
      refine .inl ⟨ensures_putRow _ e.os os hput, ?_⟩
      rcases he with ⟨-, hne⟩ | ⟨hout, -⟩
      · exact hne
      · rintro hnil
        simp [hrecords hout, hnil, Cursor.valid] at hvalid
    · next hvalid =>
      subst hstate
      obtain rfl := Except.ok.inj hr
      refine ⟨rfl, he.imp_right fun ⟨hout, _⟩ => ⟨hout, ?_⟩⟩
      simpa [hrecords hout, Cursor.valid] using hvalid
  obtain ⟨rfl, hwritten⟩ := hwritten
  obtain rfl := Except.ok.inj h
  exact ⟨rfl, c, hc, hwritten⟩

end

end Export

end Dbms18
