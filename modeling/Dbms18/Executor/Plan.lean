import Dbms18.Executor.Expression
import Dbms18.Executor.SeqScan
import Dbms18.Lib.Loop

/-!
# Executors and plans (`executor/*.cpp`)

An executor is an object with the virtual methods `Prepare`, `Open`, `GetNext` and `Close`. Its members
that change are a value of type `σ`; what it shares with other executors, here the storage, is the
world of type `ω`. The operators are written over any children, and a plan says which operators are
built over which.
-/

namespace Dbms18

/-- `ExecInterface`. -/
structure Executor (ω σ : Type) where
  prepare : σ → ω → Res (State × σ × ω)
  execOpen : σ → ω → Res (State × σ × ω)
  getNext : σ → ω → TupleRow → Res (State × TupleRow × σ × ω)
  close : σ → ω → Res (σ × ω)

/-- One call of `GetNext` for each of the given rows, with the states and rows that come back. -/
def Executor.fetch {ω σ : Type} (E : Executor ω σ) :
    List TupleRow → σ → ω → Res (List (State × TupleRow) × σ × ω)
  | [], x, w => .ok ([], x, w)
  | row :: rows, x, w => do
    let (state, row, x, w) ← E.getNext x w row
    let (results, x, w) ← E.fetch rows x w
    return ((state, row) :: results, x, w)

namespace SeqScan

def executor (scan : SeqScan) : Executor LevelStore Unit where
  prepare _ s := .ok (.ok, (), s)
  execOpen _ s := do
    let (state, s) ← scan.execOpen s
    return (state, (), s)
  getNext _ s row := do
    let (state, row, s) ← scan.getNext s row
    return (state, row, (), s)
  close _ s := .ok ((), s)

end SeqScan

structure NestedLoopJoin (σ τ : Type) where
  left : σ
  right : τ
  leftState : State := .ok
  rightState : State := .ok
  row : TupleRow

namespace NestedLoopJoin

variable {ω σ τ : Type} (left : Executor ω σ) (right : Executor ω τ) (joinPredicate : BooleanExpr)

def new (tupleCount : Nat) (left : σ) (right : τ) : NestedLoopJoin σ τ where
  left := left
  right := right
  row := TupleRow.new tupleCount

def prepare (j : NestedLoopJoin σ τ) (w : ω) : Res (State × NestedLoopJoin σ τ × ω) := do
  let (state, l, w) ← left.prepare j.left w
  let j := { j with left := l }
  if state ≠ .ok then return (state, j, w)
  let (state, r, w) ← right.prepare j.right w
  return (state, { j with right := r }, w)

def execOpen (j : NestedLoopJoin σ τ) (w : ω) : Res (State × NestedLoopJoin σ τ × ω) := do
  let (state, l, w) ← left.execOpen j.left w
  let j := { j with left := l }
  if state ≠ .ok then return (state, j, w)
  let (state, r, w) ← right.execOpen j.right w
  let j := { j with right := r }
  if state ≠ .ok then return (state, j, w)
  -- the first row of the left table
  let (leftState, joinRow, l, w) ← left.getNext j.left w j.row
  let j := { j with left := l, row := joinRow, leftState }
  if leftState ≠ .eof ∧ leftState ≠ .ok then return (leftState, j, w)
  return (.ok, { j with rightState := .ok }, w)

/-- One pass of the loop in `GetNext(row)`. -/
def step (row : TupleRow) (jw : NestedLoopJoin σ τ × ω) :
    Res (NestedLoopJoin σ τ × ω ⊕ State × TupleRow × NestedLoopJoin σ τ × ω) := do
  let (j, w) := jw
  if j.leftState = .eof ∧ j.rightState = .eof then return .inr (.eof, row, j, w)
  let (rightState, joinRow, r, w) ← right.getNext j.right w j.row
  let j := { j with right := r, row := joinRow, rightState }
  if rightState = .ok then
    if ← joinPredicate.getValue j.row then return .inr (.ok, j.row.copyTo row, j, w)
    return .inl (j, w)
  else if rightState = .eof then
    let (leftState, joinRow, l, w) ← left.getNext j.left w j.row
    let j := { j with left := l, row := joinRow, leftState }
    if leftState ≠ .ok then return .inr (leftState, row, j, w)
    let (rightState, r, w) ← right.execOpen j.right w
    let j := { j with right := r, rightState }
    if rightState ≠ .ok then return .inr (rightState, row, j, w)
    return .inl (j, w)
  else return .inr (rightState, row, j, w)

def getNext (fuel : Nat) (j : NestedLoopJoin σ τ) (w : ω) (row : TupleRow) :
    Res (State × TupleRow × NestedLoopJoin σ τ × ω) :=
  Res.loop (step left right joinPredicate row) fuel (j, w)

def close (j : NestedLoopJoin σ τ) (w : ω) : Res (NestedLoopJoin σ τ × ω) := do
  let (l, w) ← left.close j.left w
  let (r, w) ← right.close j.right w
  return ({ j with left := l, right := r }, w)

def executor (fuel : Nat) : Executor ω (NestedLoopJoin σ τ) where
  prepare := prepare left right
  execOpen := execOpen left right
  getNext := getNext left right joinPredicate fuel
  close := close left right

end NestedLoopJoin

namespace Select

variable {ω σ : Type} (left : Executor ω σ) (predicate : BooleanExpr)

/-- One pass of the loop in `GetNext`. Any state of the child but `kStateEOF` is taken for a row. -/
def step (lw : σ × ω × TupleRow) : Res (σ × ω × TupleRow ⊕ State × TupleRow × σ × ω) := do
  let (l, w, row) := lw
  let (state, row, l, w) ← left.getNext l w row
  if state = .eof then return .inr (.eof, row, l, w)
  if ← predicate.getValue row then return .inr (.ok, row, l, w)
  return .inl (l, w, row)

/-- A selection has no members of its own that change. -/
def executor (fuel : Nat) : Executor ω σ where
  prepare := left.prepare
  execOpen := left.execOpen
  getNext l w row := Res.loop (step left predicate) fuel (l, w, row)
  close := left.close

end Select

structure Project (σ : Type) where
  left : σ
  tupleRow : TupleRow

namespace Project

variable {ω σ : Type} (left : Executor ω σ) (projectAttr : List ValueExpr)

def new (tupleCount : Nat) (left : σ) : Project σ := ⟨left, TupleRow.new tupleCount⟩

/-- One pass of the loop that fills the tuple: the tuple so far and where the next value goes, an
`uint32_t`. -/
def write (tupleRow : TupleRow) (acc : RawTuple × Nat) (attr : ValueExpr × Nat) : Res (RawTuple × Nat) := do
  let (tuple, off) := acc
  let value ← attr.1.getValue tupleRow
  let tuple ← tuple.setSlot attr.2 off value.length
  let tuple ← tuple.setValue off (← value.bytes)
  return (tuple, (off + value.length) % 2 ^ 32)

def projected (tupleRow : TupleRow) : Res RawTuple := do
  let slots := sizeofSlot * projectAttr.length % 2 ^ 32
  let tupleSize ← projectAttr.foldlM (fun size e => do return (size + (← e.getValue tupleRow).length) % 2 ^ 32) slots
  let (tuple, _) ← projectAttr.zipIdx.foldlM (write tupleRow) (RawTuple.createTuple tupleSize, slots)
  return tuple

def getNext (p : Project σ) (w : ω) (row : TupleRow) : Res (State × TupleRow × Project σ × ω) := do
  let (state, tupleRow, l, w) ← left.getNext p.left w p.tupleRow
  let p : Project σ := ⟨l, tupleRow⟩
  if state ≠ .ok then return (state, row, p, w)
  let row ← row.setTuple 0 (← projected projectAttr p.tupleRow)
  return (.ok, row, p, w)

def executor : Executor ω (Project σ) where
  prepare p w := do
    let (state, l, w) ← left.prepare p.left w
    return (state, { p with left := l }, w)
  execOpen p w := do
    let (state, l, w) ← left.execOpen p.left w
    return (state, { p with left := l }, w)
  getNext := getNext left projectAttr
  close p w := do
    let (l, w) ← left.close p.left w
    return ({ p with left := l }, w)

end Project

/-- The executors `Build` puts together, with what their constructors are given. -/
inductive Plan
  | seqScan (scan : SeqScan)
  | nestedLoopJoin (tupleCount : Nat) (left right : Plan) (joinPredicate : BooleanExpr)
  | select (left : Plan) (predicate : BooleanExpr)
  | project (left : Plan) (projectAttr : List ValueExpr) (tupleCount : Nat)
deriving DecidableEq

namespace Plan

def Members : Plan → Type
  | seqScan _ => Unit
  | nestedLoopJoin _ left right _ => NestedLoopJoin left.Members right.Members
  | select left _ => left.Members
  | project left _ _ => Project left.Members

def new : (p : Plan) → p.Members
  | seqScan _ => ()
  | nestedLoopJoin tupleCount left right _ => NestedLoopJoin.new tupleCount left.new right.new
  | select left _ => left.new
  | project left _ tupleCount => Project.new tupleCount left.new

def executor (fuel : Nat) : (p : Plan) → Executor LevelStore p.Members
  | seqScan scan => scan.executor
  | nestedLoopJoin _ left right joinPredicate =>
    NestedLoopJoin.executor (left.executor fuel) (right.executor fuel) joinPredicate fuel
  | select left predicate => Select.executor (left.executor fuel) predicate fuel
  | project left projectAttr _ => Project.executor (left.executor fuel) projectAttr

end Plan

end Dbms18
