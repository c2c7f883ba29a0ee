import Dbms18.Lib.Double
import Dbms18.Parser.Ast

/-!
# Expressions over a row (`executor/slot_reference.cpp`, `const_value.cpp`, `compare.cpp`, `logic_expr.cpp`)

A value expression gives a pointer to its bytes and their number. The comparison that reads through
the pointer decides how many bytes it takes: `VarcharCompare` as many as were given, `IntegerCompare`
and `FloatCompare` eight.
-/

namespace Dbms18

structure SlotReference where
  tupleIndex : Nat
  slotIndex : Nat
  dataType : DataType := .boolean
deriving DecidableEq, Repr

/-- The result of `GetValue(row, &length)`: a pointer into a block of memory, and `length`. -/
structure ValuePointer where
  block : Cells
  offset : Nat
  length : Nat

namespace ValuePointer

def read (p : ValuePointer) (n : Nat) : Res Bytes := Cells.load p.block p.offset n

def bytes (p : ValuePointer) : Res Bytes := p.read p.length

def integer (p : ValuePointer) : Res Int64 := do return (ofLE (← p.read 8)).toUInt64.toInt64

def double (p : ValuePointer) : Res UInt64 := do return (ofLE (← p.read 8)).toUInt64

end ValuePointer

def SlotReference.getValue (slot : SlotReference) (row : TupleRow) : Res ValuePointer := do
  let tuple ← row.getTuple slot.tupleIndex
  let length ← tuple.slotLength slot.slotIndex
  let offset ← tuple.slotOffset slot.slotIndex
  return ⟨tuple, offset.toNat, length.toNat⟩

inductive ValueExpr
  | slotReference (slot : SlotReference)
  | varcharConstValue (value : Bytes)
  | integerConstValue (value : Int64)
deriving DecidableEq

namespace ValueExpr

def getDataType : ValueExpr → DataType
  | slotReference slot => slot.dataType
  | varcharConstValue _ => .varchar
  | integerConstValue _ => .integer

def getValue (e : ValueExpr) (row : TupleRow) : Res ValuePointer :=
  match e with
  | slotReference slot => slot.getValue row
  -- `c_str()`: a NUL byte follows the value
  | varcharConstValue value => .ok ⟨Cells.ofBytes (value ++ [0]), 0, value.length⟩
  | integerConstValue value => .ok ⟨Cells.ofBytes (leBytes 8 value.toUInt64.toNat), 0, 8⟩

end ValueExpr

/-- The `switch` of the comparisons, on how the operands compare (`none` if they are unordered). -/
def OperatorType.test (op : OperatorType) (order : Option Ordering) : Bool :=
  match op with
  | .equal => order = some .eq
  | .less => order = some .lt
  | .greater => order = some .gt
  | .lessOrEqual => order = some .lt ∨ order = some .eq
  | .greaterOrEqual => order = some .gt ∨ order = some .eq
  | _ => false

inductive BooleanExpr
  | varcharCompare (op : OperatorType) (left right : ValueExpr)
  | integerCompare (op : OperatorType) (left right : ValueExpr)
  | floatCompare (op : OperatorType) (left right : ValueExpr)
  | logicExpr (op : OperatorType) (left right : BooleanExpr)
deriving DecidableEq

namespace BooleanExpr

/-- A comparison: both operands read by `read`, then the `switch`. -/
def compareBy {α : Type} (read : ValuePointer → Res α) (order : α → α → Option Ordering) (op : OperatorType)
    (left right : ValueExpr) (row : TupleRow) : Res Bool := do
  let l ← read (← left.getValue row)
  let r ← read (← right.getValue row)
  return op.test (order l r)

def getValue (e : BooleanExpr) (row : TupleRow) : Res Bool :=
  match e with
  | varcharCompare op left right =>
    compareBy ValuePointer.bytes (fun l r => some (compare l r)) op left right row
  | integerCompare op left right =>
    compareBy ValuePointer.integer (fun l r => some (compare l r)) op left right row
  | floatCompare op left right => compareBy ValuePointer.double Double.compare op left right row
  | logicExpr op left right =>
    match op with
    | .and => do if ← left.getValue row then right.getValue row else return false
    | .or => do if ← left.getValue row then return true else right.getValue row
    | .xor => do
      let l ← left.getValue row
      let r ← right.getValue row
      return l ^^ r
    | _ => .error .assertion

end BooleanExpr

end Dbms18
