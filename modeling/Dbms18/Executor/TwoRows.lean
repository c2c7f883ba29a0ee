import Dbms18.Executor.Expression

/-!
# Expressions over two rows (`executor/compare.cpp`, `logic_expr.cpp`)

`GetValue(row1, row2)` of a comparison takes the left operand from the first row and the right operand
from the second. `LogicExpr` does not pass the pair on: its left child is evaluated on the first row
alone, its right child on the second. So the trees agree with the combination of their comparisons exactly
on rows that no comparison tells apart (`getValue2_eq_iff_alike`).
-/

namespace Dbms18

namespace BooleanExpr

def compareBy2 {α : Type} (read : ValuePointer → Res α) (order : α → α → Option Ordering) (op : OperatorType)
    (left right : ValueExpr) (row1 row2 : TupleRow) : Res Bool := do
  let l ← read (← left.getValue row1)
  let r ← read (← right.getValue row2)
  return op.test (order l r)

/-- `GetValue(row1, row2)`. -/
def getValue2 (e : BooleanExpr) (row1 row2 : TupleRow) : Res Bool :=
  match e with
  | varcharCompare op left right =>
    compareBy2 ValuePointer.bytes (fun l r => some (compare l r)) op left right row1 row2
  | integerCompare op left right =>
    compareBy2 ValuePointer.integer (fun l r => some (compare l r)) op left right row1 row2
  | floatCompare op left right => compareBy2 ValuePointer.double Double.compare op left right row1 row2
  | logicExpr op left right =>
    match op with
    -- the children are given one row each
    | .and => do if ← left.getValue row1 then right.getValue row2 else return false
    | .or => do if ← left.getValue row1 then return true else right.getValue row2
    | .xor => do
      let l ← left.getValue row1
      let r ← right.getValue row2
      return l ^^ r
    | _ => .error .assertion

/-! ## The combination of the comparisons -/

/-- `and`, `or` and `xor` of C++: the right operand is evaluated only if it matters. -/
def combine (op : OperatorType) (left right : Res Bool) : Res Bool :=
  match op with
  | .and => do if ← left then right else return false
  | .or => do if ← left then return true else right
  | .xor => do
    let l ← left
    let r ← right
    return l ^^ r
  | _ => .error .assertion

/-- The tree with its comparisons replaced by the values that `leaf` gives them. -/
def combineLeaves (leaf : BooleanExpr → Res Bool) : BooleanExpr → Res Bool
  | logicExpr op left right => combine op (left.combineLeaves leaf) (right.combineLeaves leaf)
  | e => leaf e

def Comparison : BooleanExpr → Prop
  | logicExpr _ _ _ => False
  | _ => True

/-- A tree of `AND`, `OR` and `XOR` over comparisons. -/
def LogicTree : BooleanExpr → Prop
  | logicExpr op left right => (op = .and ∨ op = .or ∨ op = .xor) ∧ left.LogicTree ∧ right.LogicTree
  | _ => True

def leaves : BooleanExpr → List BooleanExpr
  | logicExpr _ left right => left.leaves ++ right.leaves
  | e => [e]

variable {e left right : BooleanExpr} {row row1 row2 : TupleRow}

theorem combineLeaves_comparison (leaf : BooleanExpr → Res Bool) (he : e.Comparison) : e.combineLeaves leaf = leaf e := by
  cases e with
  | varcharCompare _ _ _ | integerCompare _ _ _ | floatCompare _ _ _ => rfl
  | logicExpr _ _ _ => cases he

theorem comparison_of_mem_leaves {l : BooleanExpr} (hl : l ∈ e.leaves) : l.Comparison := by
  induction e with
  | varcharCompare _ _ _ | integerCompare _ _ _ | floatCompare _ _ _ =>
    obtain rfl := List.mem_singleton.1 hl
    trivial
  | logicExpr _ _ _ ihl ihr => exact (List.mem_append.1 hl).elim ihl ihr

theorem combineLeaves_congr {leaf leaf' : BooleanExpr → Res Bool} (h : ∀ l ∈ e.leaves, leaf l = leaf' l) :
    e.combineLeaves leaf = e.combineLeaves leaf' := by
  induction e with
  | varcharCompare _ _ _ | integerCompare _ _ _ | floatCompare _ _ _ => exact h _ List.mem_cons_self
  | logicExpr op left right ihl ihr =>
    rw [combineLeaves, combineLeaves, ihl fun l hl => h l (List.mem_append_left _ hl),
      ihr fun l hl => h l (List.mem_append_right _ hl)]

theorem getValue_eq_combineLeaves : e.getValue row = e.combineLeaves fun l => l.getValue2 row row := by
  induction e with
  | varcharCompare _ _ _ | integerCompare _ _ _ | floatCompare _ _ _ => rfl
  | logicExpr op left right ihl ihr =>
    cases op <;> simp only [getValue, combineLeaves, combine, ihl, ihr]

theorem getValue2_logicExpr (op : OperatorType) : (logicExpr op left right).getValue2 row1 row2 =
    combine op (left.combineLeaves fun l => l.getValue2 row1 row1) (right.combineLeaves fun l => l.getValue2 row2 row2) := by
  rw [← getValue_eq_combineLeaves, ← getValue_eq_combineLeaves]
  cases op <;> rfl

def Alike (row1 row2 : TupleRow) : Prop :=
  ∀ l : BooleanExpr, l.Comparison →
    l.getValue2 row1 row1 = l.getValue2 row1 row2 ∧ l.getValue2 row2 row2 = l.getValue2 row1 row2

/-- `1 = 1` -/
def equalConstants : BooleanExpr := .integerCompare .equal (.integerConstValue 1) (.integerConstValue 1)

theorem getValue2_equalConstants (row1 row2 : TupleRow) : equalConstants.getValue2 row1 row2 = .ok true := rfl

theorem combine_and_true (r : Res Bool) : combine .and r (.ok true) = r := by
  rcases r with fault | _ | _ <;> rfl

theorem combine_true_and (r : Res Bool) : combine .and (.ok true) r = r := rfl

theorem Alike.getValue2_eq (h : Alike row1 row2) (e : BooleanExpr) :
    e.getValue2 row1 row2 = e.combineLeaves fun l => l.getValue2 row1 row2 := by
  cases e with
  | varcharCompare _ _ _ | integerCompare _ _ _ | floatCompare _ _ _ => rfl
  | logicExpr op left right =>
    rw [getValue2_logicExpr, combineLeaves, combineLeaves_congr fun l hl => (h l (comparison_of_mem_leaves hl)).1,
      combineLeaves_congr fun l hl => (h l (comparison_of_mem_leaves hl)).2]

/-- `GetValue(row1, row2)` is the combination of the comparisons of `row1` with `row2`, whatever the tree, exactly if no
comparison tells the rows apart. Otherwise its conjunction with `1 = 1` is a tree for which it is not. -/
theorem getValue2_eq_iff_alike (row1 row2 : TupleRow) :
    (∀ e : BooleanExpr, e.LogicTree → e.getValue2 row1 row2 = e.combineLeaves fun l => l.getValue2 row1 row2) ↔
      Alike row1 row2 := by
  refine ⟨fun h l hl => ?_, fun h e _ => h.getValue2_eq e⟩
  have htree : l.LogicTree := by
    cases l with
    | varcharCompare _ _ _ | integerCompare _ _ _ | floatCompare _ _ _ => trivial
    | logicExpr _ _ _ => cases hl
  have hleft := h (logicExpr .and l equalConstants) ⟨.inl rfl, htree, trivial⟩
  have hright := h (logicExpr .and equalConstants l) ⟨.inl rfl, trivial, htree⟩
  have hconstants : ∀ leaf, equalConstants.combineLeaves leaf = leaf equalConstants := fun _ => rfl
  rw [getValue2_logicExpr, combineLeaves] at hleft hright
  simp only [combineLeaves_comparison _ hl, hconstants, getValue2_equalConstants, combine_and_true,
    combine_true_and] at hleft hright
  exact ⟨hleft, hright⟩

def integerRow (n : UInt8) : TupleRow := [some (Cells.ofBytes [4, 0, 8, 0, n, 0, 0, 0, 0, 0, 0, 0])]

theorem getValue2_eq_sameRow : ∀ e : BooleanExpr, e.LogicTree →
    e.getValue2 (integerRow 5) (integerRow 5) = e.combineLeaves fun l => l.getValue2 (integerRow 5) (integerRow 5) :=
  (getValue2_eq_iff_alike (integerRow 5) (integerRow 5)).2 fun _ _ => ⟨rfl, rfl⟩

/-- `a = a` -/
def equalColumn : BooleanExpr :=
  .integerCompare .equal (.slotReference ⟨0, 0, .integer⟩) (.slotReference ⟨0, 0, .integer⟩)

/-- `a = a AND a = a` on rows that differ in `a`: no comparison holds between them, and the result is true. -/
theorem logicExpr_getValue2_ne :
    (logicExpr .and equalColumn equalColumn).getValue2 (integerRow 5) (integerRow 7) = .ok true ∧
    (logicExpr .and equalColumn equalColumn).combineLeaves (fun l => l.getValue2 (integerRow 5) (integerRow 7)) = .ok false :=
  ⟨rfl, rfl⟩

end BooleanExpr

end Dbms18
