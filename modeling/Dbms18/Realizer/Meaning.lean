import Dbms18.Lib.OuterJoin
import Dbms18.Realizer.JoinChain

/-!
# What a FROM clause means

The rows of a FROM clause, as SQL has them: the items of the list combine as a cross product, and a join
as the pairs for which its predicate is true, together with the unmatched rows of the side or sides that
it preserves. A predicate over nulls can be unknown, so its truth has three values. Nothing here is
taken from `BuildJoin`.
-/

namespace Dbms18

open List

/-! ## Three-valued truth -/

namespace ExpressionBase

variable (env : ColumnReference → Option Value) (typeOf : ColumnReference → Option DataType)

def and3 : Option Bool → Option Bool → Option Bool
  | some false, _ | _, some false => some false
  | some true, some true => some true
  | _, _ => none

def or3 : Option Bool → Option Bool → Option Bool
  | some true, _ | _, some true => some true
  | some false, some false => some false
  | _, _ => none

/-- The truth of a predicate, where a comparison with a null is unknown. -/
def truth : ExpressionBase → Option Bool
  | operation op left right =>
    if isCompareOperator op then do
      let v ← left.value env
      let w ← right.value env
      return op.test (v.compare w)
    else
      match op with
      | .and => and3 left.truth right.truth
      | .or => or3 left.truth right.truth
      | .xor => do return (← left.truth) ^^ (← right.truth)
      | .not => left.truth.map not
      | _ => none
  | _ => none

variable {env typeOf} {e : ExpressionBase}

end ExpressionBase

/-! ## The rows of a FROM clause -/

/-- A row of a FROM clause: the row of each of its tables, or nulls in place of one. -/
abbrev Combination := List (Bytes × Option StoredRow)

namespace Combination

def complete (c : Combination) : Bool := c.all fun t => t.2.isSome

/-- The tuples of the combination, where an executor's row has them. -/
def tuples (c : Combination) : TupleRow := c.map fun t => t.2.map StoredRow.tuple

/-- The value of a column: the table that the reference means is found by its name. -/
def env (tables : Scope) (c : Combination) (ref : ColumnReference) : Option Value := do
  let slot ← tables.resolve ref
  let table ← tables[slot.tupleIndex]?
  let found ← c.find? fun t => t.1 == table.1
  let row ← found.2
  row.values[slot.slotIndex]?

def passes (tables : Scope) (p : ExpressionBase) (c : Combination) : Bool := p.truth (c.env tables) == some true

end Combination

namespace TableFactor

variable (tables : Scope) (stored : Bytes → List StoredRow)

end TableFactor

namespace TableFactor

variable {tables : Scope} {stored : Bytes → List StoredRow} {sub : List Bool → List Combination}
  {factor : TableFactor}

end TableFactor

namespace Combination

variable {tables : Scope} {stored : Bytes → List StoredRow} {b : Nat} {c c' : Combination}

/-- The combination has stored rows of the tables from position `b` on. -/
def At (tables : Scope) (stored : Bytes → List StoredRow) (b : Nat) (rows : Combination) : Prop :=
  ∀ (k : Nat) (x : Bytes × Option StoredRow), rows[k]? = some x →
    ∃ t r, tables[b + k]? = some t ∧ x = (t.1, some r) ∧ r ∈ stored t.1

theorem At.append (h : c.At tables stored b) (h' : c'.At tables stored (b + c.length)) : (c ++ c').At tables stored b := by
  intro k x hx
  rw [getElem?_append] at hx
  split at hx
  · exact h k x hx
  · next hk =>
    obtain ⟨t, r, ht, hr⟩ := h' _ x hx
    exact ⟨t, r, by rwa [Nat.add_assoc, Nat.add_sub_cancel' (not_lt.1 hk)] at ht, hr⟩

end Combination

end Dbms18
