import Dbms18.Lib.Lists
import Dbms18.Realizer.Predicate

/-!
# Predicates are compiled correctly

A reference evaluation of predicates that knows nothing of tuples and executors: INTEGERs compare as
signed numbers, VARCHARs byte by byte. The expression that `BuildBooleanExpression` makes of a predicate
gives the same truth value on every row (`buildBooleanExpression_evaluates`).
-/

namespace Dbms18

/-! ## The reference -/

def Value.Before : Value → Value → Prop
  | integer a, integer b => a.toInt < b.toInt
  | varchar a, varchar b => List.Lex (fun x y => x.toNat < y.toNat) a b
  | _, _ => False

def OperatorType.Relates (op : OperatorType) (v w : Value) : Prop :=
  match op with
  | .equal => v = w
  | .less => v.Before w
  | .greater => w.Before v
  | .lessOrEqual => v.Before w ∨ v = w
  | .greaterOrEqual => w.Before v ∨ v = w
  | _ => False

namespace ExpressionBase

/-- The truth of a predicate, given the values of its columns. -/
def Evaluates (env : ColumnReference → Option Value) : ExpressionBase → Prop
  | operation .and left right => left.Evaluates env ∧ right.Evaluates env
  | operation .or left right => left.Evaluates env ∨ right.Evaluates env
  | operation .xor left right => Xor (left.Evaluates env) (right.Evaluates env)
  | operation op left right => ∃ v w, left.value env = some v ∧ right.value env = some w ∧ op.Relates v w
  | _ => False

/-- Comparisons of two INTEGERs or of two VARCHARs, joined by AND, OR and XOR. -/
inductive Supported (typeOf : ColumnReference → Option DataType) : ExpressionBase → Prop
  | compare {op : OperatorType} {left right : ExpressionBase} {t : DataType}
      (hop : op = .equal ∨ op = .less ∨ op = .greater ∨ op = .lessOrEqual ∨ op = .greaterOrEqual)
      (ht : t = .integer ∨ t = .varchar) (hl : left.operandType typeOf = some t)
      (hr : right.operandType typeOf = some t) : Supported typeOf (.operation op left right)
  | logic {op : OperatorType} {left right : ExpressionBase} (hop : op = .and ∨ op = .or ∨ op = .xor)
      (hl : Supported typeOf left) (hr : Supported typeOf right) : Supported typeOf (.operation op left right)

end ExpressionBase

/-! ## The comparisons -/

namespace Value

variable {v w : Value} {t : DataType}

section Typed

variable (ht : t = .integer ∨ t = .varchar)

include ht

theorem integers_or_varchars (hv : v.dataType = t) (hw : w.dataType = t) :
    (∃ a b, v = integer a ∧ w = integer b) ∨ ∃ a b, v = varchar a ∧ w = varchar b := by
  rcases ht with rfl | rfl
  · cases v <;> cases hv
    cases w <;> cases hw
    exact .inl ⟨_, _, rfl, rfl⟩
  · cases v <;> cases hv
    cases w <;> cases hw
    exact .inr ⟨_, _, rfl, rfl⟩

theorem compare_eq_lt_iff (hv : v.dataType = t) (hw : w.dataType = t) :
    v.compare w = some .lt ↔ v.Before w := by
  rcases integers_or_varchars ht hv hw with ⟨a, b, rfl, rfl⟩ | ⟨a, b, rfl, rfl⟩
  · rw [Value.compare, Option.some_inj, Std.compare_eq_lt, Int64.lt_iff_toInt_lt, Before]
  · simp only [Value.compare, Option.some_inj, compare_eq_lt_iff_lex, Std.compare_eq_lt, UInt8.lt_iff_toNat_lt, Before]

theorem compare_eq_eq_iff (hv : v.dataType = t) (hw : w.dataType = t) :
    v.compare w = some .eq ↔ v = w := by
  rcases integers_or_varchars ht hv hw with ⟨a, b, rfl, rfl⟩ | ⟨a, b, rfl, rfl⟩
  · simp [Value.compare]
  · simp [Value.compare]

theorem compare_eq_gt_iff (hv : v.dataType = t) (hw : w.dataType = t) :
    v.compare w = some .gt ↔ w.Before v := by
  rw [← compare_eq_lt_iff ht hw hv]
  rcases integers_or_varchars ht hv hw with ⟨a, b, rfl, rfl⟩ | ⟨a, b, rfl, rfl⟩
  · simp only [Value.compare, Option.some_inj, Std.OrientedCmp.gt_iff_lt]
  · simp only [Value.compare, Option.some_inj, Std.OrientedCmp.gt_iff_lt]

theorem test_compare_iff (hv : v.dataType = t) (hw : w.dataType = t)
    (op : OperatorType) : op.test (v.compare w) = true ↔ op.Relates v w := by
  cases op <;>
    simp [OperatorType.test, OperatorType.Relates, compare_eq_lt_iff ht hv hw, compare_eq_eq_iff ht hv hw,
      compare_eq_gt_iff ht hv hw]

end Typed

end Value

namespace ExpressionBase

variable {typeOf : ColumnReference → Option DataType} {e : ExpressionBase}

theorem isCompareOperator_iff {op : OperatorType} : isCompareOperator op = true ↔
    op = .equal ∨ op = .less ∨ op = .greater ∨ op = .lessOrEqual ∨ op = .greaterOrEqual := by
  cases op <;> decide

theorem Supported.wellTyped (he : e.Supported typeOf) : e.WellTyped typeOf := by
  induction he with
  | @compare op left right t hop ht hl hr =>
    rw [WellTyped, if_pos (isCompareOperator_iff.2 hop)]
    exact ⟨t, by rcases ht with rfl | rfl <;> rfl, hl, hr⟩
  | @logic op left right hop _ _ ihl ihr =>
    have hcompare : ¬ isCompareOperator op = true := by rcases hop with rfl | rfl | rfl <;> decide
    rw [WellTyped, if_neg hcompare]
    exact ⟨hop, ihl, ihr⟩

def Valued (typeOf : ColumnReference → Option DataType) (env : ColumnReference → Option Value)
    (refs : List ColumnReference) : Prop :=
  ∀ ref ∈ refs, ∀ t, typeOf ref = some t → ∃ v, env ref = some v ∧ v.dataType = t

variable {env : ColumnReference → Option Value}

theorem exists_typedValue {t : DataType} (hvalued : Valued typeOf env e.columns) (ht : e.operandType typeOf = some t) :
    ∃ v, e.value env = some v ∧ v.dataType = t := by
  match e, ht with
  | columnReference ref, ht => exact hvalued ref List.mem_cons_self t ht
  | constValue (.integer i), ht => exact ⟨.integer i, rfl, Option.some.inj ht⟩
  | constValue (.varchar s), ht => exact ⟨.varchar s, rfl, Option.some.inj ht⟩

theorem Supported.holds_iff (he : e.Supported typeOf) (hvalued : Valued typeOf env e.columns) :
    e.holds env = true ↔ e.Evaluates env := by
  induction he with
  | @compare op left right t hop ht hl hr =>
    obtain ⟨v, hv, hvt⟩ := exists_typedValue (fun ref href => hvalued ref (List.mem_append_left _ href)) hl
    obtain ⟨w, hw, hwt⟩ := exists_typedValue (fun ref href => hvalued ref (List.mem_append_right _ href)) hr
    have heval : (operation op left right).Evaluates env ↔ op.Relates v w := by
      rcases hop with rfl | rfl | rfl | rfl | rfl <;> simp [Evaluates, hv, hw]
    have hholds : (operation op left right).holds env = op.test (v.compare w) := by
      simp [holds, isCompareOperator_iff.2 hop, hv, hw]
    rw [heval, hholds, Value.test_compare_iff ht hvt hwt]
  | @logic op left right hop _ _ ihl ihr =>
    have hl := ihl fun ref href => hvalued ref (List.mem_append_left _ href)
    have hr := ihr fun ref href => hvalued ref (List.mem_append_right _ href)
    have hcompare : ¬ isCompareOperator op = true := by rcases hop with rfl | rfl | rfl <;> decide
    rcases hop with rfl | rfl | rfl <;> rw [Evaluates, ← hl, ← hr, holds, if_neg hcompare]
    · exact Bool.and_eq_true_iff
    · exact Bool.or_eq_true_iff
    · cases left.holds env <;> cases right.holds env <;> simp

end ExpressionBase

/-! ## The compiled predicate -/

namespace QueryRealizer

variable {q : QueryRealizer}

/-- `BuildBooleanExpression` makes an expression of every supported predicate whose columns are bound, and
on every row the expression has the truth value of the reference. -/
theorem buildBooleanExpression_evaluates {e : ExpressionBase} (he : e.Supported q.slotType) :
    ∃ b, q.buildBooleanExpression e = .ok (some b) ∧
      ∀ row env, q.Sees e.columns row env → ∃ t, b.getValue row = .ok t ∧ (t = true ↔ e.Evaluates env) := by
  obtain ⟨b, hb, hvalue⟩ := buildBooleanExpression_correct he.wellTyped
  refine ⟨b, hb, fun row env hsees => ⟨e.holds env, hvalue row env hsees, he.holds_iff fun ref href t ht => ?_⟩⟩
  obtain ⟨slot, hslot, rfl⟩ := Option.map_eq_some_iff.1 ht
  obtain ⟨v, p, hv, hvt, -⟩ := hsees ref href slot hslot
  exact ⟨v, hv, hvt⟩

/-- `a < 7 AND 'x' < 'xy'` -/
def smallColumn : ExpressionBase :=
  .operation .and (.operation .less (.columnReference ⟨0, [], ascii "a"⟩) (.constValue (.integer 7)))
    (.operation .less (.constValue (.varchar (ascii "x"))) (.constValue (.varchar (ascii "xy"))))

/-- A query in which every reference is bound to the first column of the first table. -/
def firstColumn : QueryRealizer :=
  { new .empty (.started fun _ => ∅) with name2slot := fun _ => some ⟨0, 0, .integer⟩ }

theorem buildBooleanExpression_evaluates_smallColumn :
    ∃ b, firstColumn.buildBooleanExpression smallColumn = .ok (some b) ∧
      b.getValue [some (Cells.ofBytes [4, 0, 8, 0, 5, 0, 0, 0, 0, 0, 0, 0])] = .ok true := by
  have hsupported : smallColumn.Supported firstColumn.slotType :=
    .logic (.inl rfl) (.compare (.inr (.inl rfl)) (.inl rfl) rfl rfl) (.compare (.inr (.inl rfl)) (.inr rfl) rfl rfl)
  have hsees : firstColumn.Sees smallColumn.columns [some (Cells.ofBytes [4, 0, 8, 0, 5, 0, 0, 0, 0, 0, 0, 0])]
      fun _ => some (.integer 5) := by
    rintro ref - slot hslot
    obtain rfl := Option.some.inj hslot
    exact ⟨.integer 5, _, rfl, rfl, rfl, rfl, rfl⟩
  have hless : Value.Before (.integer 5) (.integer 7) := by simp [Value.Before]
  have hlex : Value.Before (.varchar (ascii "x")) (.varchar (ascii "xy")) := .cons .nil
  have heval : smallColumn.Evaluates fun _ => some (.integer 5) :=
    ⟨⟨.integer 5, .integer 7, rfl, rfl, hless⟩, ⟨.varchar (ascii "x"), .varchar (ascii "xy"), rfl, rfl, hlex⟩⟩
  obtain ⟨b, hb, hvalue⟩ := buildBooleanExpression_evaluates hsupported
  obtain ⟨t, ht, hiff⟩ := hvalue _ _ hsees
  exact ⟨b, hb, ht.trans (congrArg Except.ok (hiff.2 heval))⟩

end QueryRealizer

end Dbms18
