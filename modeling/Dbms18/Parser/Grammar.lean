import Dbms18.Parser.Ast

/-!
# The trees of a SELECT (`parser/parser.yy`, `parser/parser_context.cpp`)

What the actions of the grammar can build. `NOT e` is an operation without a right operand, a natural
join has no predicate, and `SELECT *` has an empty select list. Of a list in parentheses a join takes
the first item; elsewhere the items are spliced into the list around it.
-/

namespace Dbms18

/-- `expr`. The other productions hand on one of their operands, or the value of a token, which is not
a tree. -/
inductive ExpressionBase.IsExpr : ExpressionBase → Prop
  | column (ref : ColumnReference) : IsExpr (.columnReference ref)
  | const (value : ConstValue) : IsExpr (.constValue value)

/-- `boolean_expression` -/
inductive ExpressionBase.IsBooleanExpression : ExpressionBase → Prop
  | compare {op : OperatorType} {left right : ExpressionBase} (hop : isCompareOperator op = true)
    (hl : left.IsExpr) (hr : right.IsExpr) : IsBooleanExpression (.operation op left right)
  | logic {op : OperatorType} {left right : ExpressionBase} (hop : op = .and ∨ op = .or ∨ op = .xor)
    (hl : IsBooleanExpression left) (hr : IsBooleanExpression right) : IsBooleanExpression (.operation op left right)
  | not {e : ExpressionBase} (h : IsBooleanExpression e) : IsBooleanExpression (.operation .not e .null)

/-- `table_reference` and `table_factor` -/
inductive TableFactor.IsTableReference : TableFactor → Prop
  | table (tableName asName : Bytes) : IsTableReference (.tableReference (newTableReference tableName asName))
  | subQuery : IsTableReference .subQuery
  | join {left right : TableFactor} {predicate : ExpressionBase} (type : JoinType) (hl : IsTableReference left)
    (hr : IsTableReference right) (hp : predicate.IsBooleanExpression) :
    IsTableReference (.joinClause left right predicate type)
  | naturalJoin {left right : TableFactor} (type : JoinType) (hl : IsTableReference left) (hr : IsTableReference right) :
    IsTableReference (.joinClause left right .null type)

/-- `select_stmt` -/
structure SelectStmt.Parsed (stmt : SelectStmt) : Prop where
  selectList : ∀ e ∈ stmt.selectList, e.IsExpr
  tableReference_ne_nil : stmt.tableReference ≠ []
  tableReference : ∀ factor ∈ stmt.tableReference, factor.IsTableReference
  optWhere : stmt.optWhere = [] ∨ ∃ e, stmt.optWhere = [e] ∧ e.IsBooleanExpression
  optGroupBy : ∀ e ∈ stmt.optGroupBy, e.IsExpr
  optOrderBy : ∀ e ∈ stmt.optOrderBy, e.IsExpr

/-! ## The order in which a tree is checked -/

/-- A node that `Check` looks at: a table, a column, or no node at all. -/
inductive Visit
  | table (ref : TableReference)
  | column (ref : ColumnReference)
  | null
deriving DecidableEq

def ExpressionBase.visits : ExpressionBase → List Visit
  | null => [.null]
  | columnReference ref => [.column ref]
  | constValue _ => []
  | operation _ left right => left.visits ++ right.visits

def TableFactor.visits : TableFactor → List Visit
  | tableReference ref => [.table ref]
  | joinClause left right predicate _ => left.visits ++ (right.visits ++ predicate.visits)
  | subQuery => []

def SelectStmt.visits (stmt : SelectStmt) : List Visit :=
  stmt.tableReference.flatMap TableFactor.visits ++ (stmt.optWhere.flatMap ExpressionBase.visits ++
    (stmt.optGroupBy.flatMap ExpressionBase.visits ++ (stmt.selectList.flatMap ExpressionBase.visits ++
      stmt.optOrderBy.flatMap ExpressionBase.visits)))

section

variable {stmt : SelectStmt}

theorem SelectStmt.visits_from_subset {factor : TableFactor} (h : factor ∈ stmt.tableReference) :
    factor.visits ⊆ stmt.visits :=
  fun _ hv => List.mem_append_left _ (List.mem_flatMap.2 ⟨factor, h, hv⟩)

theorem SelectStmt.visits_where_subset {e : ExpressionBase} (h : e ∈ stmt.optWhere) : e.visits ⊆ stmt.visits := by
  intro v hv
  simp only [visits, List.mem_append, List.mem_flatMap]
  exact .inr (.inl ⟨e, h, hv⟩)

theorem SelectStmt.visits_select_subset {e : ExpressionBase} (h : e ∈ stmt.selectList) : e.visits ⊆ stmt.visits := by
  intro v hv
  simp only [visits, List.mem_append, List.mem_flatMap]
  exact .inr (.inr (.inr (.inl ⟨e, h, hv⟩)))

end

theorem ExpressionBase.column_mem_visits {e : ExpressionBase} {ref : ColumnReference} :
    .column ref ∈ e.visits ↔ ref ∈ e.columns := by
  induction e with
  | null | columnReference | constValue => simp [visits, columns]
  | operation op left right ihl ihr => simp [visits, columns, ihl, ihr]

variable {factor : TableFactor}

theorem TableFactor.column_mem_visits {ref : ColumnReference} :
    .column ref ∈ factor.visits ↔ ref ∈ factor.columns := by
  induction factor with
  | tableReference | subQuery => simp [visits, columns]
  | joinClause left right predicate type ihl ihr =>
    simp [visits, columns, ihl, ihr, ExpressionBase.column_mem_visits]

variable {ref : TableReference}

theorem ExpressionBase.table_not_mem_visits {e : ExpressionBase} : .table ref ∉ e.visits := by
  induction e with
  | null | columnReference | constValue => simp [visits]
  | operation op left right ihl ihr => simp [visits, ihl, ihr]

theorem TableFactor.table_mem_visits :
    .table ref ∈ factor.visits ↔ ref ∈ factor.references := by
  induction factor with
  | tableReference | subQuery => simp [visits, references]
  | joinClause left right predicate type ihl ihr =>
    simp [visits, references, ihl, ihr, ExpressionBase.table_not_mem_visits]

theorem TableFactor.IsTableReference.name_eq (h : factor.IsTableReference) :
    ∀ ref ∈ factor.references, ref.name = ref.tableName := by
  induction h with
  | table tableName asName => simp [references, newTableReference, TableReference.setAliasName, TableReference.name]
  | subQuery => simp [references]
  | join type _ _ _ ihl ihr => exact List.forall_mem_append.2 ⟨ihl, ihr⟩
  | naturalJoin type _ _ ihl ihr => exact List.forall_mem_append.2 ⟨ihl, ihr⟩

theorem SelectStmt.Parsed.name_eq {stmt : SelectStmt} (hstmt : stmt.Parsed)
    (h : .table ref ∈ stmt.visits) : ref.name = ref.tableName := by
  have hexprs : ∀ es : List ExpressionBase, .table ref ∉ es.flatMap ExpressionBase.visits := by
    simp [ExpressionBase.table_not_mem_visits]
  simp only [visits, List.mem_append, hexprs, or_false] at h
  obtain ⟨factor, hfactor, h⟩ := List.mem_flatMap.1 h
  exact (hstmt.tableReference factor hfactor).name_eq ref (TableFactor.table_mem_visits.1 h)

end Dbms18
