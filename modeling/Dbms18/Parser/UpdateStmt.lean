import Dbms18.Parser.NodeLists

/-!
# The parse tree of an UPDATE (`ParserContext::NewUpdateStmt`, `parser/parser_context.cpp`)

The three loops call `ast->Next()` and drop the result, so none of them gets past the first node of its
list, and the first one starts from the WHERE expressions instead of the set clauses. The statement is
built only where there is nothing to put into it (`updateBuilt_iff`).
-/

namespace Dbms18

open Res

/-- The clauses of an UPDATE. A pointer that `dynamic_cast` did not convert is null. -/
structure UpdateStmt where
  tableName : Bytes
  setClauseList : List ExpressionBase
  optFromClause : List TableFactor
  optWhere : List ExpressionBase
deriving DecidableEq

namespace NodeHeap

/-- `dynamic_cast<Operation*>` of a pointer. -/
def toOperation (h : NodeHeap) (p : Nat) : Res ExpressionBase := do
  match ← Res.getD (h.node p) .outOfBounds with
  | .expression (.operation op left right) => return .operation op left right
  | _ => return .null

/-- `dynamic_cast<ExpressionBase*>` of a pointer. -/
def toExpressionBase (h : NodeHeap) (p : Nat) : Res ExpressionBase := do
  let node ← Res.getD (h.node p) .outOfBounds
  return node.asExpressionBase.getD .null

/-- The loop of a list that stays at its node. -/
def collectHere {β : Type} (fuel : Nat) (g : Nat → Res β) (list : Option Nat) : Res (List β) :=
  Res.loop (collectStep some g) fuel (list, [])

/-- `ast` is set to `set_clause_list`, and to `opt_where` before the first loop. -/
def newUpdateStmt (fuel : Nat) (h : NodeHeap) (tableName : Nat) (_setClauseList optFromClause optWhere : Option Nat) :
    Res UpdateStmt := do
  let name ← h.cast Node.asReferenceName .nullPointer tableName
  let setClauses ← collectHere fuel h.toOperation optWhere
  let from_ ← collectHere fuel (h.cast Node.asTableFactor .assertion) optFromClause
  let where_ ← collectHere fuel h.toExpressionBase optWhere
  return ⟨name, setClauses, from_, where_⟩

/-- An UPDATE as it is given to `NewUpdateStmt`: the name of the table and three lists, of which that of
the set clauses has operations. -/
structure UpdateNodes (h : NodeHeap) (stmt : UpdateStmt) (table : Nat) (sets froms wheres : List Nat) : Prop where
  table : h.node table = some (.referenceName stmt.tableName)
  setClauseList : h.Holds sets (stmt.setClauseList.map .expression)
  operations : ∀ e ∈ stmt.setClauseList, ∃ op left right, e = .operation op left right
  optFromClause : h.Holds froms (stmt.optFromClause.map .tableFactor)
  optWhere : h.Holds wheres (stmt.optWhere.map .expression)

def UpdateBuilt (h : NodeHeap) (stmt : UpdateStmt) (table : Nat) (sets froms wheres : List Nat) : Prop :=
  ∃ N, ∀ fuel ≥ N, h.newUpdateStmt fuel table sets.head? froms.head? wheres.head? = .ok stmt

variable {h : NodeHeap} {stmt : UpdateStmt} {table : Nat} {sets froms wheres : List Nat} {fuel : Nat}

theorem collectHere_ne_ok {β : Type} {g : Nat → Res β} {p : Nat} {bs : List β} : collectHere fuel g (some p) ≠ .ok bs := by
  suffices hloop : ∀ acc, Res.loop (collectStep some g) fuel (some p, acc) ≠ .ok bs from hloop []
  induction fuel with
  | zero => exact fun acc h => by cases h
  | succ fuel ih =>
    intro acc hloop
    rcases loop_eq_ok hloop with ⟨s, hstep, hloop⟩ | hstep
    · obtain ⟨b, -, heq⟩ := bind_eq_ok.1 hstep
      obtain rfl := Sum.inl.inj (Except.ok.inj heq)
      exact ih _ hloop
    · obtain ⟨b, -, heq⟩ := bind_eq_ok.1 hstep
      cases heq

theorem collectHere_eq_ok {β : Type} {g : Nat → Res β} {list : Option Nat} {bs : List β}
    (h : collectHere fuel g list = .ok bs) : list = none ∧ bs = [] := by
  cases list with
  | some p => exact absurd h collectHere_ne_ok
  | none =>
    cases fuel with
    | zero => cases h
    | succ fuel => exact ⟨rfl, (Except.ok.inj h).symm⟩

theorem newUpdateStmt_eq_ok {setClauseList optFromClause optWhere : Option Nat}
    (hstmt : h.newUpdateStmt fuel table setClauseList optFromClause optWhere = .ok stmt) :
    optFromClause = none ∧ optWhere = none ∧
      stmt.setClauseList = [] ∧ stmt.optFromClause = [] ∧ stmt.optWhere = [] := by
  obtain ⟨name, -, h₁⟩ := bind_eq_ok.1 hstmt
  obtain ⟨setClauses, hsets, h₂⟩ := bind_eq_ok.1 h₁
  obtain ⟨from_, hfroms, h₃⟩ := bind_eq_ok.1 h₂
  obtain ⟨where_, hwheres, heq⟩ := bind_eq_ok.1 h₃
  obtain rfl := Except.ok.inj heq
  exact ⟨(collectHere_eq_ok hfroms).1, (collectHere_eq_ok hwheres).1, (collectHere_eq_ok hsets).2,
    (collectHere_eq_ok hfroms).2, (collectHere_eq_ok hwheres).2⟩

theorem newUpdateStmt_nil {name : Bytes} (htable : h.node table = some (.referenceName name)) (setClauseList : Option Nat)
    (hfuel : 0 < fuel) : h.newUpdateStmt fuel table setClauseList none none = .ok ⟨name, [], [], []⟩ := by
  have hempty : ∀ {β : Type} (g : Nat → Res β), collectHere fuel g none = .ok [] := fun g => loop_return hfuel rfl
  rw [newUpdateStmt, cast_eq Node.asReferenceName htable rfl, ok_bind, hempty, ok_bind, hempty, ok_bind, hempty]
  rfl

theorem UpdateBuilt.eq_nil (hbuilt : h.UpdateBuilt stmt table sets froms wheres) :
    stmt.setClauseList = [] ∧ stmt.optFromClause = [] ∧ stmt.optWhere = [] := by
  obtain ⟨N, hN⟩ := hbuilt
  exact (newUpdateStmt_eq_ok (hN N le_rfl)).2.2

theorem updateBuilt_iff (hstmt : h.UpdateNodes stmt table sets froms wheres) :
    h.UpdateBuilt stmt table sets froms wheres ↔
      stmt.setClauseList = [] ∧ stmt.optFromClause = [] ∧ stmt.optWhere = [] := by
  refine ⟨UpdateBuilt.eq_nil, ?_⟩
  rintro ⟨hsets, hfroms, hwheres⟩
  have hnil : ∀ {ps : List Nat}, h.Holds ps [] → ps = [] := fun hps => List.forall₂_nil_right_iff.1 hps.nodes
  have hfrom : froms = [] := hnil (by simpa [hfroms] using hstmt.optFromClause)
  have hwhere : wheres = [] := hnil (by simpa [hwheres] using hstmt.optWhere)
  obtain ⟨name, setClauses, from_, where_⟩ := stmt
  obtain rfl : setClauses = [] := hsets
  obtain rfl : from_ = [] := hfroms
  obtain rfl : where_ = [] := hwheres
  refine ⟨1, fun fuel hfuel => ?_⟩
  rw [hfrom, hwhere]
  exact newUpdateStmt_nil hstmt.table _ hfuel

/-! ## Two updates of a table -/

/-- `a = 1`, as `NewExpression` makes it of a name and a value. -/
def assignment : ExpressionBase := .operation .assign .null (.constValue (.integer 1))

/-- `b = 2` -/
def condition : ExpressionBase := .operation .equal (.columnReference ⟨0, [], ascii "B"⟩) (.constValue (.integer 2))

def updateHeap : NodeHeap where
  node
    | 0 => some (.referenceName (ascii "T"))
    | 1 => some (.expression assignment)
    | 2 => some (.expression condition)
    | _ => none
  links _ := Links.null

theorem updateNodes_assignment : updateHeap.UpdateNodes ⟨ascii "T", [assignment], [], []⟩ 0 [1] [] [] where
  table := rfl
  setClauseList := ⟨⟨rfl, trivial⟩, .cons rfl .nil⟩
  operations := by simp [assignment]
  optFromClause := ⟨trivial, .nil⟩
  optWhere := ⟨trivial, .nil⟩

theorem updateNodes_condition : updateHeap.UpdateNodes ⟨ascii "T", [assignment], [], [condition]⟩ 0 [1] [] [2] where
  table := rfl
  setClauseList := ⟨⟨rfl, trivial⟩, .cons rfl .nil⟩
  operations := by simp [assignment]
  optFromClause := ⟨trivial, .nil⟩
  optWhere := ⟨⟨rfl, trivial⟩, .cons rfl .nil⟩

theorem updateBuilt_iff_nothing : updateHeap.UpdateNodes ⟨ascii "T", [], [], []⟩ 0 [] [] [] ∧
    updateHeap.UpdateBuilt ⟨ascii "T", [], [], []⟩ 0 [] [] [] := by
  have hnodes : updateHeap.UpdateNodes ⟨ascii "T", [], [], []⟩ 0 [] [] [] :=
    ⟨rfl, ⟨trivial, .nil⟩, by simp, ⟨trivial, .nil⟩, ⟨trivial, .nil⟩⟩
  exact ⟨hnodes, (updateBuilt_iff hnodes).2 ⟨rfl, rfl, rfl⟩⟩

/-- `UPDATE T SET a = 1` loses its set clause, and `UPDATE T SET a = 1 WHERE b = 2` is never built. -/
theorem not_updateBuilt_assignment :
    (updateHeap.UpdateNodes ⟨ascii "T", [assignment], [], []⟩ 0 [1] [] [] ∧
      (∀ fuel > 0, updateHeap.newUpdateStmt fuel 0 (some 1) none none = .ok ⟨ascii "T", [], [], []⟩) ∧
      ¬ updateHeap.UpdateBuilt ⟨ascii "T", [assignment], [], []⟩ 0 [1] [] []) ∧
    updateHeap.UpdateNodes ⟨ascii "T", [assignment], [], [condition]⟩ 0 [1] [] [2] ∧
      ∀ fuel stmt, updateHeap.newUpdateStmt fuel 0 (some 1) none (some 2) ≠ .ok stmt := by
  refine ⟨⟨updateNodes_assignment, fun fuel hfuel => newUpdateStmt_nil rfl _ hfuel, fun h => ?_⟩,
    updateNodes_condition, fun fuel stmt h => ?_⟩
  · exact List.cons_ne_nil _ _ h.eq_nil.1
  · cases (newUpdateStmt_eq_ok h).2.1

end NodeHeap

end Dbms18
