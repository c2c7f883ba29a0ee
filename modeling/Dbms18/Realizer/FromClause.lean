import Dbms18.Executor.Feed
import Dbms18.Realizer.Meaning
import Dbms18.Realizer.Outcome
import Dbms18.Storage.CatalogRestart

/-!
# What the plan of a FROM clause feeds to the executors above it

`BuildJoin` does not look at the join type, and builds only the first item of the list. So the rows that
WHERE and the projection get are those of the inner joins of the first item.
-/

namespace Dbms18

open List

namespace TableFactor

variable (tables : Scope) (stored : Bytes → List StoredRow)

def Placed (catalog : Catalog) (factor : TableFactor) (b : Nat) : Prop :=
  ∀ (k : Nat) (ref : TableReference), factor.references[k]? = some ref →
    ∃ rel, tables[b + k]? = some (ref.name, rel) ∧ catalog.getRelation ref.tableName = some rel

variable {tables stored} {catalog : Catalog} {factor f g : TableFactor} {predicate : ExpressionBase} {type : JoinType}
  {b : Nat}

theorem Placed.left (h : (joinClause f g predicate type).Placed tables catalog b) : f.Placed tables catalog b := by
  intro k ref hk
  exact h k ref (by rw [references, getElem?_append_left (List.getElem?_eq_some_iff.1 hk).1, hk])

theorem Placed.right (h : (joinClause f g predicate type).Placed tables catalog b) :
    g.Placed tables catalog (b + f.references.length) := by
  intro k ref hk
  rw [Nat.add_assoc]
  exact h _ ref (by rw [references, getElem?_append_right (Nat.le_add_right ..), Nat.add_sub_cancel_left, hk])

end TableFactor

def SelectStmt.scope (stmt : SelectStmt) (catalog : Catalog) : Scope := Scope.visitAll catalog [] stmt.visits

/-! ## The scope of an accepted SELECT -/

namespace QueryRealizer

variable {q q₁ q₂ : QueryRealizer} {tables : Scope} {catalog : Catalog} {storage : LevelStore} {stmt : SelectStmt}
  {factor : TableFactor} {rest : List TableFactor} {stored : Bytes → List StoredRow}

theorem Scoped.unique {tables' : Scope} (h : q.Scoped tables) (h' : q.Scoped tables') : tables = tables' := by
  have hsub : ∀ {tables tables' : Scope}, q.Scoped tables → q.Scoped tables' → ∀ (i : Nat) (t : Bytes × Relation),
      tables[i]? = some t → tables'[i]? = some t := by
    rintro tables tables' h h' i ⟨name, rel⟩ ht
    obtain ⟨rel', ht'⟩ := h'.getElem?_iff.1 (h.getElem?_iff.2 ⟨rel, ht⟩)
    have hrel := (h.relation name rel).2 (mem_of_getElem? ht)
    have hrel' := (h'.relation name rel').2 (mem_of_getElem? ht')
    rw [ht', Option.some.inj (hrel.symm.trans hrel')]
  exact ext_getElem? fun i => Option.ext fun t => ⟨hsub h h' i t, hsub h' h i t⟩

variable {s : LevelStore}

variable {sub : List Bool → List Combination}

end QueryRealizer

end Dbms18
