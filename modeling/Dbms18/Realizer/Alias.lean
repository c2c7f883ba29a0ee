import Dbms18.Realizer.Acceptance
import Dbms18.Realizer.Agreement

/-!
# Aliases of tables (`ParserContext::NewTableReference`, `QueryRealizer::CheckTableFactor`)

For `t AS a` the parser casts the name of the table where it should cast the alias, the constructor of
`TableReference` does not store its argument, and `SetAliasName` assigns the table name. So the node has
the name `t` and no alias, and the columns of the table are found under `t` only (`aliasBound_iff`).
-/

namespace Dbms18

namespace QueryRealizer

variable {catalog : Catalog} {t a : Bytes} {rel : Relation} {q q' : QueryRealizer} {tables : Scope}

/-- `Check` registers the FROM item `t AS a` under `a`, and after that every reference to a column of the
table by `a` is accepted and bound to the item's tuple and the column's slot. -/
structure AliasBound (catalog : Catalog) (t a : Bytes) (rel : Relation) : Prop where
  registered : ∀ (q : QueryRealizer) (tables : Scope), q.catalog = catalog → q.Scoped tables →
    a ∉ tables.map Prod.fst → ∃ q', checkTableFactor (.tableReference (newTableReference t a)) q = .ok (.ok, q') ∧
      q'.name2relation[a]? = some rel ∧ q'.name2tupleIndex[a]? = some tables.length
  bound : ∀ (q q' : QueryRealizer) (tables : Scope), q.catalog = catalog → q.Scoped tables → a ∉ tables.map Prod.fst →
    checkTableFactor (.tableReference (newTableReference t a)) q = .ok (.ok, q') →
    ∀ (ref : ColumnReference) (type : ClauseType) (j : Nat) (attr : Attribute), ref.tableName = a → type ≠ .having →
      rel.getAttributeIndex ref.columnName = some j → rel.attributes[j]? = some attr → q.name2slot ref = none →
      ∃ q'', q'.checkColumnReference ref type = .ok (.ok, q'') ∧
        q''.name2slot ref = some ⟨tables.length, j, attr.dataType⟩

/-- The node of `t AS a` has both names, and the alias is what the query knows the table by. -/
structure AliasResolved (catalog : Catalog) (t a : Bytes) (rel : Relation) : Prop extends AliasBound catalog t a rel where
  tableName : (newTableReference t a).tableName = t
  aliasName : (newTableReference t a).aliasName = a

theorem newTableReference_eq (t a : Bytes) : newTableReference t a = ⟨t, []⟩ := rfl

theorem checkTableFactor_newTableReference (hrel : q.catalog.getRelation t = some rel) (a : Bytes) :
    checkTableFactor (.tableReference (newTableReference t a)) q = .ok (.ok, q.registerTable t rel) := by
  rw [newTableReference_eq, checkTableFactor]
  simp only [hrel]
  rfl

theorem finds_qualified (hq : q.Scoped tables) (ha : a ≠ []) {i : Nat} (htable : tables[i]? = some (a, rel))
    {ref : ColumnReference} (href : ref.tableName = a) {j : Nat} {attr : Attribute}
    (hj : rel.getAttributeIndex ref.columnName = some j) (hattr : rel.attributes[j]? = some attr) :
    tables.Finds ref ⟨i, j, attr.dataType⟩ := by
  have hunique : ∀ i' name rel', tables[i']? = some (name, rel') → (ref.tableName = [] ∨ ref.tableName = name) →
      (rel'.getAttributeIndex ref.columnName).isSome → i' = i := by
    rintro i' name rel' htable' hnamed -
    obtain rfl : a = name := href ▸ hnamed.resolve_left (href ▸ ha)
    exact hq.position_unique htable' htable
  exact ⟨Scope.resolve_of_unique ⟨htable, .inr href, hj, hattr, rfl⟩ hunique, hunique⟩

theorem AliasBound.eq (h : AliasBound catalog t a rel) (hrel : catalog.getRelation t = some rel) : a = t := by
  have hscoped := scoped_new catalog (.started fun _ => ∅)
  obtain ⟨q', hcheck, hrelation, -⟩ := h.registered _ [] rfl hscoped (List.not_mem_nil)
  have heq := checkTableFactor_newTableReference (q := new catalog (.started fun _ => ∅)) hrel a
  obtain ⟨-, rfl⟩ := Prod.mk.inj (Except.ok.inj (hcheck.symm.trans heq))
  have hregistered : (registerTable _ t rel).Scoped [(t, rel)] := hscoped.registerTable List.not_mem_nil
  have hmem := (hregistered.relation a rel).1 hrelation
  simpa using hmem

theorem aliasBound_self (ht : t ≠ []) (hrel : catalog.getRelation t = some rel) : AliasBound catalog t t rel := by
  constructor
  · rintro q tables rfl hq hfree
    have hregistered : (q.registerTable t rel).Scoped (tables ++ [(t, rel)]) := hq.registerTable hfree
    refine ⟨_, checkTableFactor_newTableReference hrel t, ?_, ?_⟩
    · exact (hregistered.relation t rel).2 (List.mem_append_right _ List.mem_cons_self)
    · exact hregistered.getElem?_iff.2 ⟨rel, List.getElem?_concat_length⟩
  · rintro q q' tables rfl hq hfree hcheck ref type j attr href htype hj hattr hslot
    obtain ⟨-, rfl⟩ := Prod.mk.inj (Except.ok.inj (hcheck.symm.trans (checkTableFactor_newTableReference hrel t)))
    have hregistered : (q.registerTable t rel).Scoped (tables ++ [(t, rel)]) := hq.registerTable hfree
    have hfinds := finds_qualified hregistered ht List.getElem?_concat_length href hj hattr
    refine ⟨_, checkColumnReference_eq hregistered hfinds htype, ?_⟩
    have hnone : (q.registerTable t rel).name2slot ref = none := hslot
    rw [insertSlot, hnone]
    exact Function.update_self ..

theorem aliasBound_iff (ha : a ≠ []) (hrel : catalog.getRelation t = some rel) : AliasBound catalog t a rel ↔ a = t := by
  refine ⟨fun h => h.eq hrel, ?_⟩
  rintro rfl
  exact aliasBound_self ha hrel

/-- The node of a table with an alias never has it, and the columns are bound as if there were none. -/
theorem not_aliasResolved (ha : a ≠ []) (hrel : catalog.getRelation t = some rel) :
    ¬ AliasResolved catalog t a rel ∧ (AliasBound catalog t a rel ↔ a = t) :=
  ⟨fun h => ha h.aliasName.symm, aliasBound_iff ha hrel⟩

theorem not_aliasResolved_x : ascii "x" ≠ [] ∧ catalogTU.getRelation (ascii "t") = some tableT ∧
    ¬ AliasResolved catalogTU (ascii "t") (ascii "x") tableT :=
  ⟨by decide, rfl, (not_aliasResolved (by decide) rfl).1⟩

/-- `SELECT x.a FROM t AS x` -/
def selectAlias : SelectStmt where
  selectList := [.columnReference ⟨0, ascii "x", ascii "a"⟩]
  tableReference := [.tableReference (newTableReference (ascii "t") (ascii "x"))]
  optWhere := []
  optGroupBy := []
  optOrderBy := []

/-- The alias is not in the node, and `x.a` is refused. -/
theorem check_selectAlias : newTableReference (ascii "t") (ascii "x") = ⟨ascii "t", []⟩ ∧
    tableT.getAttributeIndex (ascii "a") = some 0 ∧
    (∃ q, check selectAlias (new catalogTU (.started fun _ => ∅)) = .ok (.relationNotFound, q) ∧
      q.message = ascii "cannot find table name [x]") ∧
    ¬ AliasResolved catalogTU (ascii "t") (ascii "x") tableT := by
  refine ⟨rfl, by decide, ⟨_, rfl, rfl⟩, fun h => ?_⟩
  exact absurd (h.toAliasBound.eq rfl) (by decide)

end QueryRealizer

end Dbms18
