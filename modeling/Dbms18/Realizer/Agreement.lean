import Dbms18.Realizer.Scope

/-!
# `Check` and `Build` number the tables alike

`Check` numbers the tables by the size of a map, `Build` by the number of row descriptions collected.
Both walk the FROM clause from left to right, so after `i` tables of `Build` the descriptions are those
of the first `i` tables of the scope that `Check` made.
-/

namespace Dbms18.QueryRealizer

open Res List

variable {q q' : QueryRealizer} {tables : Scope} {plan : Plan} {ref : TableReference} {factor : TableFactor}

/-! ## What each part of `Build` does -/

theorem buildTableScan_eq_ok (h : q.buildTableScan ref = .ok (plan, q')) :
    ∃ rel iter storage relation, q.catalog.getRelation ref.tableName = some rel ∧
      q.storage.newIterator rel.id = .ok (iter, storage) ∧ q.name2relation[ref.name]? = some relation ∧
      plan = .seqScan ⟨iter, q.allTupleDesc.length⟩ ∧
      q' = { q with
        storage
        allIter := q.allIter ++ [iter]
        allTupleDesc := q.allTupleDesc ++ [relation.toDesc] } := by
  simp only [buildTableScan, bind_eq_ok, getD_eq_ok] at h
  obtain ⟨rel, hrel, ⟨iter, storage⟩, hiter, relation, hrelation, heq⟩ := h
  obtain ⟨rfl, rfl⟩ := Prod.mk.inj (Except.ok.inj heq)
  exact ⟨rel, iter, storage, relation, hrel, hiter, hrelation, rfl, rfl⟩

theorem buildJoin_joinClause_eq_ok {left right : TableFactor} {predicate : ExpressionBase} {type : JoinType}
    (h : buildJoin (.joinClause left right predicate type) q = .ok (plan, q')) :
    ∃ leftExec q₁ rightExec e, buildJoin left q = .ok (leftExec, q₁) ∧ buildJoin right q₁ = .ok (rightExec, q') ∧
      q'.buildBooleanExpression predicate = .ok (some e) ∧
      plan = .nestedLoopJoin q'.name2relation.size leftExec rightExec e := by
  simp only [buildJoin, bind_eq_ok, getD_eq_ok] at h
  obtain ⟨⟨leftExec, q₁⟩, hl, ⟨rightExec, q₂⟩, hr, _, he, e, rfl, heq⟩ := h
  obtain ⟨rfl, rfl⟩ := Prod.mk.inj (Except.ok.inj heq)
  exact ⟨leftExec, q₁, rightExec, e, hl, hr, he, rfl⟩

/-- `plan` is the plan of the FROM clause: a scan for each table, with an iterator of its relation and
the tuple index recorded for its name, and a join for each join, with the tuple count `n`. -/
inductive BuiltFor (catalog : Catalog) (indexOf : Bytes → Option Nat) (n : Nat) : TableFactor → Plan → Prop
  | scan {ref : TableReference} {scan : SeqScan} {rel : Relation} {s s' : LevelStore}
    (hrel : catalog.getRelation ref.tableName = some rel) (hiter : s.newIterator rel.id = .ok (scan.iterator, s'))
    (hindex : indexOf ref.name = some scan.tupleIndex) :
    BuiltFor catalog indexOf n (.tableReference ref) (.seqScan scan)
  | join {left right : TableFactor} {predicate : ExpressionBase} {type : JoinType} {l r : Plan} {e : BooleanExpr}
    (hl : BuiltFor catalog indexOf n left l) (hr : BuiltFor catalog indexOf n right r) :
    BuiltFor catalog indexOf n (.joinClause left right predicate type) (.nestedLoopJoin n l r e)

/-- `q'` is `q` with more iterators and more row descriptions. -/
def Grows (q q' : QueryRealizer) : Prop :=
  q' = { q with storage := q'.storage, allIter := q'.allIter, allTupleDesc := q'.allTupleDesc }

theorem Scoped.grows (hq : q.Scoped tables) (h : Grows q q') : q'.Scoped tables := by
  rw [h]
  exact ⟨hq.index, hq.relation, hq.indexSize, hq.relationSize, hq.slot⟩

def Scope.descs (tables : Scope) : List RowDesc := tables.map fun t => t.2.toDesc

theorem builtFor_of_buildJoin {i : Nat} (hq : q.Scoped tables)
    (hdesc : q.allTupleDesc = Scope.descs (tables.take i)) (hlen : i + factor.references.length ≤ tables.length)
    (hpos : ∀ k ref, factor.references[k]? = some ref → ∃ rel, tables[i + k]? = some (ref.name, rel))
    (h : buildJoin factor q = .ok (plan, q')) :
    BuiltFor q.catalog (fun name => q.name2tupleIndex[name]?) tables.length factor plan ∧
      q'.allTupleDesc = Scope.descs (tables.take (i + factor.references.length)) ∧ Grows q q' := by
  induction factor generalizing q q' plan i with
  | tableReference ref =>
    obtain ⟨rel, iter, storage, relation, hrel, hiter, hrelation, rfl, rfl⟩ := buildTableScan_eq_ok h
    obtain ⟨rel', htable⟩ := hpos 0 ref rfl
    obtain ⟨j, hj⟩ := mem_iff_getElem?.1 ((hq.relation _ _).1 hrelation)
    obtain rfl := hq.position_unique htable hj
    obtain rfl := (Prod.mk.inj (Option.some.inj (htable.symm.trans hj))).2
    have hi : q.allTupleDesc.length = i := by
      rw [hdesc, Scope.descs, length_map, length_take]
      exact Nat.min_eq_left (Nat.le_of_add_right_le hlen)
    refine ⟨.scan hrel hiter (hq.getElem?_iff.2 ⟨rel', ?_⟩), ?_, rfl⟩
    · simpa [hi] using htable
    · simp only [TableFactor.references, length_singleton, take_add_one]
      rw [hdesc, show tables[i]? = some (ref.name, rel') by simpa using htable]
      simp [Scope.descs]
  | joinClause left right predicate type ihl ihr =>
    obtain ⟨leftExec, q₁, rightExec, e, hl, hr, -, rfl⟩ := buildJoin_joinClause_eq_ok h
    simp only [TableFactor.references, length_append, ← Nat.add_assoc] at hlen hpos ⊢
    obtain ⟨hleft, hdesc₁, hgrows₁⟩ := ihl hq hdesc (by omega)
      (fun k ref hk => hpos k ref (by rw [getElem?_append_left (List.getElem?_eq_some_iff.1 hk).1, hk])) hl
    obtain ⟨hright, hdesc₂, hgrows₂⟩ := ihr (hq.grows hgrows₁) hdesc₁ hlen (fun k ref hk => by
      obtain ⟨rel, hrel⟩ := hpos (left.references.length + k) ref (by
        rw [getElem?_append_right (Nat.le_add_right ..), Nat.add_sub_cancel_left, hk])
      exact ⟨rel, by rw [Nat.add_assoc, hrel]⟩) hr
    have hgrows : Grows q q' := by
      rw [Grows, hgrows₂, hgrows₁]
    have hsize : q'.name2relation.size = tables.length := (hq.grows hgrows).relationSize
    rw [hgrows₁] at hright
    rw [hsize]
    exact ⟨.join hleft hright, hdesc₂, hgrows⟩
  | subQuery => cases h

/-! ## The projection -/

/-- The entry of `projection_list_` is a slot, and the description is that of the same column of the
same table. -/
def Denotes (tables : Scope) (entry : ValueExpr) (desc : ColumnDesc) : Prop :=
  ∃ slot name rel, entry = .slotReference slot ∧ tables[slot.tupleIndex]? = some (name, rel) ∧
    rel.toDesc[slot.slotIndex]? = some desc

structure Projected (q : QueryRealizer) (tables : Scope) : Prop where
  descs : q.allTupleDesc = Scope.descs tables
  columns : List.Forall₂ (Denotes tables) q.projectionList q.outputRowDesc

def Projects (q q' : QueryRealizer) : Prop :=
  q' = { q with projectionList := q'.projectionList, outputRowDesc := q'.outputRowDesc }

theorem Projected.pushColumn (hq : q.Projected tables) {slot : SlotReference} {rowDesc : RowDesc} {desc : ColumnDesc}
    (hrow : q.allTupleDesc[slot.tupleIndex]? = some rowDesc) (hdesc : rowDesc[slot.slotIndex]? = some desc) :
    (q.pushColumn slot desc).Projected tables := by
  refine ⟨hq.descs, rel_append hq.columns (.cons ⟨slot, ?_⟩ .nil)⟩
  rw [hq.descs, Scope.descs, getElem?_map, Option.map_eq_some_iff] at hrow
  obtain ⟨⟨name, rel⟩, htable, rfl⟩ := hrow
  exact ⟨name, rel, rfl, htable, hdesc⟩

theorem projected_of_projectTargets {targets : List ExpressionBase} {ok : Bool} (hq : q.Projected tables)
    (h : projectTargets targets q = .ok (ok, q')) :
    q'.Projected tables ∧ (ok = true → Projects q q') := by
  fun_induction projectTargets targets q with
  | case1 q =>
    obtain ⟨rfl, rfl⟩ := Prod.mk.inj (Except.ok.inj h)
    exact ⟨hq, fun _ => rfl⟩
  | case2 => cases h
  | case3 q ref targets hslot =>
    obtain ⟨rfl, rfl⟩ := Prod.mk.inj (Except.ok.inj h)
    exact ⟨⟨hq.descs, hq.columns⟩, nofun⟩
  | case4 q ref targets slot hslot ih =>
    simp only [bind_eq_ok, getD_eq_ok] at h
    obtain ⟨rowDesc, hrow, desc, hdesc, h⟩ := h
    obtain ⟨hq', hprojects⟩ := ih desc (hq.pushColumn hrow hdesc) h
    exact ⟨hq', fun hok => hprojects hok⟩
  | case5 q target targets _ _ ih => exact ih hq h

theorem projected_of_projectStar (hq : q.Projected tables) (h : q.projectStar = .ok q') :
    q'.Projected tables ∧ Projects q q' := by
  have hinit : q.Projected tables ∧ Projects q q := ⟨hq, rfl⟩
  refine foldlM_keeps (P := fun q' => q'.Projected tables ∧ Projects q q') ?_ hinit h
  intro q₁ ⟨name, relation⟩ _ q₂ hq₁ h₂
  refine foldlM_keeps (P := fun q' => q'.Projected tables ∧ Projects q q') ?_ hq₁ h₂
  intro q₃ a _ q₄ ⟨hq₃, hprojects⟩ h₄
  simp only [projectAttribute, RowDesc.getColumnDesc, bind_eq_ok, getD_eq_ok] at h₄
  obtain ⟨rowDesc, hrow, desc, hdesc, heq⟩ := h₄
  obtain rfl := Except.ok.inj heq
  refine ⟨hq₃.pushColumn hrow hdesc, ?_⟩
  rw [Projects, hprojects]
  rfl

theorem projected_of_buildProjection {selectList : List ExpressionBase} {top plan : Plan}
    (hq : q.Projected tables) (h : q.buildProjection selectList top = .ok (some plan, q')) :
    q'.Projected tables ∧ Projects q q' ∧ plan = .project top q'.projectionList q'.name2relation.size := by
  obtain ⟨⟨ok, q₁⟩, htargets, h⟩ := bind_eq_ok.1 h
  obtain ⟨hq₁, hprojects⟩ := projected_of_projectTargets hq htargets
  cases ok with
  | false => cases h
  | true =>
    have hprojects₁ := hprojects rfl
    obtain ⟨q₂, hstar, heq⟩ := bind_eq_ok.1 h
    obtain ⟨hplan, rfl⟩ := Prod.mk.inj (Except.ok.inj heq)
    have hq₂ : q₂.Projected tables ∧ Projects q q₂ := by
      split at hstar
      · obtain ⟨hq₂, hprojects₂⟩ := projected_of_projectStar hq₁ hstar
        refine ⟨hq₂, ?_⟩
        rw [Projects, hprojects₂, hprojects₁]
      · obtain rfl := Except.ok.inj hstar
        exact ⟨hq₁, hprojects₁⟩
    exact ⟨hq₂.1, hq₂.2, (Option.some.inj hplan).symm⟩

theorem build_eq_ok {stmt : SelectStmt} (h : build stmt q = .ok (.ok, q')) :
    ∃ factor rest join q₁ top plan q₂, stmt.tableReference = factor :: rest ∧
      buildJoin factor q = .ok (join, q₁) ∧ buildWhere stmt.optWhere join q₁ = .ok (some top) ∧
      q₁.buildProjection stmt.selectList top = .ok (some plan, q₂) ∧ q' = { q₂ with topExec := some plan } := by
  obtain ⟨⟨join, q₁⟩, hfrom, h⟩ := bind_eq_ok.1 h
  cases join with
  | none => cases h
  | some join =>
    obtain ⟨top, hwhere, h⟩ := bind_eq_ok.1 h
    cases top with
    | none => cases h
    | some top =>
      obtain ⟨⟨plan, q₂⟩, hproj, heq⟩ := bind_eq_ok.1 h
      obtain ⟨hstate, rfl⟩ := Prod.mk.inj (Except.ok.inj heq)
      cases plan with
      | none => cases hstate
      | some plan =>
        cases hfactors : stmt.tableReference with
        | nil =>
          rw [hfactors] at hfrom
          cases hfrom
        | cons factor rest =>
          rw [hfactors] at hfrom
          obtain ⟨⟨join', q₁'⟩, hjoin, heq'⟩ := bind_eq_ok.1 hfrom
          obtain ⟨hsome, rfl⟩ := Prod.mk.inj (Except.ok.inj heq')
          obtain rfl := Option.some.inj hsome
          exact ⟨factor, rest, join', q₁', top, plan, q₂, rfl, hjoin, hwhere, hproj, rfl⟩

theorem top_of_buildWhere {optWhere : List ExpressionBase} {join top : Plan}
    (h : buildWhere optWhere join q = .ok (some top)) : top = join ∨ ∃ e, top = .select join e := by
  cases optWhere with
  | nil => exact .inl (Option.some.inj (Except.ok.inj h)).symm
  | cons e es =>
    obtain ⟨b, -, heq⟩ := bind_eq_ok.1 h
    obtain ⟨b', -, rfl⟩ := Option.map_eq_some_iff.1 (Except.ok.inj heq)
    exact .inr ⟨b', rfl⟩

/-! ## The two walks agree -/

theorem joined_of_checked {catalog : Catalog} {storage : LevelStore} {refs : List ColumnReference}
    (htables : TablesOf catalog factor.references tables) (hchecked : Checked (new catalog storage) q tables refs)
    (hjoin : buildJoin factor q = .ok (plan, q')) :
    BuiltFor catalog (fun name => q.name2tupleIndex[name]?) tables.length factor plan ∧ q'.Projected tables ∧
      Grows q q' := by
  have hlength : factor.references.length = tables.length := htables.length_eq
  have hdesc : q.allTupleDesc = Scope.descs (tables.take 0) := hchecked.unbuilt.allTupleDesc
  obtain ⟨hbuilt, hdescs, hgrows⟩ := builtFor_of_buildJoin hchecked.scope hdesc (by rw [hlength, Nat.zero_add])
    (fun k ref hk => by
      obtain ⟨rel, hrel, -⟩ := htables.table_of_reference hk
      exact ⟨rel, by rw [Nat.zero_add, hrel]⟩) hjoin
  rw [hchecked.unbuilt.catalog] at hbuilt
  refine ⟨hbuilt, ⟨by rw [hdescs, hlength, Nat.zero_add, take_length], ?_⟩, hgrows⟩
  rw [hgrows, hchecked.unbuilt.projectionList, hchecked.unbuilt.outputRowDesc]
  exact .nil

/-- For a SELECT that `Check` accepts and `Build` builds, over one join tree of tables with distinct
names: the indexes that `Check` recorded are `0, …, n-1` from left to right, the scans of the plan have
those indexes, `n` is the tuple count of every join and of the projection, and each column of the
projection is described as what it is. -/
theorem build_agrees_with_check {catalog : Catalog} {storage : LevelStore} {stmt : SelectStmt}
    {factor : TableFactor} {q₁ q₂ : QueryRealizer} (hfrom : stmt.tableReference = [factor])
    (hnames : (factor.references.map TableReference.name).Nodup)
    (hcheck : check stmt (new catalog storage) = .ok (.ok, q₁)) (hbuild : build stmt q₁ = .ok (.ok, q₂)) :
    (factor.references.map fun ref => q₁.name2tupleIndex[ref.name]?) =
      (List.range factor.references.length).map some ∧
    (∃ join top, BuiltFor catalog (fun name => q₁.name2tupleIndex[name]?) factor.references.length factor join ∧
      (top = join ∨ ∃ e, top = .select join e) ∧
      q₂.topExec = some (.project top q₂.projectionList factor.references.length)) ∧
    List.Forall₂ (fun entry desc => ∃ slot ref rel, entry = .slotReference slot ∧
      factor.references[slot.tupleIndex]? = some ref ∧ catalog.getRelation ref.tableName = some rel ∧
      rel.toDesc[slot.slotIndex]? = some desc) q₂.projectionList q₂.outputRowDesc := by
  obtain ⟨tables, htables, -, hchecked⟩ := checked_of_check hfrom hnames hcheck
  have hscope := hchecked.scope
  have hlength : factor.references.length = tables.length := htables.length_eq
  obtain ⟨factor', rest, join, q₃, top, plan, q₄, hfactors, hjoin, hwhere, hproj, rfl⟩ := build_eq_ok hbuild
  obtain ⟨rfl, rfl⟩ := List.cons.inj (hfactors.symm.trans hfrom)
  obtain ⟨hbuilt, hprojected, hgrows⟩ := joined_of_checked htables hchecked hjoin
  obtain ⟨⟨-, hcolumns⟩, hprojects, rfl⟩ := projected_of_buildProjection hprojected hproj
  have hsize : q₄.name2relation.size = tables.length := by
    rw [hprojects, hgrows]
    exact hscope.relationSize
  refine ⟨?_, ⟨join, top, ?_, top_of_buildWhere hwhere, by rw [hlength, hsize]⟩, ?_⟩
  · refine ext_getElem? fun k => ?_
    rw [getElem?_map, getElem?_map]
    cases hk : factor'.references[k]? with
    | none => simpa using hk
    | some ref =>
      obtain ⟨rel, hrel, -⟩ := htables.table_of_reference hk
      have hlt := (List.getElem?_eq_some_iff.1 hk).1
      simp [getElem?_range hlt, hscope.getElem?_iff.2 ⟨rel, hrel⟩]
  · rw [hlength]
    exact hbuilt
  · refine hcolumns.imp ?_
    rintro entry desc ⟨slot, name, rel, rfl, htable, hcolumn⟩
    obtain ⟨ref, href, -, hrel⟩ := htables.reference_of_table htable
    exact ⟨slot, ref, rel, rfl, href, hrel, hcolumn⟩

/-! ## Two tables -/

def tableT : Relation :=
  Relation.addAttribute { name := ascii "t", id := 2 } { name := ascii "a", dataType := .integer, maxLength := 8 } true

def tableU : Relation :=
  Relation.addAttribute { name := ascii "u", id := 3 } { name := ascii "b", dataType := .integer, maxLength := 8 } true

def catalogTU : Catalog := ((Catalog.empty.insertRelation tableT).1.insertRelation tableU).1

/-- `a = u.b` -/
def equalAB : ExpressionBase :=
  .operation .equal (.columnReference ⟨0, [], ascii "a"⟩) (.columnReference ⟨1, ascii "u", ascii "b"⟩)

def refT : TableReference := newTableReference (ascii "t") []

def refU : TableReference := newTableReference (ascii "u") []

/-- `SELECT * FROM t JOIN u ON a = u.b` -/
def selectTU : SelectStmt := ⟨[], [.chain refT [(refU, equalAB)]], [], [], []⟩

theorem build_agrees_on_selectTU : ∃ q₁ q₂,
    check selectTU (new catalogTU (LevelStore.started fun _ => ∅)) = .ok (.ok, q₁) ∧
    build selectTU q₁ = .ok (.ok, q₂) ∧
    [q₁.name2tupleIndex[refT.name]?, q₁.name2tupleIndex[refU.name]?] = [some 0, some 1] := by
  obtain ⟨q₁, q₂, hcheck, hbuild⟩ : ∃ q₁ q₂,
    check selectTU (new catalogTU (LevelStore.started fun _ => ∅)) = .ok (.ok, q₁) ∧
    build selectTU q₁ = .ok (.ok, q₂) := ⟨_, _, rfl, rfl⟩
  have hfrom : selectTU.tableReference = [.chain refT [(refU, equalAB)]] := rfl
  exact ⟨q₁, q₂, hcheck, hbuild, (build_agrees_with_check hfrom (by decide) hcheck hbuild).1⟩

end Dbms18.QueryRealizer
