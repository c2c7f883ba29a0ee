import Dbms18.Executor.JoinFrame
import Dbms18.Realizer.JoinChain
import Dbms18.Realizer.Outcome

/-!
# The tables that an ON clause reads

`Check` has one map of names for the whole FROM clause. When it comes to the ON clause of a join, the map
has the tables under the join and also those before it. So the ON clause of a join in parentheses may name
a table to the left of the parentheses, whose tuple that join does not have.
-/

namespace Dbms18

open Res List

/-- A join of a FROM clause, with the number of table references before it and those under it. -/
structure JoinSite where
  before : Nat
  under : List TableReference
  predicate : ExpressionBase

/-- The joins of a factor with `i` table references before it. -/
def TableFactor.sites : TableFactor → Nat → List JoinSite
  | joinClause left right predicate _, i =>
    left.sites i ++ (right.sites (i + left.references.length) ++ [⟨i, left.references ++ right.references, predicate⟩])
  | _, _ => []

def sitesFrom : List TableFactor → Nat → List JoinSite
  | [], _ => []
  | factor :: rest, i => factor.sites i ++ sitesFrom rest (i + factor.references.length)

theorem TableFactor.mem_columns_of_sites {factor : TableFactor} {i : Nat} {site : JoinSite} (hsite : site ∈ factor.sites i)
    {ref : ColumnReference} (href : ref ∈ site.predicate.columns) : ref ∈ factor.columns := by
  induction factor generalizing i with
  | tableReference | subQuery => cases hsite
  | joinClause left right predicate type ihl ihr =>
    rw [columns, mem_append, mem_append]
    rcases mem_append.1 hsite with hsite | hsite
    · exact .inl (ihl hsite)
    rcases mem_append.1 hsite with hsite | hsite
    · exact .inr (.inl (ihr hsite))
    · obtain rfl := mem_singleton.1 hsite
      exact .inr (.inr href)

theorem mem_columns_of_sitesFrom {factors : List TableFactor} {i : Nat} {site : JoinSite} (hsite : site ∈ sitesFrom factors i)
    {ref : ColumnReference} (href : ref ∈ site.predicate.columns) : ∃ factor ∈ factors, ref ∈ factor.columns := by
  induction factors generalizing i with
  | nil => cases hsite
  | cons factor rest ih =>
    rcases mem_append.1 hsite with hsite | hsite
    · exact ⟨factor, mem_cons_self, factor.mem_columns_of_sites hsite href⟩
    · obtain ⟨factor', hmem, hcolumn⟩ := ih hsite
      exact ⟨factor', mem_cons_of_mem _ hmem, hcolumn⟩

def SelectStmt.sites (stmt : SelectStmt) : List JoinSite := sitesFrom stmt.tableReference 0

/-- The reference gives the table's name or none, and the table has the column. -/
def Scope.CanMean (ref : ColumnReference) (table : Bytes × Relation) : Prop :=
  (ref.tableName = [] ∨ ref.tableName = table.1) ∧ HasColumn ref table

namespace JoinSite

/-- Each column of the ON clause is bound to a table under the join, and its tuple index is the position
of a table reference under the join. -/
def OnScoped (q : QueryRealizer) (site : JoinSite) : Prop :=
  ∀ ref ∈ site.predicate.columns, ∃ slot, q.name2slot ref = some slot ∧
    (∃ table ∈ site.under, q.name2tupleIndex[table.name]? = some slot.tupleIndex) ∧
    site.before ≤ slot.tupleIndex ∧ slot.tupleIndex < site.before + site.under.length

/-- No column of the ON clause can mean one of the tables registered first, as many as there are table
references before the join. -/
def AvoidsOuter (tables : Scope) (site : JoinSite) : Prop :=
  ∀ ref ∈ site.predicate.columns, ∀ table ∈ tables.take site.before, ¬ Scope.CanMean ref table

/-- What `Check` makes sure of: the table of a column is not after the join. -/
def Seen (tables : Scope) (site : JoinSite) : Prop :=
  ∀ ref ∈ site.predicate.columns, ∃ slot, tables.resolve ref = some slot ∧
    slot.tupleIndex < site.before + site.under.length ∧
    (site.before ≤ slot.tupleIndex → ∃ table ∈ site.under, ∃ rel, tables[slot.tupleIndex]? = some (table.name, rel))

end JoinSite

namespace Scope

variable {catalog : Catalog} {tables tables' : Scope} {ref : ColumnReference} {slot : SlotReference}
  {e : ExpressionBase}

/-! ## The first table that a reference can mean -/

theorem canMean_iff {table : Bytes × Relation} (k : Nat) : CanMean ref table ↔ ∃ slot, slotIn ref (table, k) = some slot := by
  obtain ⟨name, rel⟩ := table
  rw [CanMean, hasColumn_iff]
  constructor
  · rintro ⟨hnamed, j, hj⟩
    obtain ⟨hlt, -⟩ := findIdx?_eq_some_iff_getElem.1 hj
    exact ⟨⟨k, j, _⟩, slotIn_eq_some.2 ⟨rfl, hnamed, hj, _, getElem?_eq_getElem hlt, rfl⟩⟩
  · rintro ⟨slot, hslot⟩
    obtain ⟨-, hnamed, hj, -⟩ := slotIn_eq_some.1 hslot
    exact ⟨hnamed, _, hj⟩

theorem exists_first_of_resolve (h : tables.resolve ref = some slot) : ∃ as table bs, tables = as ++ table :: bs ∧
    as.length = slot.tupleIndex ∧ CanMean ref table ∧ ∀ t ∈ as, ¬ CanMean ref t := by
  obtain ⟨as, ⟨table, k⟩, bs, hzip, hslot, hnone⟩ := findSome?_eq_some_iff.1 h
  obtain ⟨rfl, -⟩ := slotIn_eq_some.1 hslot
  have hat : tables.zipIdx[as.length]? = some (table, slot.tupleIndex) := by
    rw [hzip, getElem?_append_right le_rfl, Nat.sub_self, getElem?_cons_zero]
  obtain ⟨t, -, heq⟩ : ∃ t, tables[as.length]? = some t ∧ (t, as.length) = (table, slot.tupleIndex) := by
    simpa using hat
  refine ⟨as.map Prod.fst, table, bs.map Prod.fst, ?_, ?_, (canMean_iff _).2 ⟨slot, hslot⟩, ?_⟩
  · have hmap := congrArg (List.map Prod.fst) hzip
    rwa [zipIdx_map_fst, map_append, map_cons] at hmap
  · rw [length_map]
    exact (Prod.mk.inj heq).2
  · intro t ht hmean
    obtain ⟨⟨t, k⟩, hmem, rfl⟩ := mem_map.1 ht
    obtain ⟨slot', hslot'⟩ := (canMean_iff k).1 hmean
    cases hslot'.symm.trans (hnone _ hmem)

theorem le_tupleIndex_iff (h : tables.resolve ref = some slot) (i : Nat) :
    i ≤ slot.tupleIndex ↔ ∀ table ∈ tables.take i, ¬ CanMean ref table := by
  obtain ⟨as, table, bs, rfl, hlen, hmean, has⟩ := exists_first_of_resolve h
  rw [← hlen]
  constructor
  · intro hle t ht
    rw [take_append_of_le_length hle] at ht
    exact has t (mem_of_mem_take ht)
  · intro hall
    by_contra hlt
    obtain ⟨k, rfl⟩ := Nat.exists_eq_add_of_lt (not_le.1 hlt)
    refine hall table ?_ hmean
    rw [Nat.add_assoc, take_length_add_append, take_succ_cons]
    exact mem_append_right _ mem_cons_self

/-! ## The tables of a factor -/

theorem visitAll_expressionBase (e : ExpressionBase) : tables.visitAll catalog e.visits = tables := by
  induction e with
  | null | columnReference | constValue => rfl
  | operation op left right ihl ihr => rw [ExpressionBase.visits, visitAll_append, ihl, ihr]

theorem exists_append_visitAll (catalog : Catalog) (factor : TableFactor) (tables : Scope) :
    ∃ more, tables.visitAll catalog factor.visits = tables ++ more ∧
      (more.map Prod.fst).Sublist (factor.references.map TableReference.name) := by
  induction factor generalizing tables with
  | subQuery => exact ⟨[], (append_nil _).symm, nil_sublist _⟩
  | tableReference ref =>
    have hvisit : tables.visitAll catalog (TableFactor.tableReference ref).visits =
        (catalog.getRelation ref.tableName).elim tables (tables.register ref.name) := rfl
    rw [hvisit]
    cases catalog.getRelation ref.tableName with
    | none => exact ⟨[], (append_nil _).symm, nil_sublist _⟩
    | some rel =>
      rw [Option.elim_some, register]
      split
      · exact ⟨[], (append_nil _).symm, nil_sublist _⟩
      · exact ⟨[(ref.name, rel)], rfl, List.Sublist.refl _⟩
  | joinClause left right predicate type ihl ihr =>
    obtain ⟨ls, hl, hls⟩ := ihl tables
    obtain ⟨rs, hr, hrs⟩ := ihr (tables ++ ls)
    refine ⟨ls ++ rs, ?_, ?_⟩
    · rw [TableFactor.visits, visitAll_append, visitAll_append, visitAll_expressionBase, hl, hr, append_assoc]
    · rw [map_append, TableFactor.references, map_append]
      exact hls.append hrs

theorem exists_finds (h : AllFound catalog tables e.visits) (href : ref ∈ e.columns) : ∃ slot, tables.Finds ref slot := by
  induction e with
  | null | constValue => cases href
  | columnReference ref' =>
    obtain rfl := mem_singleton.1 href
    exact h.1
  | operation op left right ihl ihr =>
    obtain ⟨hl, hr⟩ := allFound_append.1 h
    rw [visitAll_expressionBase] at hr
    rcases mem_append.1 href with href | href
    · exact ihl hl href
    · exact ihr hr href

theorem length_visitAll_le (catalog : Catalog) (factor : TableFactor) (tables : Scope) :
    (tables.visitAll catalog factor.visits).length ≤ tables.length + factor.references.length := by
  obtain ⟨more, hmore, hnames⟩ := exists_append_visitAll catalog factor tables
  have hlen := hnames.length_le
  rw [length_map, length_map] at hlen
  rw [hmore, length_append]
  omega

end Scope

/-! ## What `Check` makes sure of -/

namespace JoinSite

variable {catalog : Catalog} {tables tables' : Scope} {site : JoinSite} {factor : TableFactor} {i : Nat}

theorem Seen.mono (h : site.Seen tables) (hpre : tables <+: tables') : site.Seen tables' := by
  obtain ⟨more, rfl⟩ := hpre
  intro ref href
  obtain ⟨slot, hslot, hlt, hunder⟩ := h ref href
  refine ⟨slot, Scope.resolve_append hslot, hlt, fun hle => ?_⟩
  obtain ⟨table, htable, rel, hget⟩ := hunder hle
  refine ⟨table, htable, rel, ?_⟩
  rw [getElem?_append_left (List.getElem?_eq_some_iff.1 hget).1, hget]

theorem seen_root {left right : TableFactor} {predicate : ExpressionBase} {type : JoinType}
    (hfound : Scope.AllFound catalog (tables.visitAll catalog (TableFactor.joinClause left right predicate type).visits)
      predicate.visits) (hi : tables.length ≤ i) :
    Seen (tables.visitAll catalog (TableFactor.joinClause left right predicate type).visits)
      ⟨i, left.references ++ right.references, predicate⟩ := by
  intro ref href
  obtain ⟨slot, hslot⟩ := Scope.exists_finds hfound href
  obtain ⟨name, rel, a, hmeans⟩ := Scope.means_of_resolve hslot.1
  have hlt := (List.getElem?_eq_some_iff.1 hmeans.table).1
  have hlen := Scope.length_visitAll_le catalog (.joinClause left right predicate type) tables
  refine ⟨slot, hslot.1, hlt.trans_le (hlen.trans (Nat.add_le_add_right hi _)), fun hle => ?_⟩
  -- the table is not one of those before the factor
  obtain ⟨more, hmore, hnames⟩ := Scope.exists_append_visitAll catalog (.joinClause left right predicate type) tables
  have hget := hmeans.table
  rw [hmore, getElem?_append_right (hi.trans hle)] at hget
  have hname := hnames.subset (mem_map_of_mem (mem_of_getElem? hget))
  obtain ⟨table, htable, heq⟩ := mem_map.1 hname
  exact ⟨table, htable, rel, heq ▸ hmeans.table⟩

theorem seen_of_allFound (hfound : Scope.AllFound catalog tables factor.visits) (hi : tables.length ≤ i) :
    ∀ site ∈ factor.sites i, site.Seen (tables.visitAll catalog factor.visits) := by
  induction factor generalizing tables i with
  | tableReference | subQuery =>
    intro site hsite
    cases hsite
  | joinClause left right predicate type ihl ihr =>
    obtain ⟨hl, hrest⟩ := Scope.allFound_append.1 hfound
    obtain ⟨hr, hp⟩ := Scope.allFound_append.1 hrest
    have hvisit : tables.visitAll catalog (TableFactor.joinClause left right predicate type).visits =
        (tables.visitAll catalog left.visits).visitAll catalog right.visits := by
      rw [TableFactor.visits, Scope.visitAll_append, Scope.visitAll_append, Scope.visitAll_expressionBase]
    intro site hsite
    rcases mem_append.1 hsite with hsite | hsite
    · rw [hvisit]
      exact (ihl hl hi site hsite).mono (Scope.prefix_visitAll _ _)
    rcases mem_append.1 hsite with hsite | hsite
    · rw [hvisit]
      exact ihr hr ((Scope.length_visitAll_le catalog left tables).trans (Nat.add_le_add_right hi _)) site hsite
    · obtain rfl := mem_singleton.1 hsite
      exact seen_root (hvisit ▸ hp) hi

theorem seen_of_allFound_list {factors : List TableFactor}
    (hfound : Scope.AllFound catalog tables (factors.flatMap TableFactor.visits)) (hi : tables.length ≤ i) :
    ∀ site ∈ sitesFrom factors i, site.Seen (tables.visitAll catalog (factors.flatMap TableFactor.visits)) := by
  induction factors generalizing tables i with
  | nil =>
    intro site hsite
    cases hsite
  | cons factor rest ih =>
    rw [flatMap_cons] at hfound ⊢
    obtain ⟨hfactor, hrest⟩ := Scope.allFound_append.1 hfound
    rw [Scope.visitAll_append]
    intro site hsite
    rcases mem_append.1 hsite with hsite | hsite
    · exact (seen_of_allFound hfactor hi site hsite).mono (Scope.prefix_visitAll _ _)
    · exact ih hrest ((Scope.length_visitAll_le catalog factor tables).trans (Nat.add_le_add_right hi _)) site hsite

theorem onScoped_iff {q : QueryRealizer} (hq : q.Scoped tables)
    (hbound : ∀ ref ∈ site.predicate.columns, ∃ slot, q.name2slot ref = some slot) (hseen : site.Seen tables) :
    site.OnScoped q ↔ site.AvoidsOuter tables := by
  refine forall₂_congr fun ref href => ?_
  obtain ⟨slot, hslot⟩ := hbound ref href
  obtain ⟨slot', hresolve, hlt, hunder⟩ := hseen ref href
  obtain rfl := Option.some.inj ((hq.slot ref slot hslot).symm.trans hresolve)
  rw [← Scope.le_tupleIndex_iff hresolve]
  constructor
  · rintro ⟨slot', hslot', -, hle, -⟩
    obtain rfl := Option.some.inj (hslot.symm.trans hslot')
    exact hle
  · intro hle
    obtain ⟨table, htable, rel, hget⟩ := hunder hle
    exact ⟨slot, hslot, ⟨table, htable, hq.getElem?_iff.2 ⟨rel, hget⟩⟩, hle, hlt⟩

end JoinSite

/-! ## What the executors read -/

/-- The predicate of every join reads only positions of tables under one of its two children. -/
def Plan.OwnSlots : Plan → Prop
  | seqScan _ => True
  | nestedLoopJoin _ left right joinPredicate => left.OwnSlots ∧ right.OwnSlots ∧
      ∀ slot ∈ joinPredicate.slots, slot.tupleIndex ∈ left.positions ∨ slot.tupleIndex ∈ right.positions
  | select left _ => left.OwnSlots
  | project left _ _ => left.OwnSlots

/-- No other position is ever set: whatever calls a join has had, a slot at such a position cannot be read. -/
theorem Plan.Reached.getValue_error {fuel n : Nat} {left right : Plan} {predicate : BooleanExpr}
    {x : NestedLoopJoin left.Members right.Members} (hx : Reached fuel (.nestedLoopJoin n left right predicate) x)
    {slot : SlotReference} (hleft : slot.tupleIndex ∉ left.positions) (hright : slot.tupleIndex ∉ right.positions) :
    ∃ fault, slot.getValue x.row = .error fault := by
  have hget := hx.nullOutside.getElem?_eq (not_mem_append hleft hright)
  rw [SlotReference.getValue, TupleRow.getTuple, hget]
  split
  · exact ⟨.nullPointer, rfl⟩
  · exact ⟨.outOfBounds, rfl⟩

namespace QueryRealizer

variable {q q' : QueryRealizer} {catalog : Catalog} {storage : LevelStore} {stmt : SelectStmt} {plan : Plan}

def Binds (q : QueryRealizer) (refs : List ColumnReference) (slots : List SlotReference) : Prop :=
  ∀ slot ∈ slots, ∃ ref ∈ refs, q.name2slot ref = some slot

theorem Binds.append {refs refs' : List ColumnReference} {slots slots' : List SlotReference} (h : q.Binds refs slots)
    (h' : q.Binds refs' slots') : q.Binds (refs ++ refs') (slots ++ slots') := by
  intro slot hslot
  rcases mem_append.1 hslot with hslot | hslot
  · obtain ⟨ref, href, hbound⟩ := h slot hslot
    exact ⟨ref, mem_append_left _ href, hbound⟩
  · obtain ⟨ref, href, hbound⟩ := h' slot hslot
    exact ⟨ref, mem_append_right _ href, hbound⟩

theorem binds_of_buildValueExpression {e : ExpressionBase} {v : ValueExpr} (h : q.buildValueExpression e = .ok (some v)) :
    q.Binds e.columns v.slots := by
  intro slot hslot
  cases e with
  | null => cases h
  | columnReference ref =>
    obtain ⟨slot', hslot', heq⟩ := bind_eq_ok.1 h
    obtain rfl := Option.some.inj (Except.ok.inj heq)
    obtain rfl := mem_singleton.1 hslot
    exact ⟨ref, mem_cons_self, getD_eq_ok.1 hslot'⟩
  | constValue value =>
    cases value with
    | integer | varchar =>
      obtain rfl := Option.some.inj (Except.ok.inj h)
      cases hslot
  | operation op left right =>
    obtain ⟨-, -, h⟩ := bind_eq_ok.1 h
    obtain ⟨-, -, h⟩ := bind_eq_ok.1 h
    cases h

theorem slots_of_buildCompare {op : OperatorType} {left right : ValueExpr} {b : BooleanExpr}
    (h : buildCompare op left right = some b) : b.slots = left.slots ++ right.slots := by
  by_cases hcomparable : left.getDataType.comparable = true
  · obtain ⟨b', hb', hslots⟩ := buildCompare_of_comparable op right hcomparable
    obtain rfl := Option.some.inj (h.symm.trans hb')
    exact hslots
  · rw [buildCompare_of_not_comparable op right hcomparable] at h
    cases h

theorem binds_of_buildBooleanExpression {e : ExpressionBase} {b : BooleanExpr}
    (h : q.buildBooleanExpression e = .ok (some b)) : q.Binds e.columns b.slots := by
  induction e generalizing b with
  | null | columnReference | constValue => cases h
  | operation op left right ihl ihr =>
    rw [buildBooleanExpression] at h
    split at h
    · simp only [bind_eq_ok, getD_eq_ok] at h
      obtain ⟨_, hl, _, hr, l, rfl, r, rfl, _, -, h⟩ := h
      rw [slots_of_buildCompare (Except.ok.inj h)]
      exact (binds_of_buildValueExpression hl).append (binds_of_buildValueExpression hr)
    split at h
    · obtain ⟨l, hl, h⟩ := bind_eq_ok.1 h
      obtain ⟨r, hr, h⟩ := bind_eq_ok.1 h
      cases l with
      | none => cases h
      | some l =>
        cases r with
        | none => cases h
        | some r =>
          obtain rfl := Option.some.inj (Except.ok.inj h)
          exact (ihl hl).append (ihr hr)
    · cases h

theorem positions_of_buildJoin {factor : TableFactor} (h : buildJoin factor q = .ok (plan, q')) :
    plan.positions = List.range' q.allTupleDesc.length factor.references.length ∧
      q'.allTupleDesc.length = q.allTupleDesc.length + factor.references.length ∧ Grows q q' := by
  induction factor generalizing q q' plan with
  | subQuery => cases h
  | tableReference ref =>
    obtain ⟨rel, iter, storage, relation, -, -, -, rfl, rfl⟩ := buildTableScan_eq_ok h
    exact ⟨rfl, length_append, rfl⟩
  | joinClause left right predicate type ihl ihr =>
    obtain ⟨leftExec, q₁, rightExec, e, hl, hr, -, rfl⟩ := buildJoin_joinClause_eq_ok h
    obtain ⟨hposl, hlenl, hgrowsl⟩ := ihl hl
    obtain ⟨hposr, hlenr, hgrowsr⟩ := ihr hr
    refine ⟨?_, ?_, ?_⟩
    · rw [Plan.positions, hposl, hposr, hlenl, TableFactor.references, length_append, range'_append_1]
    · rw [hlenr, hlenl, TableFactor.references, length_append, Nat.add_assoc]
    · rw [Grows, hgrowsr, hgrowsl]

theorem column_mem_visits_of_site {site : JoinSite} (hsite : site ∈ stmt.sites) {ref : ColumnReference}
    (href : ref ∈ site.predicate.columns) : .column ref ∈ stmt.tableReference.flatMap TableFactor.visits := by
  obtain ⟨factor, hfactor, hcolumn⟩ := mem_columns_of_sitesFrom hsite href
  exact mem_flatMap.2 ⟨factor, hfactor, TableFactor.column_mem_visits.2 hcolumn⟩

theorem onScoped_of_grows {site : JoinSite} (h : site.OnScoped q) (hgrows : Grows q q') : site.OnScoped q' := by
  rw [hgrows]
  exact h

theorem ownSlots_of_buildJoin {factor : TableFactor} (h : buildJoin factor q = .ok (plan, q'))
    (hscoped : ∀ site ∈ factor.sites q.allTupleDesc.length, site.OnScoped q) : plan.OwnSlots := by
  induction factor generalizing q q' plan with
  | subQuery => cases h
  | tableReference ref =>
    obtain ⟨rel, iter, storage, relation, -, -, -, rfl, -⟩ := buildTableScan_eq_ok h
    trivial
  | joinClause left right predicate type ihl ihr =>
    obtain ⟨leftExec, q₁, rightExec, e, hl, hr, he, rfl⟩ := buildJoin_joinClause_eq_ok h
    obtain ⟨hposl, hlenl, hgrowsl⟩ := positions_of_buildJoin hl
    obtain ⟨hposr, -, hgrowsr⟩ := positions_of_buildJoin hr
    obtain ⟨hsl, hsites⟩ := forall_mem_append.1 hscoped
    obtain ⟨hsr, hroot⟩ := forall_mem_append.1 hsites
    refine ⟨ihl hl hsl, ihr hr fun site hsite => ?_, fun slot hslot => ?_⟩
    · rw [hlenl] at hsite
      exact onScoped_of_grows (hsr site hsite) hgrowsl
    · obtain ⟨ref, href, hbound⟩ := binds_of_buildBooleanExpression he slot hslot
      have hon := onScoped_of_grows (onScoped_of_grows (hroot _ mem_cons_self) hgrowsl) hgrowsr
      obtain ⟨slot', hslot', -, hle, hlt⟩ := hon ref href
      obtain rfl := Option.some.inj (hbound.symm.trans hslot')
      rw [← mem_append, hposl, hposr, hlenl, range'_append_1, mem_range'_1]
      rw [length_append] at hlt
      exact ⟨hle, hlt⟩

theorem plan_of_buildProjection {selectList : List ExpressionBase} {top : Plan}
    (h : q.buildProjection selectList top = .ok (some plan, q')) : ∃ attrs n, plan = .project top attrs n := by
  obtain ⟨⟨ok, q₁⟩, -, h⟩ := bind_eq_ok.1 h
  cases ok with
  | false => cases h
  | true =>
    obtain ⟨q₂, -, heq⟩ := bind_eq_ok.1 h
    exact ⟨_, _, (Option.some.inj (Prod.mk.inj (Except.ok.inj heq)).1).symm⟩

theorem ownSlots_of_build {q₂ : QueryRealizer} (h : build stmt q = .ok (.ok, q₂)) (htop : q₂.topExec = some plan)
    (hdesc : q.allTupleDesc = []) (hscoped : ∀ site ∈ stmt.sites, site.OnScoped q) : plan.OwnSlots := by
  obtain ⟨factor, rest, join, q₁, top, plan', q₃, hfrom, hjoin, hwhere, hproject, rfl⟩ := build_eq_ok h
  obtain rfl := Option.some.inj htop
  obtain ⟨attrs, n, rfl⟩ := plan_of_buildProjection hproject
  rw [SelectStmt.sites, hfrom] at hscoped
  have hown : join.OwnSlots := ownSlots_of_buildJoin hjoin (hdesc ▸ (forall_mem_append.1 hscoped).1)
  rcases top_of_buildWhere hwhere with rfl | ⟨e, rfl⟩
  · exact hown
  · exact hown

/-- The tables of the FROM clause, each name once, in the order of their references. -/
def fromScope (catalog : Catalog) (stmt : SelectStmt) : Scope :=
  Scope.visitAll catalog [] (stmt.tableReference.flatMap TableFactor.visits)

theorem seen_of_check (h : check stmt (new catalog storage) = .ok (.ok, q)) :
    Checked (new catalog storage) q (fromScope catalog stmt) (columnsOf (stmt.tableReference.flatMap TableFactor.visits)) ∧
      ∀ site ∈ stmt.sites, site.Seen (fromScope catalog stmt) := by
  obtain ⟨q₁, hq₁, hclauses⟩ := check_eq_ok h
  have hwalks : Walks catalog (checkAll checkTableFactor stmt.tableReference)
      (stmt.tableReference.flatMap TableFactor.visits) := .checkAll fun factor _ => walks_tableFactor factor
  have hwalked := hwalks (new catalog storage) [] rfl (scoped_new catalog storage)
  rw [hq₁] at hwalked
  cases hwalked with
  | rejected hstate => exact absurd rfl hstate
  | accepted hfound hfrom =>
    have hall := hfrom.trans (hclauses hfrom.scope)
    refine ⟨⟨hall.frame, hall.mono, hall.scope, fun ref href => hall.bound ref ?_⟩, ?_⟩
    · exact mem_append_left _ href
    · exact JoinSite.seen_of_allFound_list hfound (Nat.le_refl 0)

/-- For every SELECT that `Check` accepts: each ON clause refers only to tables under its join, and in
the plan that `Build` makes each join's predicate reads only positions of its own two children, exactly
if no ON clause names a column that a table before its join has. -/
theorem onScoped_iff_avoidsOuter (hcheck : check stmt (new catalog storage) = .ok (.ok, q)) :
    ((∀ site ∈ stmt.sites, site.OnScoped q) ∧
      ∀ q₂ plan, build stmt q = .ok (.ok, q₂) → q₂.topExec = some plan → plan.OwnSlots) ↔
    ∀ site ∈ stmt.sites, site.AvoidsOuter (fromScope catalog stmt) := by
  obtain ⟨hchecked, hseen⟩ := seen_of_check hcheck
  have hiff : (∀ site ∈ stmt.sites, site.OnScoped q) ↔
      ∀ site ∈ stmt.sites, site.AvoidsOuter (fromScope catalog stmt) := by
    refine forall₂_congr fun site hsite => JoinSite.onScoped_iff hchecked.scope (fun ref href => ?_) (hseen site hsite)
    exact hchecked.bound ref (mem_columnsOf.2 (column_mem_visits_of_site hsite href))
  rw [← hiff]
  constructor
  · exact And.left
  · intro hscoped
    exact ⟨hscoped, fun q₂ plan hbuild htop => ownSlots_of_build hbuild htop hchecked.unbuilt.allTupleDesc hscoped⟩

theorem onScoped_iff_avoidsOuter_selectTU : ∃ q, check selectTU (new catalogTU storageTU) = .ok (.ok, q) ∧
    (∀ site ∈ selectTU.sites, site.OnScoped q) ∧
    ∀ q₂ plan, build selectTU q = .ok (.ok, q₂) → q₂.topExec = some plan → plan.OwnSlots := by
  obtain ⟨q, hcheck⟩ : ∃ q, check selectTU (new catalogTU storageTU) = .ok (.ok, q) := ⟨_, rfl⟩
  refine ⟨q, hcheck, (onScoped_iff_avoidsOuter hcheck).2 ?_⟩
  intro site hsite ref _ table htable
  obtain rfl := mem_singleton.1 hsite
  cases htable

def storageTUV : LevelStore :=
  .started fun relid => if 2 ≤ relid ∧ relid ≤ 4 then Std.ExtTreeMap.ofList [(ascii "k", row5.record)] compare else ∅

/-- `SELECT * FROM t JOIN (u JOIN v ON a = u.b) ON a = u.b`, where `a` is a column of `t` -/
def selectOuter : SelectStmt :=
  ⟨[], [.joinClause (.tableReference refT)
    (.joinClause (.tableReference refU) (.tableReference refV) equalAB .inner) equalAB .inner], [], [], []⟩

/-- The inner join reads position 0, where it has no tuple. -/
theorem not_onScoped_selectOuter : ∃ q₁ q₂ plan x s, check selectOuter (new catalogTUV storageTUV) = .ok (.ok, q₁) ∧
    build selectOuter q₁ = .ok (.ok, q₂) ∧ q₂.topExec = some plan ∧
    ¬ (∀ site ∈ selectOuter.sites, site.OnScoped q₁) ∧ ¬ plan.OwnSlots ∧
    (plan.executor 2).execOpen plan.new q₂.storage = .ok (.ok, x, s) ∧
    (plan.executor 2).getNext x s (TupleRow.new 1) = .error .nullPointer := by
  refine ⟨_, _, _, _, _, rfl, rfl, rfl, ?_, ?_, rfl, rfl⟩
  · intro h
    obtain ⟨slot, hslot, -, hle, -⟩ := h ⟨1, [refU, refV], equalAB⟩ mem_cons_self ⟨0, [], ascii "a"⟩ mem_cons_self
    obtain rfl := Option.some.inj hslot
    exact absurd hle (by decide)
  · intro h
    exact absurd (h.2.1.2.2 ⟨0, 0, .integer⟩ mem_cons_self) (by decide)

end QueryRealizer

end Dbms18
