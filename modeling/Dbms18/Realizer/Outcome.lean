import Dbms18.Realizer.Agreement
import Dbms18.Realizer.Predicate
import Dbms18.Realizer.Walk
import Dbms18.Storage.Scans

/-!
# `Build` on what `Check` has accepted

For each part of `Build`: when it comes back, and which slots the plan reads. A comparison of operands
of different types, a join predicate without a comparison for its type, a subquery and a relation that
cannot be opened end in a failed assertion.
-/

namespace Dbms18

open Res List

/-! ## What a plan reads and writes -/

def ValueExpr.slots : ValueExpr → List SlotReference
  | slotReference slot => [slot]
  | _ => []

def BooleanExpr.slots : BooleanExpr → List SlotReference
  | varcharCompare _ left right => left.slots ++ right.slots
  | integerCompare _ left right => left.slots ++ right.slots
  | floatCompare _ left right => left.slots ++ right.slots
  | logicExpr _ left right => left.slots ++ right.slots

namespace Plan

def slots : Plan → List SlotReference
  | seqScan _ => []
  | nestedLoopJoin _ left right joinPredicate => left.slots ++ (right.slots ++ joinPredicate.slots)
  | select left predicate => left.slots ++ predicate.slots
  | project left projectAttr _ => left.slots ++ projectAttr.flatMap ValueExpr.slots

def tupleCount : Plan → Nat
  | seqScan _ => 0
  | nestedLoopJoin tupleCount _ _ _ => tupleCount
  | select left _ => left.tupleCount
  | project _ _ tupleCount => tupleCount

/-- Given rows of width `n`, every scan in the plan has its tuple index within the rows it is given:
a join and a projection give their children rows of their own. -/
def Fits : Plan → Nat → Prop
  | seqScan scan, n => scan.tupleIndex < n
  | nestedLoopJoin tupleCount left right _, _ => left.Fits tupleCount ∧ right.Fits tupleCount
  | select left _, n => left.Fits n
  | project left _ tupleCount, _ => left.Fits tupleCount

end Plan

def SlotReference.Held (slot : SlotReference) (descs : List RowDesc) : Prop :=
  ∃ desc, descs[slot.tupleIndex]? = some desc ∧ slot.slotIndex < desc.length

namespace Scope

variable {tables : Scope} {refs refs' : List ColumnReference}

def slotsOf (tables : Scope) (refs : List ColumnReference) : List SlotReference := refs.filterMap tables.resolve

theorem slotsOf_append : tables.slotsOf (refs ++ refs') = tables.slotsOf refs ++ tables.slotsOf refs' :=
  filterMap_append

def starSlots (tables : Scope) : List SlotReference :=
  tables.zipIdx.flatMap fun t => t.1.2.attributes.map fun a => { tupleIndex := t.2, slotIndex := a.attributeIndex.toNat }

end Scope

/-! ## Predicates -/

def ExpressionBase.Matched (typeOf : ColumnReference → Option DataType) : ExpressionBase → Prop
  | operation op left right =>
    if isCompareOperator op then left.operandType typeOf = right.operandType typeOf
    else left.Matched typeOf ∧ right.Matched typeOf
  | _ => False

theorem ExpressionBase.WellTyped.matched {typeOf : ColumnReference → Option DataType} {e : ExpressionBase}
    (h : e.WellTyped typeOf) : e.Matched typeOf := by
  induction e with
  | null | columnReference | constValue => exact h
  | operation op left right ihl ihr =>
    simp only [WellTyped, Matched] at h ⊢
    split
    · next hop =>
      obtain ⟨t, -, hl, hr⟩ := if_pos hop ▸ h
      exact hl.trans hr.symm
    · next hop =>
      obtain ⟨-, hl, hr⟩ := if_neg hop ▸ h
      exact ⟨ihl hl, ihr hr⟩

namespace QueryRealizer

variable {q q' : QueryRealizer} {tables : Scope} {e : ExpressionBase}

theorem exists_buildValueExpression (hq : q.Scoped tables) (he : e.IsExpr)
    (hbound : ∀ ref ∈ e.columns, ∃ slot, q.name2slot ref = some slot) :
    ∃ b, q.buildValueExpression e = .ok (some b) ∧ e.operandType tables.typeOf = some b.getDataType ∧
      b.slots = tables.slotsOf e.columns := by
  cases he with
  | column ref =>
    obtain ⟨slot, hslot⟩ := hbound ref mem_cons_self
    have hresolve := hq.slot ref slot hslot
    refine ⟨.slotReference slot, by simp [buildValueExpression, hslot], ?_, ?_⟩
    · simp [ExpressionBase.operandType, Scope.typeOf, hresolve, ValueExpr.getDataType]
    · simp [ValueExpr.slots, Scope.slotsOf, ExpressionBase.columns, hresolve]
  | const value =>
    cases value with
    | varchar v => exact ⟨.varcharConstValue v, rfl, rfl, rfl⟩
    | integer v => exact ⟨.integerConstValue v, rfl, rfl, rfl⟩

theorem buildCompare_of_comparable (op : OperatorType) {left : ValueExpr} (right : ValueExpr)
    (h : left.getDataType.comparable = true) :
    ∃ b, buildCompare op left right = some b ∧ b.slots = left.slots ++ right.slots := by
  unfold buildCompare
  cases htype : left.getDataType with
  | integer => exact ⟨.integerCompare op left right, rfl, rfl⟩
  | float => exact ⟨.floatCompare op left right, rfl, rfl⟩
  | varchar => exact ⟨.varcharCompare op left right, rfl, rfl⟩
  | invalid | date | boolean =>
    rw [htype] at h
    cases h

theorem buildCompare_of_not_comparable (op : OperatorType) {left : ValueExpr} (right : ValueExpr)
    (h : left.getDataType.comparable ≠ true) : buildCompare op left right = none := by
  unfold buildCompare
  cases htype : left.getDataType with
  | invalid | date | boolean => rfl
  | integer | float | varchar =>
    rw [htype] at h
    exact absurd rfl h

/-- What `BuildBooleanExpression` comes to: an expression, a null pointer, or a failed assertion. -/
inductive BooleanBuilt (tables : Scope) (e : ExpressionBase) : Res (Option BooleanExpr) → Prop
  | built {b : BooleanExpr} (htyped : e.WellTyped tables.typeOf) (hslots : b.slots = tables.slotsOf e.columns) :
    BooleanBuilt tables e (.ok (some b))
  | missing (hmatched : e.Matched tables.typeOf) (htyped : ¬ e.WellTyped tables.typeOf) : BooleanBuilt tables e (.ok none)
  | fault {f : Fault} (hmatched : ¬ e.Matched tables.typeOf) : BooleanBuilt tables e (.error f)

theorem booleanBuilt_compare {op : OperatorType} {left right : ExpressionBase} {bl br : ValueExpr}
    (hop : isCompareOperator op = true) (hbl : q.buildValueExpression left = .ok (some bl))
    (hbr : q.buildValueExpression right = .ok (some br)) (htl : left.operandType tables.typeOf = some bl.getDataType)
    (htr : right.operandType tables.typeOf = some br.getDataType)
    (hslots : bl.slots ++ br.slots = tables.slotsOf (ExpressionBase.operation op left right).columns) :
    BooleanBuilt tables (.operation op left right) (q.buildBooleanExpression (.operation op left right)) := by
  by_cases hmatched : bl.getDataType = br.getDataType
  · have hbuild : q.buildBooleanExpression (.operation op left right) = .ok (buildCompare op bl br) := by
      simp [buildBooleanExpression, hop, hbl, hbr, check_of hmatched]
    rw [hbuild]
    by_cases hcomparable : bl.getDataType.comparable = true
    · obtain ⟨b, hb, hbslots⟩ := buildCompare_of_comparable op br hcomparable
      rw [hb]
      refine .built ?_ (hbslots.trans hslots)
      rw [ExpressionBase.WellTyped, if_pos hop]
      exact ⟨_, hcomparable, htl, hmatched ▸ htr⟩
    · rw [buildCompare_of_not_comparable op br hcomparable]
      refine .missing ?_ ?_
      · rw [ExpressionBase.Matched, if_pos hop, htl, htr, hmatched]
      · rw [ExpressionBase.WellTyped, if_pos hop]
        rintro ⟨t, ht, hl, -⟩
        rw [Option.some.inj (htl.symm.trans hl)] at hcomparable
        exact hcomparable ht
  · have hbuild : q.buildBooleanExpression (.operation op left right) = .error .assertion := by
      simp [buildBooleanExpression, hop, hbl, hbr, Res.check, hmatched]
    rw [hbuild]
    refine .fault ?_
    rw [ExpressionBase.Matched, if_pos hop, htl, htr]
    exact fun heq => hmatched (Option.some.inj heq)

theorem booleanBuilt_logic {op : OperatorType} {left right : ExpressionBase} (hop : op = .and ∨ op = .or ∨ op = .xor)
    (hleft : BooleanBuilt tables left (q.buildBooleanExpression left))
    (hright : BooleanBuilt tables right (q.buildBooleanExpression right)) :
    BooleanBuilt tables (.operation op left right) (q.buildBooleanExpression (.operation op left right)) := by
  have hcompare : ¬ isCompareOperator op = true := by rcases hop with rfl | rfl | rfl <;> decide
  have hlogic : isLogicOperator op = true := by rcases hop with rfl | rfl | rfl <;> rfl
  have htyped : (ExpressionBase.operation op left right).WellTyped tables.typeOf ↔
      left.WellTyped tables.typeOf ∧ right.WellTyped tables.typeOf := by
    rw [ExpressionBase.WellTyped, if_neg hcompare]
    exact and_iff_right hop
  have hmatched : (ExpressionBase.operation op left right).Matched tables.typeOf ↔
      left.Matched tables.typeOf ∧ right.Matched tables.typeOf := by
    rw [ExpressionBase.Matched, if_neg hcompare]
  rw [buildBooleanExpression, if_neg hcompare, if_pos hlogic]
  generalize q.buildBooleanExpression left = x at hleft
  generalize q.buildBooleanExpression right = y at hright
  -- a fault on either side is a fault; otherwise both sides are needed
  cases hleft with
  | fault hl => exact .fault fun h => hl (hmatched.1 h).1
  | missing hml hl =>
    cases hright with
    | fault hr => exact .fault fun h => hr (hmatched.1 h).2
    | missing hmr _ => exact .missing (hmatched.2 ⟨hml, hmr⟩) fun h => hl (htyped.1 h).1
    | built hr _ => exact .missing (hmatched.2 ⟨hml, hr.matched⟩) fun h => hl (htyped.1 h).1
  | built hl hsl =>
    cases hright with
    | fault hr => exact .fault fun h => hr (hmatched.1 h).2
    | missing hmr hr => exact .missing (hmatched.2 ⟨hl.matched, hmr⟩) fun h => hr (htyped.1 h).2
    | built hr hsr =>
      refine .built (htyped.2 ⟨hl, hr⟩) ?_
      rw [BooleanExpr.slots, hsl, hsr, ExpressionBase.columns, Scope.slotsOf_append]

theorem booleanBuilt (hq : q.Scoped tables) (he : e.IsBooleanExpression) (hnull : .null ∉ e.visits)
    (hbound : ∀ ref ∈ e.columns, ∃ slot, q.name2slot ref = some slot) :
    BooleanBuilt tables e (q.buildBooleanExpression e) := by
  induction he with
  | not h => simp [ExpressionBase.visits] at hnull
  | @compare op left right hop hl hr =>
    obtain ⟨bl, hbl, htl, hsl⟩ := exists_buildValueExpression hq hl fun ref href => hbound ref (mem_append_left _ href)
    obtain ⟨br, hbr, htr, hsr⟩ := exists_buildValueExpression hq hr fun ref href => hbound ref (mem_append_right _ href)
    refine booleanBuilt_compare hop hbl hbr htl htr ?_
    rw [ExpressionBase.columns, Scope.slotsOf_append, hsl, hsr]
  | @logic op left right hop hl hr ihl ihr =>
    simp only [ExpressionBase.visits, mem_append, not_or] at hnull
    refine booleanBuilt_logic hop (ihl hnull.1 fun ref href => ?_) (ihr hnull.2 fun ref href => ?_)
    · exact hbound ref (mem_append_left _ href)
    · exact hbound ref (mem_append_right _ href)

end QueryRealizer

/-! ## The FROM clause -/

/-- `BuildJoin` comes back from the factor, where `opens` are the relations that can be opened. -/
def TableFactor.Buildable (catalog : Catalog) (opens : RelationId → Prop) (tables : Scope) : TableFactor → Prop
  | tableReference ref => ∀ rel, catalog.getRelation ref.tableName = some rel → opens rel.id
  | joinClause left right predicate _ =>
    left.Buildable catalog opens tables ∧ right.Buildable catalog opens tables ∧ predicate.WellTyped tables.typeOf
  | subQuery => False

/-- The relations that the factor's scans read, from left to right. -/
def TableFactor.scanned (catalog : Catalog) (factor : TableFactor) : List Relation :=
  factor.references.filterMap fun ref => catalog.getRelation ref.tableName

theorem TableFactor.length_scanned {catalog : Catalog} {factor : TableFactor}
    (h : ∀ ref ∈ factor.references, ∃ rel, catalog.getRelation ref.tableName = some rel) :
    (factor.scanned catalog).length = factor.references.length := by
  refine filterMap_length_eq_length.2 fun ref href => ?_
  obtain ⟨rel, hrel⟩ := h ref href
  simp [hrel]

theorem LevelStore.Acquired.openable_eq {s s' : LevelStore} {relid : RelationId} {h : Nat}
    (ha : LevelStore.Acquired s s' relid h) (hopen : s.Openable .iterator relid) :
    s'.Openable .iterator = s.Openable .iterator := by
  funext relid'
  by_cases heq : relid' = relid
  · subst heq
    exact propext (iff_of_true (.inl (by simp [ha.mapped])) hopen)
  · exact propext (ha.openable_iff heq)

namespace QueryRealizer

variable {q q' : QueryRealizer} {tables : Scope} {e : ExpressionBase}

inductive JoinBuilt (q : QueryRealizer) (tables : Scope) (factor : TableFactor) : Res (Plan × QueryRealizer) → Prop
  | built {plan : Plan} {q' : QueryRealizer}
    (hbuildable : factor.Buildable q.catalog (q.storage.Openable .iterator) tables) (hgrows : Grows q q')
    (hwf : q'.storage.Wf) (hopens : q'.storage.Openable .iterator = q.storage.Openable .iterator)
    (hdescs : q'.allTupleDesc = q.allTupleDesc ++ (factor.scanned q.catalog).map Relation.toDesc)
    (hslots : plan.slots = tables.slotsOf factor.columns)
    (hfits : plan.Fits tables.length ↔ q.allTupleDesc.length + factor.references.length ≤ tables.length) :
    JoinBuilt q tables factor (.ok (plan, q'))
  | fault {f : Fault} (hbuildable : ¬ factor.Buildable q.catalog (q.storage.Openable .iterator) tables) :
    JoinBuilt q tables factor (.error f)

theorem joinBuilt_tableReference (hq : q.Scoped tables) (hs : q.storage.Wf) {ref : TableReference} {rel : Relation}
    (hrel : q.catalog.getRelation ref.tableName = some rel) (hmem : (ref.name, rel) ∈ tables) :
    JoinBuilt q tables (.tableReference ref) (buildJoin (.tableReference ref) q) := by
  have hbuildable : (TableFactor.tableReference ref).Buildable q.catalog (q.storage.Openable .iterator) tables ↔
      q.storage.Openable .iterator rel.id := by
    simp [TableFactor.Buildable, hrel]
  have hrelation := (hq.relation _ _).2 hmem
  by_cases hopen : q.storage.Openable .iterator rel.id
  · obtain ⟨iter, storage, hnew, ha⟩ := LevelStore.exists_acquired hs hopen
    have hbuild : buildJoin (.tableReference ref) q = .ok (.seqScan ⟨iter, q.allTupleDesc.length⟩,
        { q with
          storage
          allIter := q.allIter ++ [iter]
          allTupleDesc := q.allTupleDesc ++ [rel.toDesc] }) := by
      simp [buildJoin, buildTableScan, hrel, hnew, hrelation]
    rw [hbuild]
    refine .built (hbuildable.2 hopen) rfl ha.wf (ha.openable_eq hopen) ?_ rfl ?_
    · simp [TableFactor.scanned, TableFactor.references, hrel]
    · exact Iff.rfl
  · have hbuild : ∃ f, buildJoin (.tableReference ref) q = .error f := by
      cases hresult : buildJoin (.tableReference ref) q with
      | error f => exact ⟨f, rfl⟩
      | ok r =>
        obtain ⟨rel', iter, storage, relation, hrel', hiter, -⟩ := buildTableScan_eq_ok hresult
        obtain rfl := Option.some.inj (hrel.symm.trans hrel')
        exact absurd (LevelStore.acquired_of_newIterator hs hiter).1 hopen
    obtain ⟨f, hbuild⟩ := hbuild
    rw [hbuild]
    exact .fault (mt hbuildable.1 hopen)

theorem joinBuilt {factor : TableFactor} (hq : q.Scoped tables) (hs : q.storage.Wf) (hfactor : factor.IsTableReference)
    (hnull : .null ∉ factor.visits)
    (hrefs : ∀ ref ∈ factor.references, ∃ rel, q.catalog.getRelation ref.tableName = some rel ∧ (ref.name, rel) ∈ tables)
    (hbound : ∀ ref ∈ factor.columns, ∃ slot, q.name2slot ref = some slot) :
    JoinBuilt q tables factor (buildJoin factor q) := by
  induction hfactor generalizing q with
  | table tableName asName =>
    obtain ⟨rel, hrel, hmem⟩ := hrefs _ mem_cons_self
    exact joinBuilt_tableReference hq hs hrel hmem
  | subQuery => exact .fault id
  | naturalJoin type hl hr => simp [TableFactor.visits, ExpressionBase.visits] at hnull
  | @join left right predicate type hl hr hp ihl ihr =>
    simp only [TableFactor.visits, mem_append, not_or] at hnull
    simp only [TableFactor.references, TableFactor.columns, mem_append] at hrefs hbound
    have hleft := ihl hq hs hnull.1 (fun ref href => hrefs ref (.inl href)) fun ref href => hbound ref (.inl href)
    rw [buildJoin]
    generalize buildJoin left q = x at hleft
    cases hleft with
    | fault hnot => exact .fault fun h => hnot h.1
    | @built leftExec q₁ hlb hgrows hwf hopens hdescs hslots hfits =>
      have hcatalog : q₁.catalog = q.catalog := by rw [hgrows]
      have hname2slot : q₁.name2slot = q.name2slot := by rw [hgrows]
      have hright := ihr (hq.grows hgrows) hwf hnull.2.1
        (fun ref href => hcatalog ▸ hrefs ref (.inr href)) fun ref href => hname2slot ▸ hbound ref (.inr (.inl href))
      simp only [ok_bind]
      generalize buildJoin right q₁ = y at hright
      cases hright with
      | fault hnot =>
        rw [hcatalog, hopens] at hnot
        exact .fault fun h => hnot h.2.1
      | @built rightExec q₂ hrb hgrows₂ hwf₂ hopens₂ hdescs₂ hslots₂ hfits₂ =>
        have hgrows' : Grows q q₂ := by rw [Grows, hgrows₂, hgrows]
        have hq₂ := hq.grows hgrows'
        have hname2slot₂ : q₂.name2slot = q.name2slot := by rw [hgrows']
        have hboolean := booleanBuilt hq₂ hp hnull.2.2 fun ref href => hname2slot₂ ▸ hbound ref (.inr (.inr href))
        rw [hcatalog, hopens] at hrb
        simp only [ok_bind]
        generalize q₂.buildBooleanExpression predicate = z at hboolean
        cases hboolean with
        | fault hnot => exact .fault fun h => hnot h.2.2.matched
        | missing _ hnot => exact .fault fun h => hnot h.2.2
        | @built b htyped hbslots =>
          refine .built ⟨hlb, hrb, htyped⟩ hgrows' hwf₂ (hopens₂.trans hopens) ?_ ?_ ?_
          · rw [hdescs₂, hdescs, hcatalog]
            simp [TableFactor.scanned, TableFactor.references]
          · rw [Plan.slots, hslots, hslots₂, hbslots, TableFactor.columns, Scope.slotsOf_append, Scope.slotsOf_append]
          · rw [Plan.Fits, hq₂.relationSize, hfits, hfits₂, hdescs, TableFactor.references]
            have hlength := TableFactor.length_scanned fun ref href => (hrefs ref (.inl href)).imp fun _ h => h.1
            simp only [length_append, length_map, hlength]
            omega

theorem joinBuilt_of_checked {catalog : Catalog} {storage : LevelStore} {stmt : SelectStmt} {factor : TableFactor}
    (hstmt : stmt.Parsed) (hs : storage.Wf) (hfactor : factor ∈ stmt.tableReference)
    (hfound : Scope.AllFound catalog [] stmt.visits)
    (hchecked : Checked (new catalog storage) q (Scope.visitAll catalog [] stmt.visits) (columnsOf stmt.visits)) :
    JoinBuilt q (Scope.visitAll catalog [] stmt.visits) factor (buildJoin factor q) := by
  obtain ⟨rfl, rfl, -⟩ := hchecked.unbuilt
  have hsub := SelectStmt.visits_from_subset hfactor
  refine joinBuilt hchecked.scope hs (hstmt.tableReference factor hfactor)
    (fun hnull => hfound.null_not_mem (hsub hnull)) (fun ref href => ?_)
    fun ref href => hchecked.bound ref (mem_columnsOf.2 (hsub (TableFactor.column_mem_visits.2 href)))
  have hvisit := hsub (TableFactor.table_mem_visits.2 href)
  obtain ⟨rel, hrel⟩ := hfound.table_mem hvisit
  exact ⟨rel, hrel, Scope.mem_visitAll (by simp [Scope.Cataloged]) (fun ref => hstmt.name_eq) hvisit hrel⟩

/-! ## The projection -/

variable {slots slots' : List SlotReference}

inductive Pushed (q : QueryRealizer) (slots : List SlotReference) : Res QueryRealizer → Prop
  | pushed {q' : QueryRealizer} (hheld : ∀ slot ∈ slots, slot.Held q.allTupleDesc) (hprojects : Projects q q')
    (hlist : q'.projectionList = q.projectionList ++ slots.map .slotReference) : Pushed q slots (.ok q')
  | fault {f : Fault} (hheld : ¬ ∀ slot ∈ slots, slot.Held q.allTupleDesc) : Pushed q slots (.error f)

theorem Projects.trans {q₁ q₂ : QueryRealizer} (h₁ : Projects q q₁) (h₂ : Projects q₁ q₂) : Projects q q₂ := by
  rw [Projects, h₂, h₁]

theorem Pushed.nil (q : QueryRealizer) : Pushed q [] (.ok q) := .pushed (by simp) rfl (by simp)

theorem Pushed.bind {x : Res QueryRealizer} {f : QueryRealizer → Res QueryRealizer} (hx : Pushed q slots x)
    (hf : ∀ q', Projects q q' → Pushed q' slots' (f q')) : Pushed q (slots ++ slots') (x >>= f) := by
  cases hx with
  | fault hheld => exact .fault fun h => hheld (forall_mem_append.1 h).1
  | @pushed q' hheld hprojects hlist =>
    have hpushed := hf q' hprojects
    have hdescs : q'.allTupleDesc = q.allTupleDesc := by rw [hprojects]
    rw [ok_bind]
    generalize f q' = y at hpushed
    cases hpushed with
    | fault hheld' =>
      rw [hdescs] at hheld'
      exact .fault fun h => hheld' (forall_mem_append.1 h).2
    | pushed hheld' hprojects' hlist' =>
      rw [hdescs] at hheld'
      refine .pushed (forall_mem_append.2 ⟨hheld, hheld'⟩) (hprojects.trans hprojects') ?_
      rw [hlist', hlist, map_append, append_assoc]

theorem Pushed.foldlM {α : Type} {f : QueryRealizer → α → Res QueryRealizer} {slotsOf : α → List SlotReference}
    {as : List α} (hf : ∀ a ∈ as, ∀ q', Projects q q' → Pushed q' (slotsOf a) (f q' a)) :
    Pushed q (as.flatMap slotsOf) (as.foldlM f q) := by
  induction as generalizing q with
  | nil => exact .nil q
  | cons a as ih =>
    rw [flatMap_cons, foldlM_cons]
    refine (hf a mem_cons_self q rfl).bind fun q₁ h₁ => ih fun b hb q₂ h₂ => ?_
    exact hf b (mem_cons_of_mem _ hb) q₂ (h₁.trans h₂)

theorem pushed_column (e e' : Fault) (q : QueryRealizer) (slot : SlotReference) : Pushed q [slot] (do
    let rowDesc ← Res.getD q.allTupleDesc[slot.tupleIndex]? e
    let columnDesc ← Res.getD rowDesc[slot.slotIndex]? e'
    return q.pushColumn slot columnDesc) := by
  cases hrow : q.allTupleDesc[slot.tupleIndex]? with
  | none => exact .fault (by simp [SlotReference.Held, hrow])
  | some rowDesc =>
    cases hcol : rowDesc[slot.slotIndex]? with
    | none =>
      simp only [getD_some, ok_bind, hcol]
      refine .fault fun h => ?_
      obtain ⟨desc, hdesc, hlt⟩ := h slot mem_cons_self
      obtain rfl := Option.some.inj (hrow.symm.trans hdesc)
      exact Nat.not_lt.2 (List.getElem?_eq_none_iff.1 hcol) hlt
    | some columnDesc =>
      simp only [getD_some, ok_bind, hcol]
      refine .pushed (fun s hs => ?_) rfl (by simp [pushColumn])
      rw [mem_singleton.1 hs]
      exact ⟨rowDesc, hrow, (List.getElem?_eq_some_iff.1 hcol).1⟩

theorem Scoped.projects (hq : q.Scoped tables) (h : Projects q q') : q'.Scoped tables := by
  rw [h]
  exact ⟨hq.index, hq.relation, hq.indexSize, hq.relationSize, hq.slot⟩

theorem pushed_targets {es : List ExpressionBase} (hq : q.Scoped tables) (hes : ∀ e ∈ es, e.IsExpr)
    (hbound : ∀ ref ∈ es.flatMap ExpressionBase.columns, ∃ slot, q.name2slot ref = some slot) :
    Pushed q (tables.slotsOf (es.flatMap ExpressionBase.columns)) (Prod.snd <$> projectTargets es q) ∧
      ∀ r, projectTargets es q = .ok r → r.1 = true := by
  induction es generalizing q with
  | nil =>
    refine ⟨.nil q, fun r hr => ?_⟩
    rw [← Except.ok.inj hr]
  | cons e es ih =>
    rw [flatMap_cons] at hbound ⊢
    have hrest : ∀ q', Projects q q' →
        Pushed q' (tables.slotsOf (es.flatMap ExpressionBase.columns)) (Prod.snd <$> projectTargets es q') ∧
          ∀ r, projectTargets es q' = .ok r → r.1 = true := by
      intro q' hprojects
      have hname2slot : q'.name2slot = q.name2slot := by rw [hprojects]
      exact ih (hq.projects hprojects) (fun e he => hes e (mem_cons_of_mem _ he)) fun ref href =>
        hname2slot ▸ hbound ref (mem_append_right _ href)
    cases hes e mem_cons_self with
    | const value => exact hrest q rfl
    | column ref =>
      obtain ⟨slot, hslot⟩ := hbound ref (mem_append_left _ mem_cons_self)
      have hcolumn : tables.slotsOf (ExpressionBase.columnReference ref).columns = [slot] := by
        simp [ExpressionBase.columns, Scope.slotsOf, hq.slot ref slot hslot]
      have hpush := pushed_column .assertion .assertion q slot
      have hstep : projectTargets (.columnReference ref :: es) q = (do
          let rowDesc ← Res.getD q.allTupleDesc[slot.tupleIndex]? .assertion
          let columnDesc ← Res.getD rowDesc[slot.slotIndex]? .assertion
          return q.pushColumn slot columnDesc) >>= projectTargets es := by
        simp [projectTargets, hslot]
      generalize (do
          let rowDesc ← Res.getD q.allTupleDesc[slot.tupleIndex]? .assertion
          let columnDesc ← Res.getD rowDesc[slot.slotIndex]? .assertion
          return q.pushColumn slot columnDesc : Res QueryRealizer) = x at hpush hstep
      rw [hstep, Scope.slotsOf_append, hcolumn, map_bind]
      refine ⟨hpush.bind fun q' hprojects => (hrest q' hprojects).1, fun r hr => ?_⟩
      obtain ⟨q', rfl, hr⟩ := bind_eq_ok.1 hr
      cases hpush with
      | pushed _ hprojects _ => exact (hrest q' hprojects).2 r hr

/-- The columns of `SELECT *`, in the order of `name2relation_`. -/
def starColumns (q : QueryRealizer) : List SlotReference :=
  q.name2relation.toList.flatMap fun t => t.2.attributes.map fun a =>
    { tupleIndex := q.name2tupleIndex[t.1]?.getD 0, slotIndex := a.attributeIndex.toNat }

theorem mem_starSlots (hq : q.Scoped tables) {slot : SlotReference} :
    slot ∈ tables.starSlots ↔ slot ∈ q.starColumns := by
  simp only [Scope.starSlots, starColumns, mem_flatMap, mem_map, Prod.exists, mem_zipIdx_iff_getElem?,
    Std.ExtTreeMap.mem_toList_iff_getElem?_eq_some, hq.relation]
  constructor
  · rintro ⟨name, rel, i, hi, a, ha, rfl⟩
    refine ⟨name, rel, mem_of_getElem? hi, a, ha, ?_⟩
    rw [hq.getElem?_iff.2 ⟨rel, hi⟩]
    rfl
  · rintro ⟨name, rel, hmem, a, ha, rfl⟩
    obtain ⟨i, hi⟩ := mem_iff_getElem?.1 hmem
    refine ⟨name, rel, i, hi, a, ha, ?_⟩
    rw [hq.getElem?_iff.2 ⟨rel, hi⟩]
    rfl

theorem pushed_star (q : QueryRealizer) : Pushed q q.starColumns q.projectStar := by
  refine Pushed.foldlM fun t _ q₁ h₁ => ?_
  rw [map_eq_flatMap]
  refine Pushed.foldlM fun a _ q₂ h₂ => ?_
  have hindex : q₂.name2tupleIndex = q.name2tupleIndex := by rw [h₂, h₁]
  rw [← hindex]
  exact pushed_column _ _ q₂ _

theorem parsed_selectTU : selectTU.Parsed where
  selectList := by simp [selectTU]
  tableReference_ne_nil := by simp [selectTU]
  tableReference := by
    intro factor hfactor
    obtain rfl := mem_singleton.1 hfactor
    exact .join .inner (.table (ascii "t") []) (.table (ascii "u") []) (.compare rfl (.column _) (.column _))
  optWhere := .inl rfl
  optGroupBy := by simp [selectTU]
  optOrderBy := by simp [selectTU]

end QueryRealizer

end Dbms18
