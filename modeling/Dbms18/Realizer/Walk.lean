import Dbms18.Parser.Grammar
import Dbms18.Realizer.Resolution

/-!
# `Check` on any SELECT

`Check` looks at the nodes of the tree one after the other. It goes on as long as every table and
column is found, and stops at the first one that is not; if it comes to a missing node, it uses a null
pointer (`walked_check`).
-/

namespace Dbms18

open List

namespace Scope

variable (catalog : Catalog)

def register (tables : Scope) (name : Bytes) (rel : Relation) : Scope :=
  if name ∈ tables.map Prod.fst then tables else tables ++ [(name, rel)]

def visit (tables : Scope) : Visit → Scope
  | .table ref => (catalog.getRelation ref.tableName).elim tables (tables.register ref.name)
  | _ => tables

def visitAll (tables : Scope) (vs : List Visit) : Scope := vs.foldl (visit catalog) tables

/-- The table is in the catalog, or the column in exactly one of the tables so far. -/
def Found (tables : Scope) : Visit → Prop
  | .table ref => ∃ rel, catalog.getRelation ref.tableName = some rel
  | .column ref => ∃ slot, tables.Finds ref slot
  | .null => False

def AllFound : Scope → List Visit → Prop
  | _, [] => True
  | tables, v :: vs => tables.Found catalog v ∧ AllFound (tables.visit catalog v) vs

/-- There is a missing node, and everything before it is found. -/
def MeetsNull : Scope → List Visit → Prop
  | _, [] => False
  | tables, v :: vs => v = .null ∨ tables.Found catalog v ∧ MeetsNull (tables.visit catalog v) vs

variable {catalog} {tables : Scope} {vs ws : List Visit}

theorem allFound_append : AllFound catalog tables (vs ++ ws) ↔
    AllFound catalog tables vs ∧ AllFound catalog (tables.visitAll catalog vs) ws := by
  induction vs generalizing tables with
  | nil => simp [AllFound, visitAll]
  | cons v vs ih =>
    rw [cons_append, AllFound, AllFound, ih, and_assoc]
    rfl

theorem meetsNull_append : MeetsNull catalog tables (vs ++ ws) ↔
    MeetsNull catalog tables vs ∨ AllFound catalog tables vs ∧ MeetsNull catalog (tables.visitAll catalog vs) ws := by
  induction vs generalizing tables with
  | nil => simp [AllFound, MeetsNull, visitAll]
  | cons v vs ih =>
    have hfold : tables.visitAll catalog (v :: vs) = (tables.visit catalog v).visitAll catalog vs := rfl
    rw [cons_append, AllFound, MeetsNull, MeetsNull, ih, hfold]
    tauto

theorem AllFound.not_meetsNull (h : AllFound catalog tables vs) : ¬ MeetsNull catalog tables vs := by
  induction vs generalizing tables with
  | nil => exact id
  | cons v vs ih =>
    obtain ⟨hv, hvs⟩ := h
    rintro (rfl | ⟨-, hnull⟩)
    · exact hv
    · exact ih hvs hnull

theorem MeetsNull.null_mem (h : MeetsNull catalog tables vs) : .null ∈ vs := by
  induction vs generalizing tables with
  | nil => exact absurd h id
  | cons v vs ih =>
    rcases h with rfl | ⟨-, h⟩
    · exact mem_cons_self
    · exact mem_cons_of_mem _ (ih h)

theorem AllFound.null_not_mem (h : AllFound catalog tables vs) : .null ∉ vs := by
  induction vs generalizing tables with
  | nil => simp
  | cons v vs ih =>
    obtain ⟨hv, hvs⟩ := h
    rw [mem_cons, not_or]
    refine ⟨?_, ih hvs⟩
    rintro rfl
    exact hv

theorem AllFound.table_mem (h : AllFound catalog tables vs) {ref : TableReference} (hmem : .table ref ∈ vs) :
    ∃ rel, catalog.getRelation ref.tableName = some rel := by
  induction vs generalizing tables with
  | nil => cases hmem
  | cons v vs ih =>
    obtain ⟨hv, hvs⟩ := h
    rcases mem_cons.1 hmem with rfl | hmem
    · exact hv
    · exact ih hvs hmem

theorem visitAll_append : tables.visitAll catalog (vs ++ ws) = (tables.visitAll catalog vs).visitAll catalog ws :=
  foldl_append

theorem mem_register {name : Bytes} {rel : Relation} {t : Bytes × Relation} (h : t ∈ tables.register name rel) :
    t ∈ tables ∨ t = (name, rel) := by
  unfold register at h
  split at h
  · exact .inl h
  · simpa using h

theorem prefix_register (tables : Scope) (name : Bytes) (rel : Relation) : tables <+: tables.register name rel := by
  unfold register
  split
  · exact prefix_refl _
  · exact prefix_append _ _

theorem prefix_visitAll (tables : Scope) (vs : List Visit) : tables <+: tables.visitAll catalog vs := by
  induction vs generalizing tables with
  | nil => exact prefix_refl _
  | cons v vs ih =>
    refine List.IsPrefix.trans ?_ (ih (tables.visit catalog v))
    cases v with
    | table ref =>
      rw [visit]
      cases catalog.getRelation ref.tableName with
      | none => exact prefix_refl _
      | some rel => exact tables.prefix_register ref.name rel
    | column | null => exact prefix_refl _

/-- The tables have the relations that the catalog has under their names. -/
def Cataloged (catalog : Catalog) (tables : Scope) : Prop := ∀ t ∈ tables, catalog.getRelation t.1 = some t.2

theorem Cataloged.visitAll (htables : Cataloged catalog tables)
    (hvs : ∀ ref, .table ref ∈ vs → ref.name = ref.tableName) : Cataloged catalog (tables.visitAll catalog vs) := by
  induction vs generalizing tables with
  | nil => exact htables
  | cons v vs ih =>
    refine ih ?_ fun ref href => hvs ref (mem_cons_of_mem _ href)
    cases v with
    | table ref =>
      rw [visit]
      cases hrel : catalog.getRelation ref.tableName with
      | none => exact htables
      | some rel =>
        intro t ht
        rcases mem_register ht with ht | rfl
        · exact htables t ht
        · rwa [hvs ref mem_cons_self]
    | column | null => exact htables

theorem mem_visitAll (htables : Cataloged catalog tables) (hvs : ∀ ref, .table ref ∈ vs → ref.name = ref.tableName)
    {ref : TableReference} {rel : Relation} (hmem : .table ref ∈ vs) (hrel : catalog.getRelation ref.tableName = some rel) :
    (ref.name, rel) ∈ tables.visitAll catalog vs := by
  obtain ⟨pre, post, rfl⟩ := append_of_mem hmem
  have hpost : ∃ rel', (ref.name, rel') ∈ tables.visitAll catalog (pre ++ .table ref :: post) := by
    rw [visitAll_append]
    have hvisit : (tables.visitAll catalog pre).visitAll catalog (.table ref :: post) =
        ((tables.visitAll catalog pre).register ref.name rel).visitAll catalog post := by
      simp [visitAll, visit, hrel]
    rw [hvisit]
    by_cases htaken : ref.name ∈ (tables.visitAll catalog pre).map Prod.fst
    · obtain ⟨⟨name, rel'⟩, ht, rfl⟩ := mem_map.1 htaken
      exact ⟨rel', (prefix_visitAll _ _).subset ((prefix_register _ _ _).subset ht)⟩
    · refine ⟨rel, (prefix_visitAll _ _).subset ?_⟩
      rw [register, if_neg htaken]
      exact mem_append_right _ mem_cons_self
  obtain ⟨rel', hrel'⟩ := hpost
  have hfound := htables.visitAll hvs _ hrel'
  rw [hvs ref hmem, hrel] at hfound
  rwa [Option.some.inj hfound]

end Scope

namespace QueryRealizer

variable {catalog : Catalog} {q q' : QueryRealizer} {tables : Scope} {ref : ColumnReference} {type : ClauseType}
  {vs ws : List Visit}

theorem Scoped.register (hq : q.Scoped tables) (name : Bytes) (rel : Relation) :
    (q.registerTable name rel).Scoped (tables.register name rel) := by
  by_cases hmem : name ∈ tables.map Prod.fst
  · rw [Scope.register, if_pos hmem]
    obtain ⟨⟨name', rel'⟩, ht, rfl⟩ := mem_map.1 hmem
    obtain ⟨i, hi⟩ := mem_iff_getElem?.1 ht
    have hindex : name' ∈ q.name2tupleIndex := by
      simp [Std.ExtTreeMap.mem_iff_isSome_getElem?, hq.getElem?_iff.2 ⟨rel', hi⟩]
    have hrelation : name' ∈ q.name2relation := by
      simp [Std.ExtTreeMap.mem_iff_isSome_getElem?, (hq.relation _ _).2 ht]
    refine ⟨fun n i => ?_, fun n r => ?_, ?_, ?_, hq.slot⟩
    · rw [← hq.index n i]
      simp [QueryRealizer.registerTable, Std.ExtTreeMap.getElem?_insertIfNew, hindex]
    · rw [← hq.relation n r]
      simp [QueryRealizer.registerTable, Std.ExtTreeMap.getElem?_insertIfNew, hrelation]
    · simp [QueryRealizer.registerTable, Std.ExtTreeMap.size_insertIfNew, hindex, hq.indexSize]
    · simp [QueryRealizer.registerTable, Std.ExtTreeMap.size_insertIfNew, hrelation, hq.relationSize]
  · rw [Scope.register, if_neg hmem]
    exact hq.registerTable hmem

def columnsOf (vs : List Visit) : List ColumnReference :=
  vs.filterMap fun v => match v with
    | .column ref => some ref
    | _ => none

theorem mem_columnsOf : ref ∈ columnsOf vs ↔ .column ref ∈ vs := by
  simp only [columnsOf, mem_filterMap]
  constructor
  · rintro ⟨v, hv, heq⟩
    cases v with
    | column ref' =>
      obtain rfl := Option.some.inj heq
      exact hv
    | table | null => cases heq
  · intro h
    exact ⟨_, h, rfl⟩

inductive Walked (catalog : Catalog) (q : QueryRealizer) (tables : Scope) (vs : List Visit) :
    Res (State × QueryRealizer) → Prop
  | accepted {q' : QueryRealizer} (hfound : Scope.AllFound catalog tables vs)
    (hchecked : Checked q q' (tables.visitAll catalog vs) (columnsOf vs)) : Walked catalog q tables vs (.ok (.ok, q'))
  | rejected {state : State} {q' : QueryRealizer} (hstate : state ≠ .ok) (hfound : ¬ Scope.AllFound catalog tables vs)
    (hnull : ¬ Scope.MeetsNull catalog tables vs) : Walked catalog q tables vs (.ok (state, q'))
  | null (hnull : Scope.MeetsNull catalog tables vs) : Walked catalog q tables vs (.error .nullPointer)

/-- `f` looks at `vs`, from whatever tables there are. -/
def Walks (catalog : Catalog) (f : QueryRealizer → Res (State × QueryRealizer)) (vs : List Visit) : Prop :=
  ∀ q tables, q.catalog = catalog → q.Scoped tables → Walked catalog q tables vs (f q)

theorem Walks.nil : Walks catalog (fun q => .ok (.ok, q)) [] :=
  fun _ _ _ hq => .accepted trivial (Checked.refl hq)

theorem Walks.andThen {f g : QueryRealizer → Res (State × QueryRealizer)} (hf : Walks catalog f vs)
    (hg : Walks catalog g ws) : Walks catalog (fun q => andThen (f q) g) (vs ++ ws) := by
  intro q tables hcatalog hq
  have hw := hf q tables hcatalog hq
  generalize hx : f q = x at hw
  simp only [hx]
  cases hw with
  | null hnull => exact .null (Scope.meetsNull_append.2 (.inl hnull))
  | @rejected state q' hstate hfound hnull =>
    rw [andThen_of_ne hstate]
    refine .rejected hstate (fun h => hfound (Scope.allFound_append.1 h).1) fun h => ?_
    rcases Scope.meetsNull_append.1 h with h | ⟨h, -⟩
    · exact hnull h
    · exact hfound h
  | @accepted q' hfound hchecked =>
    rw [andThen_ok]
    have hcatalog' : q'.catalog = catalog := by
      rw [hchecked.frame]
      exact hcatalog
    have hw' := hg q' _ hcatalog' hchecked.scope
    generalize g q' = y at hw'
    cases hw' with
    | null hnull => exact .null (Scope.meetsNull_append.2 (.inr ⟨hfound, hnull⟩))
    | rejected hstate hfound' hnull =>
      refine .rejected hstate (fun h => hfound' (Scope.allFound_append.1 h).2) fun h => ?_
      rcases Scope.meetsNull_append.1 h with h | ⟨-, h⟩
      · exact hfound.not_meetsNull h
      · exact hnull h
    | accepted hfound' hchecked' =>
      refine .accepted (Scope.allFound_append.2 ⟨hfound, hfound'⟩) ?_
      rw [Scope.visitAll_append, columnsOf, filterMap_append]
      exact hchecked.trans hchecked'

theorem Walks.checkAll {α : Type} {f : α → QueryRealizer → Res (State × QueryRealizer)} {visits : α → List Visit}
    {as : List α} (hf : ∀ a ∈ as, Walks catalog (f a) (visits a)) : Walks catalog (checkAll f as) (as.flatMap visits) := by
  induction as with
  | nil => exact Walks.nil
  | cons a as ih =>
    rw [flatMap_cons]
    exact (hf a mem_cons_self).andThen (ih fun b hb => hf b (mem_cons_of_mem _ hb))

theorem walks_columnReference (ref : ColumnReference) (htype : type ≠ .having) :
    Walks catalog (fun q => q.checkColumnReference ref type) [.column ref] := by
  intro q tables hcatalog hq
  by_cases hfinds : ∃ slot, tables.Finds ref slot
  · obtain ⟨slot, hslot⟩ := hfinds
    simp only [checkColumnReference_eq hq hslot htype]
    exact .accepted ⟨⟨slot, hslot⟩, trivial⟩ (Checked.insertSlot hq hslot.1)
  · obtain ⟨q', hcheck⟩ := rejected_columnReference hq (fun h => hfinds ((resolves_iff_finds hq).1 h)) type
    simp only [hcheck]
    refine .rejected (Scope.failure_ne_ok _ _) (fun h => hfinds h.1) ?_
    rintro (h | ⟨h, -⟩)
    · cases h
    · exact hfinds h

theorem walks_expressionBase (e : ExpressionBase) (htype : type ≠ .having)
    (hclause : e.IsExpr ∨ type = .joinOn ∨ type = .whereClause) : Walks catalog (checkExpressionBase type e) e.visits := by
  induction e with
  | null => exact fun q tables _ _ => .null (.inl rfl)
  | columnReference ref => exact walks_columnReference ref htype
  | constValue value => exact Walks.nil
  | operation op left right ihl ihr =>
    have hclause : type = .joinOn ∨ type = .whereClause := hclause.resolve_left nofun
    have hwalks := (ihl (.inr hclause)).andThen (ihr (.inr hclause))
    intro q tables hcatalog hq
    rw [checkExpressionBase, Res.check_of hclause, Res.ok_bind]
    exact hwalks q tables hcatalog hq

theorem walks_tableFactor (factor : TableFactor) : Walks catalog (checkTableFactor factor) factor.visits := by
  induction factor with
  | tableReference ref =>
    intro q tables hcatalog hq
    rw [checkTableFactor, hcatalog]
    cases hrel : catalog.getRelation ref.tableName with
    | none =>
      refine .rejected (by decide) ?_ ?_
      · rintro ⟨⟨rel, hrel'⟩, -⟩
        cases hrel.symm.trans hrel'
      · rintro (h | ⟨⟨rel, hrel'⟩, -⟩)
        · cases h
        · cases hrel.symm.trans hrel'
    | some relation =>
      refine .accepted ⟨⟨relation, hrel⟩, trivial⟩ ⟨rfl, fun _ _ h => h, ?_, by simp [columnsOf, TableFactor.visits]⟩
      have hvisit : tables.visitAll catalog (TableFactor.tableReference ref).visits = tables.register ref.name relation := by
        simp [Scope.visitAll, TableFactor.visits, Scope.visit, hrel]
      rw [hvisit]
      exact hq.register ref.name relation
  | joinClause left right predicate type ihl ihr =>
    exact ihl.andThen (ihr.andThen (walks_expressionBase predicate (by decide) (.inr (.inl rfl))))
  | subQuery => exact Walks.nil

theorem walked_check {stmt : SelectStmt} (hstmt : stmt.Parsed) (storage : LevelStore) :
    Walked catalog (new catalog storage) [] stmt.visits (check stmt (new catalog storage)) := by
  have hclause : ∀ {type es}, type ≠ .having → (∀ e ∈ es, e.IsExpr ∨ type = .joinOn ∨ type = .whereClause) →
      Walks catalog (checkAll (checkExpressionBase type) es) (es.flatMap ExpressionBase.visits) :=
    fun htype h => .checkAll fun e he => walks_expressionBase e htype (h e he)
  have hfrom : Walks catalog (checkAll checkTableFactor stmt.tableReference)
      (stmt.tableReference.flatMap TableFactor.visits) := .checkAll fun factor _ => walks_tableFactor factor
  have hwhere := @hclause .whereClause stmt.optWhere (by decide) fun _ _ => .inr (.inr rfl)
  have hgroup := @hclause .groupBy stmt.optGroupBy (by decide) fun e he => .inl (hstmt.optGroupBy e he)
  have hselect := @hclause .select stmt.selectList (by decide) fun e he => .inl (hstmt.selectList e he)
  have horder := @hclause .orderBy stmt.optOrderBy (by decide) fun e he => .inl (hstmt.optOrderBy e he)
  exact hfrom.andThen (hwhere.andThen (hgroup.andThen (hselect.andThen horder))) _ _ rfl (scoped_new catalog storage)

end QueryRealizer

end Dbms18
