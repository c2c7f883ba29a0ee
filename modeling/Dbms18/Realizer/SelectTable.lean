import Dbms18.Executor.Load
import Dbms18.Realizer.Acceptance
import Dbms18.Realizer.ExecSelect
import Dbms18.Realizer.JoinChain

/-!
# A SELECT over one table

`SELECT c₁, …, cₙ FROM t WHERE e` over rows that `Load` has stored: `Check` and `Build` make a plan, and
`ExecSelect` sends a DataRow for each row of the table that satisfies `e`, in the order of the keys. The
number of rows in its message comes from an `int`, so it is right only below 2³¹.
-/

namespace Dbms18

open List

namespace QueryRealizer

/-! ## The projection -/

theorem projectTargets_eq {q : QueryRealizer} (refs : List ColumnReference) (slotOf : ColumnReference → SlotReference)
    (descOf : ColumnReference → ColumnDesc) (h : ∀ ref ∈ refs, q.name2slot ref = some (slotOf ref) ∧ ∃ rowDesc,
      q.allTupleDesc[(slotOf ref).tupleIndex]? = some rowDesc ∧ rowDesc[(slotOf ref).slotIndex]? = some (descOf ref)) :
    projectTargets (refs.map .columnReference) q = .ok (true, { q with
      projectionList := q.projectionList ++ refs.map fun ref => .slotReference (slotOf ref)
      outputRowDesc := q.outputRowDesc ++ refs.map descOf }) := by
  induction refs generalizing q with
  | nil => simp [projectTargets]
  | cons ref refs ih =>
    obtain ⟨hslot, rowDesc, hrow, hcolumn⟩ := h ref mem_cons_self
    have hrest := ih (q := q.pushColumn (slotOf ref) (descOf ref)) fun ref' href' => h ref' (mem_cons_of_mem _ href')
    simp [pushColumn] at hrest
    simp [projectTargets, hslot, hrow, hcolumn, pushColumn, hrest]

/-! ## The statement -/

def selectStmt (refs : List ColumnReference) (table : TableReference) (optWhere : Option ExpressionBase) : SelectStmt where
  selectList := refs.map .columnReference
  tableReference := [.tableReference table]
  optWhere := optWhere.toList
  optGroupBy := []
  optOrderBy := []

/-- The select list names different columns of the table, and the operands of every comparison in WHERE
have one type. -/
structure SelectsFrom (table : Bytes × Relation) (refs : List ColumnReference) (optWhere : Option ExpressionBase) : Prop where
  nonempty : refs ≠ []
  resolved : ∀ ref ∈ refs, (Scope.resolve [table] ref).isSome
  distinct : (refs.map ColumnReference.columnName).Nodup
  typed : ∀ e ∈ optWhere, e.WellTyped (Scope.typeOf [table])

def matching (table : Bytes × Relation) (optWhere : Option ExpressionBase) (rows : TableRows) : List Row :=
  (rows.toList.map Prod.snd).filter fun row => optWhere.all fun e => e.holds (Scope.env [table] [row])

def column (table : Bytes × Relation) (row : Row) (ref : ColumnReference) : Value :=
  (Scope.env [table] [row] ref).getD (.varchar [])

def fields (table : Bytes × Relation) (refs : List ColumnReference) (row : Row) : List Bytes :=
  refs.map fun ref => (column table row ref).text

theorem accepted_of_wellTyped {table : Bytes × Relation} {e : ExpressionBase} (h : e.WellTyped (Scope.typeOf [table])) :
    e.Accepted [table] .whereClause := by
  have hoperand : ∀ {e : ExpressionBase} {t : DataType}, e.operandType (Scope.typeOf [table]) = some t →
      e.Accepted [table] .whereClause := by
    intro e t ht
    cases e with
    | columnReference ref =>
      obtain ⟨slot, hslot, -⟩ := Option.map_eq_some_iff.1 ht
      exact ⟨slot, Scope.finds_singleton hslot⟩
    | constValue value => trivial
    | null | operation => cases ht
  induction e with
  | null | columnReference | constValue => cases h
  | operation op left right ihl ihr =>
    simp only [ExpressionBase.WellTyped] at h
    split at h
    · obtain ⟨t, -, hl, hr⟩ := h
      exact ⟨.inr rfl, hoperand hl, hoperand hr⟩
    · exact ⟨.inr rfl, ihl h.2.1, ihr h.2.2⟩

section Select

variable {catalog : Catalog} {s : LevelStore} {table : TableReference} {rel : Relation} {refs : List ColumnReference}
  {optWhere : Option ExpressionBase} {q : QueryRealizer} {rows : TableRows}

theorem exists_check_selectStmt (hrel : catalog.getRelation table.tableName = some rel)
    (h : SelectsFrom (table.name, rel) refs optWhere) (s : LevelStore) :
    ∃ q, check (selectStmt refs table optWhere) (new catalog s) = .ok (.ok, q) := by
  have hscope : ((new catalog s).registerTable table.name rel).Scoped [(table.name, rel)] :=
    (scoped_new catalog s).registerTable (by simp)
  have hfrom : checkAll checkTableFactor [.tableReference table] (new catalog s) =
      .ok (.ok, (new catalog s).registerTable table.name rel) := by
    have hget : (new catalog s).catalog.getRelation table.tableName = some rel := hrel
    simp [checkAll, checkTableFactor, hget, andThen]
  obtain ⟨q₁, hwhere⟩ := exists_checkAll .whereClause optWhere.toList hscope (by simp) fun e he =>
    accepted_of_wellTyped (h.typed e (Option.mem_toList.1 he))
  obtain ⟨q₂, hselect⟩ := exists_checkAll .select (refs.map .columnReference) (checked_all hscope hwhere).scope (by simp)
    fun e he => by
      obtain ⟨ref, href, rfl⟩ := mem_map.1 he
      obtain ⟨slot, hslot⟩ := Option.isSome_iff_exists.1 (h.resolved ref href)
      exact ⟨slot, Scope.finds_singleton hslot⟩
  refine ⟨q₂, andThen_eq_ok.2 ⟨_, hfrom, andThen_eq_ok.2 ⟨q₁, hwhere, andThen_eq_ok.2 ⟨q₁, rfl, ?_⟩⟩⟩⟩
  exact andThen_eq_ok.2 ⟨q₂, hselect, rfl⟩

/-! ## The plan -/

def storedRows (rows : TableRows) : List StoredRow := rows.toList.map fun r => ⟨r.2.record, r.2⟩

theorem storedAs_of_database (hs : s.Wf) (hclosed : s.opened rel.id = false) (hdb : s.databases rel.id = rows.database)
    (hfits : ∀ r ∈ rows.toList, Load.Fits rel r.2) : StoredAs s rel (storedRows rows) := by
  have hunmapped : s.handlerMap .iterator rel.id = none := by
    refine Option.eq_none_iff_forall_ne_some.2 fun h hmap => ?_
    simp [(hs.opened_iff rel.id).2 (.inr (.inr ⟨_, h, hmap⟩))] at hclosed
  refine ⟨?_, ?_, ?_⟩
  · simp [LevelStore.scanRecords, hunmapped, hdb, TableRows.database, Std.ExtTreeMap.toList_map, storedRows,
      Function.comp_def]
  all_goals
    rintro _ hmem
    obtain ⟨r, hr, rfl⟩ := mem_map.1 hmem
  · exact (hfits r hr).typed
  · exact RawTuple.holds_layout ((hfits r hr).size.trans_lt (by decide))

theorem exists_buildFrom (hq : q.Scoped [(table.name, rel)]) (hrel : q.catalog.getRelation table.tableName = some rel)
    (hdesc : q.allTupleDesc = []) (hs : q.storage.Wf) (hclosed : q.storage.opened rel.id = false)
    (hstored : StoredAs q.storage rel (storedRows rows)) :
    ∃ plan q', buildFrom [.tableReference table] q = .ok (some plan, q') ∧ Grows q q' ∧ q'.allTupleDesc = [rel.toDesc] ∧
      plan.Opens q'.storage 1 (fun row tr => [some (Cells.ofBytes row.record)] <+: tr) (rows.toList.map Prod.snd) := by
  have hids : ([(table.name, rel)].map fun t => t.2.id).Nodup := by simp
  have hopen : q.storage.Openable .iterator rel.id := hs.openable_iff.2 (.inr hclosed)
  obtain ⟨plan, hs, q', hbuild, ho, -, hchained⟩ : Built q _ [storedRows rows] 1 [] (.tableReference table) :=
    Built.scan hq hids (.cons hstored .nil) hs hdesc rfl hrel hopen
  obtain ⟨rel', iter, storage, relation, -, -, hrelation, -, rfl⟩ := buildTableScan_eq_ok hbuild
  have hmem := (hq.relation _ _).1 hrelation
  obtain rfl : relation = rel := (Prod.mk.inj (mem_singleton.1 hmem)).2
  refine ⟨plan, _, by simp only [buildFrom, hbuild]; rfl, ho.grows, by simp [hdesc], ?_⟩
  have hrows : (Scope.joined [(table.name, relation)] [] ([storedRows rows].take 1)).map tuplesOf =
      (rows.toList.map Prod.snd).map fun row => [Cells.ofBytes row.record] := by
    simp [Scope.joined, storedRows, tuplesOf, StoredRow.tuple]
  rw [hrows] at hchained
  exact hchained.plan_opens le_rfl

theorem shows_record {row : Row} (hfits : Load.Fits rel row) {tr : TupleRow} (htr : [some (Cells.ofBytes row.record)] <+: tr)
    (name : Bytes) : Scope.Shows [(name, rel)] tr [row] := by
  have hzero : ∀ {k : Nat} {values : Row}, [row][k]? = some values → k = 0 ∧ values = row := by
    intro k values hk
    obtain ⟨hlt, rfl⟩ := List.getElem?_eq_some_iff.1 hk
    exact ⟨by simpa using hlt, by simp⟩
  constructor
  · intro k values hk
    obtain ⟨rfl, rfl⟩ := hzero hk
    exact ⟨name, rel, rfl, hfits.typed⟩
  · intro k values hk
    obtain ⟨rfl, rfl⟩ := hzero hk
    have htuples : [Cells.ofBytes values.record].map some <+: tr := htr
    refine ⟨_, TupleRow.getTuple_of_isPrefix htuples rfl, ?_⟩
    exact RawTuple.holds_layout (hfits.size.trans_lt (by decide))

theorem resolve_singleton {t : Bytes × Relation} {ref : ColumnReference} {slot : SlotReference}
    (h : Scope.resolve [t] ref = some slot) : slot.tupleIndex = 0 ∧
      ∃ a, t.2.getAttributeIndex ref.columnName = some slot.slotIndex ∧ t.2.attributes[slot.slotIndex]? = some a ∧
        slot.dataType = a.dataType := by
  obtain ⟨name, rel, a, hmeans⟩ := Scope.means_of_resolve h
  obtain ⟨hlt, heq⟩ := List.getElem?_eq_some_iff.1 hmeans.table
  have hzero : slot.tupleIndex = 0 := by simpa using hlt
  obtain rfl : t = (name, rel) := by simpa using heq
  exact ⟨hzero, a, hmeans.index, hmeans.column, hmeans.dataType⟩

theorem exists_buildWhere (hq : q.Scoped [(table.name, rel)]) (h : SelectsFrom (table.name, rel) refs optWhere)
    (hbound : ∀ e ∈ optWhere, ∀ ref ∈ e.columns, ∃ slot, q.name2slot ref = some slot)
    (hfits : ∀ r ∈ rows.toList, Load.Fits rel r.2) {plan : Plan}
    (hplan : plan.Opens s 1 (fun row tr => [some (Cells.ofBytes row.record)] <+: tr) (rows.toList.map Prod.snd)) :
    ∃ top, buildWhere optWhere.toList plan q = .ok (some top) ∧
      top.Opens s 1 (fun row tr => [some (Cells.ofBytes row.record)] <+: tr) (matching (table.name, rel) optWhere rows) := by
  cases optWhere with
  | none => exact ⟨plan, rfl, by simpa [matching] using hplan⟩
  | some e =>
    obtain ⟨b, hb, hvalue⟩ := buildBooleanExpression_scoped hq (h.typed e rfl) (hbound e rfl)
    refine ⟨.select plan b, by simp [buildWhere, buildSelect, hb], ?_⟩
    refine hplan.select fun row hrow tr htr => ?_
    obtain ⟨r, hr, rfl⟩ := mem_map.1 hrow
    refine hvalue tr [r.2] (shows_record (hfits r hr) htr table.name) fun ref _ slot hslot => ?_
    simp [(resolve_singleton hslot).1]

/-! ## The select list -/

def slotOf (t : Bytes × Relation) (ref : ColumnReference) : SlotReference := (Scope.resolve [t] ref).getD ⟨0, 0, .invalid⟩

def descOf (t : Bytes × Relation) (ref : ColumnReference) : ColumnDesc :=
  (t.2.toDesc[(slotOf t ref).slotIndex]?).getD ⟨[], .invalid, 0, 0, none⟩

structure Target (t : Bytes × Relation) (ref : ColumnReference) : Prop where
  resolve : Scope.resolve [t] ref = some (slotOf t ref)
  tupleIndex : (slotOf t ref).tupleIndex = 0
  index : t.2.getAttributeIndex ref.columnName = some (slotOf t ref).slotIndex
  desc : t.2.toDesc[(slotOf t ref).slotIndex]? = some (descOf t ref)
  dataType : (descOf t ref).dataType = (slotOf t ref).dataType
  columnName : (descOf t ref).columnName = ref.columnName

theorem target_of_resolved {t : Bytes × Relation} {ref : ColumnReference} (h : (Scope.resolve [t] ref).isSome) :
    Target t ref := by
  obtain ⟨slot, hslot⟩ := Option.isSome_iff_exists.1 h
  obtain ⟨hzero, a, hindex, hcolumn, htype⟩ := resolve_singleton hslot
  have hslotOf : slotOf t ref = slot := by rw [slotOf, hslot, Option.getD_some]
  have hdesc : t.2.toDesc[slot.slotIndex]? = some (Relation.columnDesc a) := by
    rw [Relation.getElem?_toDesc, hcolumn, Option.map_some]
  have hdescOf : descOf t ref = Relation.columnDesc a := by rw [descOf, hslotOf, hdesc, Option.getD_some]
  obtain ⟨hlt, hname, -⟩ := findIdx?_eq_some_iff_getElem.1 hindex
  obtain ⟨hlt', rfl⟩ := List.getElem?_eq_some_iff.1 hcolumn
  exact ⟨hslotOf ▸ hslot, hslotOf ▸ hzero, hslotOf ▸ hindex, hslotOf ▸ hdescOf ▸ hdesc, by rw [hdescOf, hslotOf, htype]; rfl,
    by rw [hdescOf]; simpa [Relation.columnDesc] using hname⟩

section Project

variable {t : Bytes × Relation} {row : Row} {tr : TupleRow} (hfits : Load.Fits t.2 row)
include hfits

theorem Target.getValue {ref : ColumnReference} (h : Target t ref) (htr : [some (Cells.ofBytes row.record)] <+: tr) :
    row[(slotOf t ref).slotIndex]? = some (column t row ref) ∧ (column t row ref).dataType = (slotOf t ref).dataType ∧
      ∃ p, (slotOf t ref).getValue tr = .ok p ∧ p.Shows (column t row ref) := by
  obtain ⟨v, p, henv, htype, hp, hshows⟩ :=
    slot_getValue (shows_record hfits htr t.1) h.resolve (by simp [h.tupleIndex])
  have hcolumn : column t row ref = v := by
    have henv' : Scope.env [t] [row] ref = some v := henv
    rw [column, henv', Option.getD_some]
  have hrow : Scope.env [t] [row] ref = row[(slotOf t ref).slotIndex]? := by
    simp [Scope.env, h.resolve, h.tupleIndex]
  rw [hcolumn]
  exact ⟨hrow.symm.trans henv, htype, p, hp, hshows⟩

theorem length_layout_targets (htargets : ∀ ref ∈ refs, Target t ref)
    (hdistinct : (refs.map ColumnReference.columnName).Nodup) :
    (RawTuple.layout ((refs.map (column t row)).map Value.bytes)).length ≤ pageSize := by
  have hcolumn : ∀ ref ∈ refs, row[(slotOf t ref).slotIndex]? = some (column t row ref) := by
    intro ref href
    exact ((htargets ref href).getValue hfits (prefix_refl _)).1
  let f := fun j : Nat => ((row[j]?).map Value.bytes).getD []
  have hrefs : (refs.map (column t row)).map Value.bytes = (refs.map fun ref => (slotOf t ref).slotIndex).map f := by
    rw [map_map, map_map]
    refine map_congr_left fun ref href => ?_
    simp only [Function.comp_apply, f, hcolumn ref href, Option.map_some, Option.getD_some]
  have hrow : row.map Value.bytes = (List.range row.length).map f := by
    refine ext_getElem (by simp) fun j hj _ => ?_
    have hlt : j < row.length := by simpa using hj
    simp [f, hlt]
  -- different names are found at different positions
  have hnodup : (refs.map fun ref => (slotOf t ref).slotIndex).Nodup := by
    refine List.Nodup.map_on ?_ (List.Nodup.of_map _ hdistinct)
    intro ref href ref' href' heq
    have hname : ref.columnName = ref'.columnName := by
      rw [← (htargets ref href).columnName, ← (htargets ref' href').columnName, descOf, descOf, heq]
    exact inj_on_of_nodup_map hdistinct href href' hname
  have hsubset : (refs.map fun ref => (slotOf t ref).slotIndex) ⊆ List.range row.length := by
    intro j hj
    obtain ⟨ref, href, rfl⟩ := mem_map.1 hj
    exact mem_range.2 (List.getElem?_eq_some_iff.1 (hcolumn ref href)).1
  calc (RawTuple.layout ((refs.map (column t row)).map Value.bytes)).length
      ≤ (RawTuple.layout (row.map Value.bytes)).length := by
        rw [hrefs, hrow]
        exact RawTuple.length_layout_map_le hnodup hsubset
    _ ≤ pageSize := hfits.size

theorem projected_targets (htargets : ∀ ref ∈ refs, Target t ref) (hdistinct : (refs.map ColumnReference.columnName).Nodup)
    (htr : [some (Cells.ofBytes row.record)] <+: tr) :
    Project.projected (refs.map fun ref => .slotReference (slotOf t ref)) tr =
      .ok (Cells.ofBytes (RawTuple.layout ((refs.map (column t row)).map Value.bytes))) := by
  let val : SlotReference → Bytes := fun slot => ((row[slot.slotIndex]?).map Value.bytes).getD []
  have hval : ∀ ref ∈ refs, val (slotOf t ref) = (column t row ref).bytes := by
    intro ref href
    obtain ⟨hrow, -⟩ := (htargets ref href).getValue hfits htr
    simp only [val, hrow, Option.map_some, Option.getD_some]
  have hreads : Project.Reads tr (Project.slotValues val) (refs.map fun ref => .slotReference (slotOf t ref)) := by
    intro e he
    obtain ⟨ref, href, rfl⟩ := mem_map.1 he
    obtain ⟨-, -, p, hp, hshows⟩ := (htargets ref href).getValue hfits htr
    refine ⟨p, hp, ?_⟩
    rw [Project.slotValues, hval ref href]
    exact ⟨hshows.1, hshows.bytes⟩
  have hvalues : (refs.map fun ref => ValueExpr.slotReference (slotOf t ref)).map (Project.slotValues val) =
      (refs.map (column t row)).map Value.bytes := by
    rw [map_map, map_map]
    exact map_congr_left hval
  have hlen := length_layout_targets hfits htargets hdistinct
  rw [Project.projected_eq hreads, hvalues]
  rw [hvalues]
  exact hlen.trans_lt (by decide)

theorem sendRowData_targets (htargets : ∀ ref ∈ refs, Target t ref) (hdistinct : (refs.map ColumnReference.columnName).Nodup) :
    Session.sendRowData [some (Cells.ofBytes (RawTuple.layout ((refs.map (column t row)).map Value.bytes)))]
      (refs.map (descOf t)) = .ok (dataRow (fields t refs row)) := by
  have hlen := length_layout_targets hfits htargets hdistinct
  have hcount : (refs.map (column t row)).length < 65536 := by
    rw [RawTuple.length_layout, length_map, sizeofSlot] at hlen
    have hpage : pageSize = 8192 := rfl
    omega
  have htypes : (refs.map (column t row)).map Value.dataType = (refs.map (descOf t)).map ColumnDesc.dataType := by
    rw [map_map, map_map]
    refine map_congr_left fun ref href => ?_
    obtain ⟨-, htype, -⟩ := (htargets ref href).getValue hfits (prefix_refl _)
    exact htype.trans (htargets ref href).dataType.symm
  rw [Session.sendRowData_eq rfl (RawTuple.holds_layout (hlen.trans_lt (by decide))) htypes hcount, map_map]
  rfl

end Project

/-! ## The answer -/

/-- The statement runs and sends these rows, one DataRow for each, behind a description of its columns,
and its message says how many there are. -/
def Answers (catalog : Catalog) (s : LevelStore) (stmt : SelectStmt) (columns : List Bytes) (answer : List (List Bytes)) :
    Prop :=
  ∃ q₁ q₂ desc, check stmt (new catalog s) = .ok (.ok, q₁) ∧ build stmt q₁ = .ok (.ok, q₂) ∧
    desc.map ColumnDesc.columnName = columns ∧
    ∃ N, ∀ fuel ≥ N, ∃ q₃, q₂.execSelect (Plan.executor fuel) fuel = .ok (.ok, q₃) ∧
      q₃.sent = .rowDescription desc :: answer.map (fun fields => .dataRow (dataRow fields)) ∧
      q₃.message = ascii "SELECT " ++ decimal answer.length ++ ascii " rows.\n"

section Found

variable (hrel : catalog.getRelation table.tableName = some rel)

include hrel

theorem select_eq (h : SelectsFrom (table.name, rel) refs optWhere)
    (hs : s.Wf) (hclosed : s.opened rel.id = false) (hdb : s.databases rel.id = rows.database)
    (hfits : ∀ r ∈ rows.toList, Load.Fits rel r.2) :
    ∃ q₁ q₂ desc, check (selectStmt refs table optWhere) (new catalog s) = .ok (.ok, q₁) ∧
      build (selectStmt refs table optWhere) q₁ = .ok (.ok, q₂) ∧
      desc.map ColumnDesc.columnName = refs.map ColumnReference.columnName ∧
      ∃ N, ∀ fuel ≥ N, ∃ q₃, q₂.execSelect (Plan.executor fuel) fuel = .ok (.ok, q₃) ∧
        q₃.sent = .rowDescription desc :: (matching (table.name, rel) optWhere rows).map
          (fun row => .dataRow (dataRow (fields (table.name, rel) refs row))) ∧
        q₃.message = selectMessage (Int32.ofNat (matching (table.name, rel) optWhere rows).length) := by
  obtain ⟨q₁, hcheck⟩ := exists_check_selectStmt hrel h s
  obtain ⟨tables, htables, -, hchecked⟩ := checked_of_check rfl (by simp [TableFactor.references]) hcheck
  obtain rfl : tables = [(table.name, rel)] := htables.unique (.cons ⟨rfl, hrel⟩ .nil)
  obtain ⟨rfl, rfl, hdesc, hprojection, houtput, hsent⟩ := hchecked.unbuilt
  obtain ⟨plan, q₂, hfrom, hgrows, hdescs, hplan⟩ :=
    exists_buildFrom hchecked.scope hrel hdesc hs hclosed (storedAs_of_database hs hclosed hdb hfits)
  have hslots : q₂.name2slot = q₁.name2slot := by rw [hgrows]
  have htargets : ∀ ref ∈ refs, Target (table.name, rel) ref := fun ref href => target_of_resolved (h.resolved ref href)
  obtain ⟨top, hwhere, htop⟩ := exists_buildWhere (hchecked.scope.grows hgrows) h (fun e he ref href => by
    rw [hslots]
    refine hchecked.bound ref (mem_append_right _ (mem_append_left _ ?_))
    exact mem_flatMap.2 ⟨e, by simpa [selectStmt] using he, href⟩) hfits hplan
  have hproject := projectTargets_eq (q := q₂) refs (slotOf (table.name, rel)) (descOf (table.name, rel)) fun ref href => by
      have htarget := htargets ref href
      obtain ⟨slot, hslot⟩ := hchecked.bound ref (by simp [selectStmt, ExpressionBase.columns, href])
      have hresolve := hchecked.scope.slot ref slot hslot
      obtain rfl := Option.some.inj (hresolve.symm.trans htarget.resolve)
      exact ⟨hslots ▸ hslot, rel.toDesc, by simp [hdescs, htarget.tupleIndex], htarget.desc⟩
  have hempty : q₂.projectionList = [] ∧ q₂.outputRowDesc = [] ∧ q₂.sent = [] ∧ q₂.name2relation.size = 1 := by
    rw [hgrows]
    exact ⟨hprojection, houtput, hsent, hchecked.scope.relationSize⟩
  obtain ⟨hprojection₂, houtput₂, hsent₂, hsize⟩ := hempty
  rw [hprojection₂, houtput₂, nil_append, nil_append] at hproject
  let g := fun row : Row => Cells.ofBytes (RawTuple.layout ((refs.map (column (table.name, rel) row)).map Value.bytes))
  have hopens := htop.project (g := g) fun row hrow tr htr => by
    obtain ⟨r, hr, rfl⟩ := mem_map.1 (mem_of_mem_filter hrow)
    exact projected_targets (hfits r hr) htargets h.distinct htr
  let q₃ := { q₂ with
    projectionList := refs.map fun ref => .slotReference (slotOf (table.name, rel) ref)
    outputRowDesc := refs.map (descOf (table.name, rel))
    topExec := some (.project top (refs.map fun ref => .slotReference (slotOf (table.name, rel) ref)) 1) }
  refine ⟨q₁, q₃, refs.map (descOf (table.name, rel)), hcheck, ?_, ?_, ?_⟩
  · simp [build, selectStmt, hfrom, hwhere, buildProjection, hproject, h.nonempty, hsize, q₃]
  · rw [map_map]
    exact map_congr_left fun ref href => (htargets ref href).columnName
  · have hexec := hopens.execSelect (q := q₃) (fun row => dataRow (fields (table.name, rel) refs row)) rfl ?_
    · obtain ⟨N, hN⟩ := hexec
      refine ⟨N, fun fuel hfuel => ?_⟩
      obtain ⟨storage, hq⟩ := hN fuel hfuel
      exact ⟨_, hq, by simp [q₃, hsent₂], rfl⟩
    · rintro row hrow _ rfl
      obtain ⟨r, hr, rfl⟩ := mem_map.1 (mem_of_mem_filter hrow)
      exact sendRowData_targets (hfits r hr) htargets h.distinct

/-- The answer is right exactly if the count fits the `int`. -/
theorem answers_iff (h : SelectsFrom (table.name, rel) refs optWhere) (hs : s.Wf) (hclosed : s.opened rel.id = false)
    (hdb : s.databases rel.id = rows.database) (hfits : ∀ r ∈ rows.toList, Load.Fits rel r.2) :
    Answers catalog s (selectStmt refs table optWhere) (refs.map ColumnReference.columnName)
        ((matching (table.name, rel) optWhere rows).map (fields (table.name, rel) refs)) ↔
      (matching (table.name, rel) optWhere rows).length < 2 ^ 31 := by
  obtain ⟨q₁, q₂, desc, hcheck, hbuild, hdesc, N, hN⟩ := select_eq hrel h hs hclosed hdb hfits
  rw [← selectMessage_eq_iff]
  constructor
  · rintro ⟨q₁', q₂', desc', hcheck', hbuild', -, N', hN'⟩
    obtain rfl := (Prod.mk.inj (Except.ok.inj (hcheck.symm.trans hcheck'))).2
    obtain rfl := (Prod.mk.inj (Except.ok.inj (hbuild.symm.trans hbuild'))).2
    obtain ⟨fuel, ⟨q₃, hexec, -, hmessage⟩, q₃', hexec', -, hmessage'⟩ := Res.exists_fuel ⟨N, hN⟩ ⟨N', hN'⟩
    obtain rfl := (Prod.mk.inj (Except.ok.inj (hexec.symm.trans hexec'))).2
    rw [← hmessage, hmessage', length_map]
  · intro hmessage
    refine ⟨q₁, q₂, desc, hcheck, hbuild, hdesc, N, fun fuel hfuel => ?_⟩
    obtain ⟨q₃, hexec, hsent, hmessage'⟩ := hN fuel hfuel
    exact ⟨q₃, hexec, by rw [hsent, map_map]; rfl, by rw [hmessage', hmessage, length_map]⟩

theorem loaded {files : List (List (Bytes × Row))}
    (h : SelectsFrom (table.name, rel) refs optWhere) (hs : s.Wf) (hclosed : s.opened rel.id = false)
    (hempty : s.databases rel.id = ∅) (hfiles : ∀ file ∈ files, ∀ r ∈ file, Load.Fits rel r.2) :
    ∃ s', Load.runAll catalog table.tableName (files.map fun file => file.map Load.line) s = .ok s' ∧ s'.Wf ∧
      s'.opened rel.id = false ∧ s'.databases rel.id = (TableRows.insertAll ∅ files.flatten).database ∧
      ∀ r ∈ (TableRows.insertAll ∅ files.flatten).toList, Load.Fits rel r.2 := by
  have hcolumns : rel.attributes ≠ [] := by
    obtain ⟨ref, href⟩ := exists_mem_of_ne_nil _ h.nonempty
    have hindex := (target_of_resolved (h.resolved ref href)).index
    rintro hnil
    simp [Relation.getAttributeIndex, hnil] at hindex
  have hdb : s.databases rel.id = TableRows.database ∅ := hempty.trans (by rfl)
  obtain ⟨s', hruns, hs', hclosed', hdb'⟩ := Load.runAll_tableRows hrel hcolumns hfiles hs hclosed hdb
  refine ⟨s', hruns, hs', hclosed', hdb', TableRows.forall_insertAll (by simp) fun r hr => ?_⟩
  obtain ⟨file, hfile, hr⟩ := mem_flatten.1 hr
  exact hfiles file hfile r hr

end Found

/-- A SELECT over a table that loads have filled. -/
theorem select_after_loads_iff {files : List (List (Bytes × Row))} (hrel : catalog.getRelation table.tableName = some rel)
    (h : SelectsFrom (table.name, rel) refs optWhere) (hs : s.Wf) (hclosed : s.opened rel.id = false)
    (hempty : s.databases rel.id = ∅) (hfiles : ∀ file ∈ files, ∀ r ∈ file, Load.Fits rel r.2) :
    ∃ s', Load.runAll catalog table.tableName (files.map fun file => file.map Load.line) s = .ok s' ∧
      (Answers catalog s' (selectStmt refs table optWhere) (refs.map ColumnReference.columnName)
          ((matching (table.name, rel) optWhere (TableRows.insertAll ∅ files.flatten)).map (fields (table.name, rel) refs)) ↔
        (matching (table.name, rel) optWhere (TableRows.insertAll ∅ files.flatten)).length < 2 ^ 31) := by
  obtain ⟨s', hruns, hs', hclosed', hdb, hfits⟩ := loaded hrel h hs hclosed hempty hfiles
  exact ⟨s', hruns, answers_iff hrel h hs' hclosed' hdb hfits⟩

end Select

/-! ## `SELECT a FROM t` -/

def refA : ColumnReference := ⟨0, [], ascii "a"⟩

theorem selectsFrom_t : SelectsFrom (refT.name, tableT) [refA] none where
  nonempty := by simp
  resolved := by
    intro ref href
    obtain rfl := mem_singleton.1 href
    decide
  distinct := by simp
  typed := by simp

theorem fits_integer (i : Int64) : Load.Fits tableT [.integer i] where
  typed := rfl
  size := by simp [Row.record, RawTuple.length_layout, Value.bytes, sizeofSlot, pageSize]

theorem select_after_load_of_five : ∃ s',
    Load.runAll catalogTU (ascii "t") [[Load.line (ascii "k", [.integer 5])]] (LevelStore.started fun _ => ∅) = .ok s' ∧
    Answers catalogTU s' (selectStmt [refA] refT none) [ascii "a"] [[ascii "5"]] := by
  have hfiles : ∀ file ∈ [[(ascii "k", ([.integer 5] : Row))]], ∀ r ∈ file, Load.Fits tableT r.2 := by
    simp [fits_integer]
  have hrel : catalogTU.getRelation refT.tableName = some tableT := by rfl
  obtain ⟨s', hruns, hiff⟩ := select_after_loads_iff hrel selectsFrom_t
    (LevelStore.wf_started fun _ => ∅) (by rfl) (by rfl) hfiles
  exact ⟨s', hruns, hiff.2 (by decide)⟩

def manyRows (n : Nat) : List (Bytes × Row) := (List.range n).map fun i : Nat => (decimal i, [.integer 0])

theorem length_matching_manyRows (n : Nat) :
    (matching (refT.name, tableT) none (TableRows.insertAll ∅ (manyRows n))).length = n := by
  have hkeys : ((manyRows n).map Prod.fst).Nodup := by
    rw [manyRows, map_map]
    exact nodup_range.map fun i j h => Int.ofNat_inj.1 (decimal_injective h)
  have hsize := TableRows.size_insertAll ∅ hkeys (by simp)
  simpa [matching, manyRows] using hsize

theorem not_answers_many : ∃ s',
    Load.runAll catalogTU (ascii "t") [(manyRows (2 ^ 31)).map Load.line] (LevelStore.started fun _ => ∅) = .ok s' ∧
    ¬ Answers catalogTU s' (selectStmt [refA] refT none) [ascii "a"]
      ((matching (refT.name, tableT) none (TableRows.insertAll ∅ (manyRows (2 ^ 31)))).map
        (fields (refT.name, tableT) [refA])) := by
  generalize hn : 2 ^ 31 = n
  have hfiles : ∀ file ∈ [manyRows n], ∀ r ∈ file, Load.Fits tableT r.2 := by
    intro file hfile r hr
    obtain rfl := mem_singleton.1 hfile
    obtain ⟨i, -, rfl⟩ := mem_map.1 hr
    exact fits_integer 0
  have hrel : catalogTU.getRelation refT.tableName = some tableT := by rfl
  obtain ⟨s', hruns, hs', hclosed, hdb, hfits⟩ :=
    loaded hrel selectsFrom_t (LevelStore.wf_started fun _ => ∅) (by rfl) (by rfl) hfiles
  have hiff := answers_iff hrel selectsFrom_t hs' hclosed hdb hfits
  rw [flatten_singleton, length_matching_manyRows, hn] at hiff
  exact ⟨s', hruns, fun h => Nat.lt_irrefl n (hiff.1 h)⟩

end QueryRealizer

end Dbms18
