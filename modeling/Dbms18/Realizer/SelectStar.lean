import Dbms18.Lib.Lists
import Dbms18.Realizer.Soundness
import Mathlib.Data.List.Sort

/-!
# The order of the columns of `SELECT *`

`BuildProjection` takes the tables in the order of `name2relation_`, which is that of their names, and the
slots from the indexes that the attributes were stored with. The tables of the FROM clause are numbered from
left to right and their descriptions have the attributes by position, so the columns come in the order of the
query only where the two orders agree.
-/

namespace Dbms18

open List

/-- The attributes were stored with their positions. -/
def Relation.Positioned (r : Relation) : Prop :=
  r.attributes.map (·.attributeIndex.toNat) = List.range r.attributes.length

instance (r : Relation) : Decidable r.Positioned := inferInstanceAs (Decidable (_ = _))

namespace Scope

variable {tables : Scope}

/-- Every attribute of every table, the tables from left to right and the attributes by position. -/
def columnSlots (tables : Scope) : List SlotReference :=
  tables.zipIdx.flatMap fun t => (List.range t.1.2.attributes.length).map fun j => { tupleIndex := t.2, slotIndex := j }

/-- The tables that have columns come in the order of their names. -/
def NameOrdered (tables : Scope) : Prop :=
  (tables.filter fun t => !t.2.attributes.isEmpty).Pairwise fun t u => compare t.1 u.1 = .lt

instance (tables : Scope) : Decidable tables.NameOrdered := inferInstanceAs (Decidable (List.Pairwise _ _))

theorem forall₂_columnSlots {β : Type} {P : SlotReference → β → Prop} {blocks : List (List β)}
    (hlength : blocks.length = tables.length)
    (h : ∀ (i : Nat) (t : Bytes × Relation) (block : List β), tables[i]? = some t → blocks[i]? = some block →
      block.length = t.2.attributes.length ∧
        ∀ (j : Nat) (x : β), block[j]? = some x → P { tupleIndex := i, slotIndex := j } x) :
    List.Forall₂ P tables.columnSlots blocks.flatten := by
  have hblocks : List.Forall₂ (fun (t : (Bytes × Relation) × Nat) block =>
      tables[t.2]? = some t.1 ∧ blocks[t.2]? = some block) tables.zipIdx blocks := by
    refine forall₂_iff_get.2 ⟨by simp [hlength], fun i hi hi' => ?_⟩
    simp
  rw [← flatMap_id]
  refine rel_flatMap hblocks fun ⟨t, i⟩ block ⟨ht, hblock⟩ => ?_
  obtain ⟨hlen, hP⟩ := h i t block ht hblock
  refine forall₂_map_left_iff.2 (forall₂_iff_get.2 ⟨by simp [hlen], fun j hj hj' => ?_⟩)
  simpa using hP j _ (getElem?_eq_getElem hj')

end Scope

namespace QueryRealizer

variable {q q' : QueryRealizer} {tables : Scope} {catalog : Catalog} {storage : LevelStore} {stmt : SelectStmt}
  {factor : TableFactor}

/-! ## The two orders -/

def tableColumns (q : QueryRealizer) (t : Bytes × Relation) : List SlotReference :=
  (List.range t.2.attributes.length).map fun j => { tupleIndex := q.name2tupleIndex[t.1]?.getD 0, slotIndex := j }

def storedColumns (q : QueryRealizer) (t : Bytes × Relation) : List SlotReference :=
  t.2.attributes.map fun a => { tupleIndex := q.name2tupleIndex[t.1]?.getD 0, slotIndex := a.attributeIndex.toNat }

theorem storedColumns_eq_iff (q : QueryRealizer) (t : Bytes × Relation) :
    q.storedColumns t = q.tableColumns t ↔ t.2.Positioned := by
  have hinj : Function.Injective fun j => ({ tupleIndex := q.name2tupleIndex[t.1]?.getD 0, slotIndex := j } : SlotReference) :=
    fun j j' h => (SlotReference.mk.inj h).2.1
  rw [Relation.Positioned, ← (map_injective_iff.2 hinj).eq_iff, map_map]
  rfl

theorem Scoped.mem_toList (hq : q.Scoped tables) {t : Bytes × Relation} : t ∈ q.name2relation.toList ↔ t ∈ tables := by
  rw [Std.ExtTreeMap.mem_toList_iff_getElem?_eq_some, hq.relation]

theorem Scoped.columnSlots_eq (hq : q.Scoped tables) : tables.columnSlots = tables.flatMap q.tableColumns := by
  conv_rhs => rw [← zipIdx_map_fst 0 tables, flatMap_map]
  refine flatMap_congr fun ⟨⟨name, rel⟩, i⟩ ht => ?_
  have hi := mem_zipIdx_iff_getElem?.1 ht
  rw [tableColumns, hq.getElem?_iff.2 ⟨rel, hi⟩]
  rfl

theorem Scoped.eq_of_index (hq : q.Scoped tables) {t u : Bytes × Relation} (ht : t ∈ tables) (hu : u ∈ tables)
    (h : q.name2tupleIndex[t.1]?.getD 0 = q.name2tupleIndex[u.1]?.getD 0) : t = u := by
  obtain ⟨i, hi⟩ := mem_iff_getElem?.1 ht
  obtain ⟨j, hj⟩ := mem_iff_getElem?.1 hu
  rw [hq.getElem?_iff.2 ⟨t.2, hi⟩, hq.getElem?_iff.2 ⟨u.2, hj⟩] at h
  obtain rfl : i = j := h
  exact Option.some.inj (hi.symm.trans hj)

theorem Scoped.filter_toList_eq_iff (hq : q.Scoped tables) :
    (q.name2relation.toList.filter fun t => !t.2.attributes.isEmpty) = tables.filter (fun t => !t.2.attributes.isEmpty) ↔
      tables.NameOrdered := by
  have hordered : (q.name2relation.toList.filter fun t => !t.2.attributes.isEmpty).Pairwise
      fun t u => compare t.1 u.1 = .lt :=
    Std.ExtTreeMap.ordered_keys_toList.filter _
  refine ⟨fun h => ?_, fun h => ?_⟩
  · rw [h] at hordered
    exact hordered
  have hirrefl : Std.Irrefl fun t u : Bytes × Relation => compare t.1 u.1 = .lt :=
    ⟨fun t ht => by simp [Std.ReflCmp.compare_self] at ht⟩
  have hasymm : Std.Antisymm fun t u : Bytes × Relation => compare t.1 u.1 = .lt :=
    ⟨fun t u htu hut => absurd hut (Std.OrientedCmp.not_lt_of_lt htu)⟩
  refine List.Pairwise.eq_of_mem_iff hordered h fun t => ?_
  rw [mem_filter, mem_filter, hq.mem_toList]

theorem Scoped.starColumns_eq_iff (hq : q.Scoped tables) :
    q.starColumns = tables.columnSlots ↔ tables.NameOrdered ∧ ∀ t ∈ tables, t.2.Positioned := by
  -- tables without columns have no place in either list
  have hstar : q.starColumns = (q.name2relation.toList.filter fun t => !t.2.attributes.isEmpty).flatMap q.storedColumns := by
    rw [flatMap_filter_of_eq_nil fun t ht => by simp_all [storedColumns]]
    rfl
  have hcolumns : tables.columnSlots = (tables.filter fun t => !t.2.attributes.isEmpty).flatMap q.tableColumns := by
    rw [flatMap_filter_of_eq_nil fun t ht => by simp_all [tableColumns], hq.columnSlots_eq]
  rw [hstar, hcolumns, ← hq.filter_toList_eq_iff]
  constructor
  · intro h
    have hne : ∀ {l : List (Bytes × Relation)}, ∀ t ∈ l.filter fun t => !t.2.attributes.isEmpty, t.2.attributes ≠ [] := by
      intro l t ht
      simpa using (mem_filter.1 ht).2
    obtain ⟨horder, hall⟩ := eq_of_flatMap_eq SlotReference.tupleIndex (fun t => q.name2tupleIndex[t.1]?.getD 0)
      (fun t ht u hu heq => hq.eq_of_index (hq.mem_toList.1 (mem_of_mem_filter ht)) (mem_of_mem_filter hu) heq)
      (fun t ht => ⟨by simp [storedColumns, hne t ht], by simp [storedColumns]⟩)
      (fun t ht => ⟨by simp [tableColumns, hne t ht], by simp [tableColumns]⟩)
      (fun t _ => by simp [storedColumns, tableColumns]) h
    refine ⟨horder, fun t ht => (q.storedColumns_eq_iff t).1 ?_⟩
    by_cases hempty : t.2.attributes = []
    · simp [storedColumns, tableColumns, hempty]
    · exact hall t (mem_filter.2 ⟨hq.mem_toList.2 ht, by simp [hempty]⟩)
  · rintro ⟨horder, hall⟩
    rw [horder]
    exact flatMap_congr fun t ht => (q.storedColumns_eq_iff t).2 (hall t (mem_of_mem_filter ht))

/-! ## What `Build` makes of it -/

/-- Column `k` of what is sent is described as column `k` of the tables in the order of the query, and has
its value in every row. -/
structure StarOrdered (tables : Scope) (entries : List ValueExpr) (desc : RowDesc) : Prop where
  columns : entries = tables.columnSlots.map .slotReference
  descs : desc = tables.flatMap fun t => t.2.toDesc
  values : ∀ row rows, tables.Shows row rows → rows.length = tables.length →
    List.Forall₂ (fun entry v => ∃ p, ValueExpr.getValue entry row = .ok p ∧ p.Shows v) entries rows.flatten

theorem held_columnSlots : ∀ slot ∈ tables.columnSlots, slot.Held (Scope.descs tables) := by
  intro slot hslot
  obtain ⟨⟨t, i⟩, ht, hslot⟩ := mem_flatMap.1 hslot
  obtain ⟨j, hj, rfl⟩ := mem_map.1 hslot
  refine ⟨t.2.toDesc, ?_, ?_⟩
  · simp [Scope.descs, mem_zipIdx_iff_getElem?.1 ht]
  · simpa [Relation.toDesc] using hj

theorem denotes_columnSlots :
    List.Forall₂ (Denotes tables) (tables.columnSlots.map .slotReference) (tables.flatMap fun t => t.2.toDesc) := by
  rw [forall₂_map_left_iff, flatMap_def]
  refine Scope.forall₂_columnSlots (by simp) fun i t block ht hblock => ?_
  obtain rfl : t.2.toDesc = block := by simpa [ht] using hblock
  refine ⟨by simp [Relation.toDesc], fun j desc hdesc => ?_⟩
  exact ⟨_, t.1, t.2, rfl, ht, hdesc⟩

theorem Denotes.unique : Relator.RightUnique (Denotes tables) := by
  rintro entry desc desc' ⟨slot, name, rel, rfl, htable, hdesc⟩ ⟨slot', name', rel', heq, htable', hdesc'⟩
  obtain rfl := ValueExpr.slotReference.inj heq
  obtain ⟨-, rfl⟩ := Prod.mk.inj (Option.some.inj (htable.symm.trans htable'))
  exact Option.some.inj (hdesc.symm.trans hdesc')

theorem getValue_columnSlots {row : TupleRow} {rows : List Row} (hshows : tables.Shows row rows)
    (hlength : rows.length = tables.length) :
    List.Forall₂ (fun entry v => ∃ p, ValueExpr.getValue entry row = .ok p ∧ p.Shows v)
      (tables.columnSlots.map .slotReference) rows.flatten := by
  rw [forall₂_map_left_iff]
  refine Scope.forall₂_columnSlots hlength fun i t values ht hvalues => ?_
  obtain ⟨name, rel, ht', htyped⟩ := hshows.typed hvalues
  obtain rfl := Option.some.inj (ht.symm.trans ht')
  refine ⟨by simpa using congrArg List.length htyped, fun j v hv => ?_⟩
  obtain ⟨tuple, htuple, hholds⟩ := hshows.holds hvalues
  obtain ⟨offset, length, hoffset, hlen, hvlen, hread⟩ := hholds j v hv
  refine ⟨⟨tuple, offset.toNat, length.toNat⟩, ?_, hvlen, hread⟩
  simp [ValueExpr.getValue, SlotReference.getValue, htuple, hoffset, hlen]

theorem build_star {join top : Plan} (hfrom : stmt.tableReference = [factor]) (hstar : stmt.selectList = [])
    (hjoin : buildJoin factor q = .ok (join, q')) (hwhere : buildWhere stmt.optWhere join q' = .ok (some top)) :
    build stmt q = (fun q₁ : QueryRealizer =>
      (State.ok, { q₁ with topExec := some (.project top q₁.projectionList q₁.name2relation.size) })) <$> q'.projectStar := by
  simp [build, buildFrom, hfrom, hjoin, hwhere, hstar, buildProjection, projectTargets]
  rfl

/-- The statement is built, and the columns of its projection are in order. -/
def StarBuilt (stmt : SelectStmt) (q : QueryRealizer) (tables : Scope) : Prop :=
  ∃ q' top entries, build stmt q = .ok (.ok, q') ∧ q'.topExec = some (.project top entries tables.length) ∧
    StarOrdered tables entries q'.outputRowDesc

/-- `SELECT *` over one join tree of tables with distinct names, where `Check` accepts the statement and the
joins and the WHERE clause are built. -/
theorem starBuilt_iff {q₁ q₂ : QueryRealizer} {join top : Plan} (hfrom : stmt.tableReference = [factor])
    (hstar : stmt.selectList = []) (hnames : (factor.references.map TableReference.name).Nodup)
    (htables : TablesOf catalog factor.references tables) (hcheck : check stmt (new catalog storage) = .ok (.ok, q₁))
    (hjoin : buildJoin factor q₁ = .ok (join, q₂)) (hwhere : buildWhere stmt.optWhere join q₂ = .ok (some top)) :
    StarBuilt stmt q₁ tables ↔ tables.NameOrdered ∧ ∀ t ∈ tables, t.2.Positioned := by
  obtain ⟨tables', htables', -, hchecked⟩ := checked_of_check hfrom hnames hcheck
  obtain rfl := htables.unique htables'
  obtain ⟨-, hprojected, hgrows⟩ := joined_of_checked htables hchecked hjoin
  have hscope : q₂.Scoped tables := hchecked.scope.grows hgrows
  have hlist : q₂.projectionList = [] := by rw [hgrows, hchecked.unbuilt.projectionList]
  have hpushed := pushed_star q₂
  rw [StarBuilt, build_star hfrom hstar hjoin hwhere, ← hscope.starColumns_eq_iff]
  generalize hproject : q₂.projectStar = x at hpushed
  cases hpushed with
  | fault hheld =>
    refine ⟨nofun, fun heq => absurd ?_ hheld⟩
    rw [heq, hprojected.descs]
    exact held_columnSlots
  | @pushed q₃ hheld hprojects hcolumns =>
    obtain ⟨⟨-, hdescs⟩, -⟩ := projected_of_projectStar hprojected hproject
    rw [hlist, nil_append] at hcolumns
    have hsize : q₃.name2relation.size = tables.length := by
      rw [hprojects]
      exact hscope.relationSize
    constructor
    · rintro ⟨q', top', entries, hbuild, htop, hordered⟩
      obtain ⟨-, rfl⟩ := Prod.mk.inj (Except.ok.inj hbuild)
      obtain ⟨-, hentries, -⟩ := Plan.project.inj (Option.some.inj htop)
      rw [hcolumns, hordered.columns] at hentries
      exact map_injective_iff.2 (fun _ _ => ValueExpr.slotReference.inj) hentries
    · intro heq
      rw [heq] at hcolumns
      refine ⟨_, top, q₃.projectionList, rfl, by rw [hsize], hcolumns, ?_, fun row rows hshows hlength => ?_⟩
      · rw [hcolumns] at hdescs
        exact right_unique_forall₂' Denotes.unique hdescs denotes_columnSlots
      · rw [hcolumns]
        exact getValue_columnSlots hshows hlength

theorem starBuilt_iff_selectTU : ∃ q, check selectTU (new catalogTU (LevelStore.started fun _ => ∅)) = .ok (.ok, q) ∧
    StarBuilt selectTU q [(ascii "t", tableT), (ascii "u", tableU)] := by
  obtain ⟨q, join, q', hcheck, hjoin⟩ : ∃ q join q',
    check selectTU (new catalogTU (LevelStore.started fun _ => ∅)) = .ok (.ok, q) ∧
    buildJoin (.chain refT [(refU, equalAB)]) q = .ok (join, q') := ⟨_, _, _, rfl, rfl⟩
  have htables : TablesOf catalogTU (TableFactor.chain refT [(refU, equalAB)]).references
      [(ascii "t", tableT), (ascii "u", tableU)] := .cons ⟨rfl, rfl⟩ (.cons ⟨rfl, rfl⟩ .nil)
  exact ⟨q, hcheck, (starBuilt_iff rfl rfl (by decide) htables hcheck hjoin rfl).2 (by decide)⟩

/-- `SELECT * FROM u JOIN t ON a = u.b` -/
def selectUT : SelectStmt := ⟨[], [.chain refU [(refT, equalAB)]], [], [], []⟩

/-- The column of `t` comes before that of `u`, although `u` comes first in the query. -/
theorem not_starBuilt_selectUT : ∃ q q', check selectUT (new catalogTU (LevelStore.started fun _ => ∅)) = .ok (.ok, q) ∧
    build selectUT q = .ok (.ok, q') ∧
    q'.projectionList = [.slotReference { tupleIndex := 1, slotIndex := 0 },
      .slotReference { tupleIndex := 0, slotIndex := 0 }] ∧
    q'.outputRowDesc.map ColumnDesc.columnName = [ascii "a", ascii "b"] ∧
    ¬ StarBuilt selectUT q [(ascii "u", tableU), (ascii "t", tableT)] := by
  obtain ⟨q, q', hcheck, hbuild, hlist, hnames⟩ : ∃ q q',
    check selectUT (new catalogTU (LevelStore.started fun _ => ∅)) = .ok (.ok, q) ∧ build selectUT q = .ok (.ok, q') ∧
    q'.projectionList = [.slotReference { tupleIndex := 1, slotIndex := 0 },
      .slotReference { tupleIndex := 0, slotIndex := 0 }] ∧
    q'.outputRowDesc.map ColumnDesc.columnName = [ascii "a", ascii "b"] := ⟨_, _, rfl, rfl, rfl, rfl⟩
  refine ⟨q, q', hcheck, hbuild, hlist, hnames, ?_⟩
  rintro ⟨q'', top, entries, hbuild', -, hordered⟩
  obtain ⟨-, rfl⟩ := Prod.mk.inj (Except.ok.inj (hbuild.symm.trans hbuild'))
  rw [hordered.descs] at hnames
  exact absurd hnames (by decide)

end QueryRealizer

end Dbms18
