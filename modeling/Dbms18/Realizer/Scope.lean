import Dbms18.Lib.Index
import Dbms18.Realizer.QueryRealizer

/-!
# Name resolution in `Check`

The tables of a query in the order in which `Check` registers them form a `Scope`; a table's tuple
index is its position in it. `Scope.resolve` says which slot a column reference means: the first table
that has the column, among those with the name if the reference gives one. `Check` accepts a reference
only if that table is the only one, so tables that are registered later do not change what an accepted
reference means.
-/

namespace Dbms18

open List

abbrev Scope := List (Bytes × Relation)

namespace Scope

def slotIn (ref : ColumnReference) (table : (Bytes × Relation) × Nat) : Option SlotReference :=
  if ref.tableName ≠ [] ∧ ref.tableName ≠ table.1.1 then none
  else do
    let slotIndex ← table.1.2.getAttributeIndex ref.columnName
    let attr ← table.1.2.attributes[slotIndex]?
    return { tupleIndex := table.2, slotIndex, dataType := attr.dataType }

def resolve (tables : Scope) (ref : ColumnReference) : Option SlotReference :=
  tables.zipIdx.findSome? (slotIn ref)

variable {tables tables' : Scope} {ref : ColumnReference} {slot : SlotReference}

/-- The table, column and type that a resolved reference means. -/
structure Means (tables : Scope) (ref : ColumnReference) (slot : SlotReference) (name : Bytes)
    (rel : Relation) (a : Attribute) : Prop where
  table : tables[slot.tupleIndex]? = some (name, rel)
  named : ref.tableName = [] ∨ ref.tableName = name
  index : rel.getAttributeIndex ref.columnName = some slot.slotIndex
  column : rel.attributes[slot.slotIndex]? = some a
  dataType : slot.dataType = a.dataType

theorem slotIn_eq_some {name : Bytes} {rel : Relation} {i : Nat} :
    slotIn ref ((name, rel), i) = some slot ↔ i = slot.tupleIndex ∧
      (ref.tableName = [] ∨ ref.tableName = name) ∧ rel.getAttributeIndex ref.columnName = some slot.slotIndex ∧
      ∃ a, rel.attributes[slot.slotIndex]? = some a ∧ slot.dataType = a.dataType := by
  simp only [slotIn]
  split
  · next h => simp [h.1, h.2]
  · next h =>
    rw [← or_iff_not_and_not] at h
    simp only [h, true_and, Option.bind_eq_bind, Option.bind_eq_some_iff, Option.pure_def, Option.some_inj]
    constructor
    · rintro ⟨j, hj, a, ha, rfl⟩
      exact ⟨rfl, hj, a, ha, rfl⟩
    · rintro ⟨rfl, hj, a, ha, htype⟩
      exact ⟨_, hj, a, ha, by rw [← htype]⟩

theorem means_of_resolve (h : tables.resolve ref = some slot) : ∃ name rel a, tables.Means ref slot name rel a := by
  obtain ⟨⟨⟨name, rel⟩, i⟩, hmem, hslot⟩ := exists_of_findSome?_eq_some h
  obtain ⟨rfl, hnamed, hindex, a, ha, htype⟩ := slotIn_eq_some.1 hslot
  exact ⟨name, rel, a, mem_zipIdx_iff_getElem?.1 hmem, hnamed, hindex, ha, htype⟩

theorem resolve_append (h : tables.resolve ref = some slot) : resolve (tables ++ tables') ref = some slot := by
  rw [resolve, zipIdx_append, findSome?_append, ← resolve, h, Option.some_or]

theorem resolve_of_unique {name : Bytes} {rel : Relation} {a : Attribute} (h : tables.Means ref slot name rel a)
    (hunique : ∀ i name' rel', tables[i]? = some (name', rel') → (ref.tableName = [] ∨ ref.tableName = name') →
      (rel'.getAttributeIndex ref.columnName).isSome → i = slot.tupleIndex) :
    tables.resolve ref = some slot := by
  have hslot : slotIn ref ((name, rel), slot.tupleIndex) = some slot :=
    slotIn_eq_some.2 ⟨rfl, h.named, h.index, a, h.column, h.dataType⟩
  have hmem : ((name, rel), slot.tupleIndex) ∈ tables.zipIdx := mem_zipIdx_iff_getElem?.2 h.table
  cases hres : tables.resolve ref with
  | none => exact absurd (hslot.symm.trans (findSome?_eq_none_iff.1 hres _ hmem)) (by simp)
  | some slot' =>
    obtain ⟨name', rel', a', h'⟩ := means_of_resolve hres
    have htuple := hunique _ _ _ h'.table h'.named (by simp [h'.index])
    obtain ⟨rfl, rfl⟩ := Prod.mk.inj (Option.some.inj (h.table.symm.trans (htuple ▸ h'.table)))
    have hindex : slot'.slotIndex = slot.slotIndex := Option.some.inj (h'.index.symm.trans h.index)
    have hslot' := slotIn_eq_some.2 ⟨rfl, h'.named, h'.index, a', h'.column, h'.dataType⟩
    rw [htuple] at hslot'
    rw [← hslot, hslot']

end Scope

namespace QueryRealizer

variable {q q' : QueryRealizer} {tables : Scope} {x : Res (State × QueryRealizer)}
  {f : QueryRealizer → Res (State × QueryRealizer)}

theorem andThen_ok : andThen (.ok (.ok, q)) f = f q := by simp [andThen]

theorem andThen_of_ne {state : State} (h : state ≠ .ok) : andThen (.ok (state, q)) f = .ok (state, q) := by
  simp [andThen, h]

theorem andThen_eq_ok : andThen x f = .ok (.ok, q') ↔ ∃ q, x = .ok (.ok, q) ∧ f q = .ok (.ok, q') := by
  rw [andThen, Res.bind_eq_ok]
  constructor
  · rintro ⟨⟨state, q⟩, hx, h⟩
    by_cases hstate : state = .ok
    · subst hstate
      exact ⟨q, hx, by simpa using h⟩
    · simp [hstate] at h
  · rintro ⟨q, hx, h⟩
    exact ⟨(.ok, q), hx, by simpa using h⟩

/-- The maps of the realizer describe the tables: every table is registered under its own name with its
position as tuple index, and a slot that is bound is what its reference means. -/
structure Scoped (q : QueryRealizer) (tables : Scope) : Prop where
  index : Indexes (fun name => q.name2tupleIndex[name]?) tables Prod.fst
  relation : ∀ name rel, q.name2relation[name]? = some rel ↔ (name, rel) ∈ tables
  indexSize : q.name2tupleIndex.size = tables.length
  relationSize : q.name2relation.size = tables.length
  slot : ∀ ref slot, q.name2slot ref = some slot → tables.resolve ref = some slot

def new (catalog : Catalog) (storage : LevelStore) : QueryRealizer := { catalog, storage }

theorem scoped_new (catalog : Catalog) (storage : LevelStore) : (new catalog storage).Scoped [] where
  index := by
    intro name i
    simp [new]
  relation := by simp [new]
  indexSize := rfl
  relationSize := rfl
  slot := by simp [new]

theorem Scoped.nodup (hq : q.Scoped tables) : (tables.map Prod.fst).Nodup := hq.index.nodup

variable {name : Bytes}

theorem Scoped.getElem?_iff (hq : q.Scoped tables) {i : Nat} :
    q.name2tupleIndex[name]? = some i ↔ ∃ rel, tables[i]? = some (name, rel) := by
  rw [hq.index name i]
  constructor
  · rintro ⟨⟨name', rel⟩, h, rfl⟩
    exact ⟨rel, h⟩
  · rintro ⟨rel, h⟩
    exact ⟨(name, rel), h, rfl⟩

theorem Scoped.position_unique (hq : q.Scoped tables) {rel rel' : Relation} {i j : Nat}
    (hi : tables[i]? = some (name, rel)) (hj : tables[j]? = some (name, rel')) : i = j :=
  Option.some.inj ((hq.getElem?_iff.2 ⟨rel, hi⟩).symm.trans (hq.getElem?_iff.2 ⟨rel', hj⟩))

theorem Scoped.registerTable (hq : q.Scoped tables) {relation : Relation}
    (hfresh : name ∉ tables.map Prod.fst) : (q.registerTable name relation).Scoped (tables ++ [(name, relation)]) := by
  have hindex : q.name2tupleIndex[name]? = none := by
    refine hq.index.eq_none_iff.2 fun t ht heq => hfresh ?_
    exact heq ▸ mem_map_of_mem ht
  have hrel : q.name2relation[name]? = none := by
    refine Option.eq_none_iff_forall_ne_some.2 fun rel h => hfresh ?_
    exact mem_map_of_mem ((hq.relation name rel).1 h)
  have hnotmem : name ∉ q.name2tupleIndex := by simp [Std.ExtTreeMap.mem_iff_isSome_getElem?, hindex]
  have hnotmem' : name ∉ q.name2relation := by simp [Std.ExtTreeMap.mem_iff_isSome_getElem?, hrel]
  refine ⟨?_, fun name' rel => ?_, ?_, ?_, fun ref slot h => Scope.resolve_append (hq.slot ref slot h)⟩
  · have hpush := hq.index.push (a := (name, relation)) hindex
    convert hpush using 1
    funext name'
    rw [QueryRealizer.registerTable, Std.ExtTreeMap.getElem?_insertIfNew, Function.update_apply, hq.indexSize]
    simp [hnotmem, @eq_comm _ name']
  · rw [QueryRealizer.registerTable, Std.ExtTreeMap.getElem?_insertIfNew, mem_append, ← hq.relation]
    by_cases heq : name = name'
    · subst heq
      simp [hnotmem', eq_comm]
    · simp [heq, Ne.symm heq]
  · rw [QueryRealizer.registerTable, Std.ExtTreeMap.size_insertIfNew, if_neg hnotmem, hq.indexSize]
    simp
  · rw [QueryRealizer.registerTable, Std.ExtTreeMap.size_insertIfNew, if_neg hnotmem', hq.relationSize]
    simp

variable {ref : ColumnReference}

theorem Scoped.insertSlot (hq : q.Scoped tables) {slot : SlotReference}
    (hslot : tables.resolve ref = some slot) : (q.insertSlot ref slot).Scoped tables := by
  rw [QueryRealizer.insertSlot]
  split
  · exact hq
  · refine ⟨hq.index, hq.relation, hq.indexSize, hq.relationSize, fun ref' slot' h => ?_⟩
    dsimp only at h
    by_cases heq : ref' = ref
    · subst heq
      rw [Function.update_self] at h
      rw [hslot, h]
    · rw [Function.update_of_ne heq] at h
      exact hq.slot ref' slot' h

/-! ## What an accepted clause leaves -/

/-- `q'` is `q` after `Check` has accepted a clause with the column references `refs`: it describes
`tables`, and every slot that was bound, and every reference in `refs`, is bound. -/
structure Checked (q q' : QueryRealizer) (tables : Scope) (refs : List ColumnReference) : Prop where
  frame : q' = { q with
    name2relation := q'.name2relation
    name2tupleIndex := q'.name2tupleIndex
    name2slot := q'.name2slot }
  mono : ∀ ref slot, q.name2slot ref = some slot → q'.name2slot ref = some slot
  scope : q'.Scoped tables
  bound : ∀ ref ∈ refs, ∃ slot, q'.name2slot ref = some slot

theorem Checked.refl (hq : q.Scoped tables) : Checked q q tables [] :=
  ⟨rfl, fun _ _ h => h, hq, by simp⟩

theorem Checked.trans {q₁ q₂ : QueryRealizer} {tables₁ tables₂ : Scope} {refs₁ refs₂ : List ColumnReference}
    (h₁ : Checked q q₁ tables₁ refs₁) (h₂ : Checked q₁ q₂ tables₂ refs₂) : Checked q q₂ tables₂ (refs₁ ++ refs₂) := by
  refine ⟨?_, fun ref slot h => h₂.mono ref slot (h₁.mono ref slot h), h₂.scope, fun ref href => ?_⟩
  · rw [h₂.frame, h₁.frame]
  · rcases mem_append.1 href with href | href
    · obtain ⟨slot, hslot⟩ := h₁.bound ref href
      exact ⟨slot, h₂.mono ref slot hslot⟩
    · exact h₂.bound ref href

structure Unbuilt (q : QueryRealizer) (catalog : Catalog) (storage : LevelStore) : Prop where
  catalog : q.catalog = catalog
  storage : q.storage = storage
  allTupleDesc : q.allTupleDesc = []
  projectionList : q.projectionList = []
  outputRowDesc : q.outputRowDesc = []
  sent : q.sent = []

variable {catalog : Catalog}

theorem Checked.unbuilt {storage : LevelStore} {refs : List ColumnReference}
    (h : Checked (new catalog storage) q tables refs) : q.Unbuilt catalog storage := by
  rw [h.frame]
  exact ⟨rfl, rfl, rfl, rfl, rfl, rfl⟩

theorem Checked.insertSlot (hq : q.Scoped tables) {slot : SlotReference}
    (hslot : tables.resolve ref = some slot) : Checked q (q.insertSlot ref slot) tables [ref] := by
  refine ⟨?_, fun ref' slot' h => ?_, hq.insertSlot hslot, fun ref' href => ?_⟩
  · rw [QueryRealizer.insertSlot]
    split <;> rfl
  · rw [QueryRealizer.insertSlot]
    split
    · exact h
    · next hnone =>
      have hne : ref' ≠ ref := by
        rintro rfl
        simp [h] at hnone
      exact (Function.update_of_ne hne _ _).trans h
  · obtain rfl := mem_singleton.1 href
    rw [QueryRealizer.insertSlot]
    split
    · next hsome => exact Option.isSome_iff_exists.1 hsome
    · exact ⟨slot, Function.update_self ..⟩

variable {ref : ColumnReference} {type : ClauseType} {name : Bytes} {rel : Relation} {j : Nat}

theorem bindColumn_eq_ok (h : q.bindColumn ref type name rel j = .ok (.ok, q')) :
    ∃ i a, q.name2tupleIndex[name]? = some i ∧ rel.attributes[j]? = some a ∧
      q' = q.insertSlot ref ⟨i, j, a.dataType⟩ := by
  simp only [bindColumn, Relation.getAttribute, Res.bind_eq_ok, Res.getD_eq_ok] at h
  obtain ⟨i, hi, a, ha, _, -, heq⟩ := h
  exact ⟨i, a, hi, ha, (Prod.mk.inj (Except.ok.inj heq)).2.symm⟩

theorem mem_tablesWith (hq : q.Scoped tables) {columnName : Bytes} :
    (name, rel, j) ∈ q.tablesWith columnName ↔
      (name, rel) ∈ tables ∧ rel.getAttributeIndex columnName = some j := by
  simp only [tablesWith, mem_filterMap, Option.map_eq_some_iff, Prod.mk.injEq, Prod.exists,
    Std.ExtTreeMap.mem_toList_iff_getElem?_eq_some, hq.relation]
  constructor
  · rintro ⟨name', rel', hmem, j', hj, rfl, rfl, rfl⟩
    exact ⟨hmem, hj⟩
  · rintro ⟨hmem, hj⟩
    exact ⟨name, rel, hmem, j, hj, rfl, rfl, rfl⟩

theorem checked_bindColumn (hq : q.Scoped tables) (hmem : (name, rel) ∈ tables)
    (hnamed : ref.tableName = [] ∨ ref.tableName = name) (hj : rel.getAttributeIndex ref.columnName = some j)
    (honly : ∀ name' rel', (name', rel') ∈ tables → (ref.tableName = [] ∨ ref.tableName = name') →
      (rel'.getAttributeIndex ref.columnName).isSome → name' = name)
    (h : q.bindColumn ref type name rel j = .ok (.ok, q')) : Checked q q' tables [ref] := by
  obtain ⟨i, a, hi, ha, rfl⟩ := bindColumn_eq_ok h
  obtain ⟨i', hi'⟩ := mem_iff_getElem?.1 hmem
  obtain ⟨rel', htable⟩ := hq.getElem?_iff.1 hi
  obtain rfl := hq.position_unique hi' htable
  refine Checked.insertSlot hq (Scope.resolve_of_unique ⟨hi', hnamed, hj, ha, rfl⟩ ?_)
  intro k name'' rel'' hk hnamed' hsome
  obtain rfl := honly name'' rel'' (mem_of_getElem? hk) hnamed' hsome
  exact hq.position_unique hk hi'

theorem checked_columnReference (hq : q.Scoped tables)
    (h : q.checkColumnReference ref type = .ok (.ok, q')) : Checked q q' tables [ref] := by
  unfold checkColumnReference at h
  split at h
  · next hqualified =>
    split at h
    · cases h
    · next rel hrel =>
      split at h
      · cases h
      · next j hj =>
        refine checked_bindColumn hq ((hq.relation _ _).1 hrel) (.inr rfl) hj ?_ h
        intro name' rel' _ hnamed _
        exact (hnamed.resolve_left hqualified).symm
  · next hunqualified =>
    have hempty : ref.tableName = [] := not_not.1 hunqualified
    split at h
    · cases h
    · next name rel j htables =>
      obtain ⟨hmem, hj⟩ := (mem_tablesWith hq).1 (htables ▸ mem_singleton_self _)
      refine checked_bindColumn hq hmem (.inl hempty) hj ?_ h
      intro name' rel' hmem' _ hsome
      obtain ⟨j', hj'⟩ := Option.isSome_iff_exists.1 hsome
      have hmem'' := (mem_tablesWith hq).2 ⟨hmem', hj'⟩
      rw [htables, mem_singleton] at hmem''
      exact (Prod.mk.inj hmem'').1
    · cases h

theorem checked_expressionBase {e : ExpressionBase} (hq : q.Scoped tables)
    (h : checkExpressionBase type e q = .ok (.ok, q')) : Checked q q' tables e.columns := by
  induction e generalizing q q' with
  | null => cases h
  | columnReference ref => exact checked_columnReference hq h
  | constValue value =>
    obtain rfl := (Prod.mk.inj (Except.ok.inj h)).2
    exact Checked.refl hq
  | operation op left right ihl ihr =>
    obtain ⟨_, -, h⟩ := Res.bind_eq_ok.1 h
    obtain ⟨q₁, hl, hr⟩ := andThen_eq_ok.1 h
    have hleft := ihl hq hl
    exact hleft.trans (ihr hleft.scope hr)

theorem checked_all {es : List ExpressionBase} (hq : q.Scoped tables)
    (h : checkAll (checkExpressionBase type) es q = .ok (.ok, q')) :
    Checked q q' tables (es.flatMap ExpressionBase.columns) := by
  induction es generalizing q with
  | nil =>
    obtain rfl := (Prod.mk.inj (Except.ok.inj h)).2
    exact Checked.refl hq
  | cons e es ih =>
    obtain ⟨q₁, he, hes⟩ := andThen_eq_ok.1 h
    have hfirst := checked_expressionBase hq he
    exact hfirst.trans (ih hfirst.scope hes)

/-- The scope that the table references `refs` make: each reference's name with the relation the
catalog has for its table. -/
def TablesOf (catalog : Catalog) (refs : List TableReference) (tables : Scope) : Prop :=
  List.Forall₂ (fun ref t => t.1 = ref.name ∧ catalog.getRelation ref.tableName = some t.2) refs tables

variable {refs : List TableReference}

section TablesOf

variable (h : TablesOf catalog refs tables)

include h

theorem TablesOf.map_fst :
    tables.map Prod.fst = refs.map TableReference.name := by
  induction h with
  | nil => rfl
  | cons ht _ ih => rw [map_cons, map_cons, ht.1, ih]

theorem TablesOf.unique {tables' : Scope} (h' : TablesOf catalog refs tables') : tables = tables' := by
  refine right_unique_forall₂' (fun ref t t' ht ht' => Prod.ext (ht.1.trans ht'.1.symm) ?_) h h'
  exact Option.some.inj (ht.2.symm.trans ht'.2)

theorem TablesOf.table_of_reference {k : Nat} {ref : TableReference} (hk : refs[k]? = some ref) :
    ∃ rel, tables[k]? = some (ref.name, rel) ∧ catalog.getRelation ref.tableName = some rel := by
  obtain ⟨⟨name, rel⟩, ht, rfl, hrel⟩ := forall₂_getElem?_left h hk
  exact ⟨rel, ht, hrel⟩

theorem TablesOf.reference_of_table {k : Nat} {rel : Relation} (hk : tables[k]? = some (name, rel)) :
    ∃ ref, refs[k]? = some ref ∧ name = ref.name ∧ catalog.getRelation ref.tableName = some rel :=
  forall₂_getElem?_right h hk

end TablesOf

/-- With `i` tables before the factor, the column references of every join predicate in it mean tables
up to the end of that join. -/
def Bounded (tables : Scope) : TableFactor → Nat → Prop
  | .joinClause left right predicate _, i =>
    Bounded tables left i ∧ Bounded tables right (i + left.references.length) ∧
      ∀ ref ∈ predicate.columns, ∃ slot, tables.resolve ref = some slot ∧
        slot.tupleIndex < i + left.references.length + right.references.length
  | _, _ => True

variable {factor : TableFactor}

theorem Bounded.append {tables' : Scope} {i : Nat} (h : Bounded tables factor i) :
    Bounded (tables ++ tables') factor i := by
  induction factor generalizing i with
  | tableReference ref => trivial
  | subQuery => trivial
  | joinClause left right predicate type ihl ihr =>
    obtain ⟨hl, hr, hp⟩ := h
    refine ⟨ihl hl, ihr hr, fun ref href => ?_⟩
    obtain ⟨slot, hslot, hlt⟩ := hp ref href
    exact ⟨slot, Scope.resolve_append hslot, hlt⟩

theorem Checked.exists_resolve {refs : List ColumnReference} (h : Checked q q' tables refs)
    (href : ref ∈ refs) : ∃ slot, tables.resolve ref = some slot ∧ slot.tupleIndex < tables.length := by
  obtain ⟨slot, hslot⟩ := h.bound ref href
  have hresolve := h.scope.slot ref slot hslot
  obtain ⟨name, rel, a, hmeans⟩ := Scope.means_of_resolve hresolve
  exact ⟨slot, hresolve, (List.getElem?_eq_some_iff.1 hmeans.table).1⟩

theorem checked_tableFactor (hq : q.Scoped tables)
    (hnodup : (tables.map Prod.fst ++ factor.references.map TableReference.name).Nodup)
    (h : checkTableFactor factor q = .ok (.ok, q')) :
    ∃ tables', TablesOf q.catalog factor.references tables' ∧ Checked q q' (tables ++ tables') factor.columns ∧
      Bounded (tables ++ tables') factor tables.length := by
  induction factor generalizing q q' tables with
  | tableReference ref =>
    simp only [checkTableFactor] at h
    split at h
    · cases h
    · next relation hrelation =>
      obtain rfl := (Prod.mk.inj (Except.ok.inj h)).2
      have hfresh : ref.name ∉ tables.map Prod.fst := fun hmem =>
        (nodup_append.1 hnodup).2.2 _ hmem _ (by simp [TableFactor.references]) rfl
      exact ⟨[(ref.name, relation)], .cons ⟨rfl, hrelation⟩ .nil,
        ⟨rfl, fun _ _ hslot => hslot, hq.registerTable hfresh, by simp [TableFactor.columns]⟩, trivial⟩
  | joinClause left right predicate joinType ihl ihr =>
    obtain ⟨q₁, hl, h⟩ := andThen_eq_ok.1 h
    obtain ⟨q₂, hr, hp⟩ := andThen_eq_ok.1 h
    simp only [TableFactor.references, map_append, ← append_assoc] at hnodup
    obtain ⟨tables₁, htables₁, hleft, hbounded₁⟩ := ihl hq hnodup.of_append_left hl
    rw [← htables₁.map_fst, ← map_append] at hnodup
    obtain ⟨tables₂, htables₂, hright, hbounded₂⟩ := ihr hleft.scope hnodup hr
    have hpredicate := checked_expressionBase hright.scope hp
    rw [hleft.frame] at htables₂
    have hlen₁ : left.references.length = tables₁.length := htables₁.length_eq
    have hlen₂ : right.references.length = tables₂.length := htables₂.length_eq
    refine ⟨tables₁ ++ tables₂, rel_append htables₁ htables₂, ?_, ?_⟩
    · rw [← append_assoc]
      exact hleft.trans (hright.trans hpredicate)
    · rw [← append_assoc]
      refine ⟨hbounded₁.append, by rwa [hlen₁, ← length_append], fun ref href => ?_⟩
      obtain ⟨slot, hslot, hlt⟩ := hpredicate.exists_resolve href
      exact ⟨slot, hslot, by simpa [hlen₁, hlen₂, Nat.add_assoc] using hlt⟩
  | subQuery =>
    obtain rfl := (Prod.mk.inj (Except.ok.inj h)).2
    exact ⟨[], .nil, by simpa [TableFactor.columns] using Checked.refl hq, trivial⟩

theorem check_eq_ok {stmt : SelectStmt} (h : check stmt q = .ok (.ok, q')) :
    ∃ q₁, checkAll checkTableFactor stmt.tableReference q = .ok (.ok, q₁) ∧ ∀ {tables : Scope}, q₁.Scoped tables →
      Checked q₁ q' tables (stmt.optWhere.flatMap ExpressionBase.columns ++
        (stmt.optGroupBy.flatMap ExpressionBase.columns ++ (stmt.selectList.flatMap ExpressionBase.columns ++
          stmt.optOrderBy.flatMap ExpressionBase.columns))) := by
  obtain ⟨q₁, hq₁, h⟩ := andThen_eq_ok.1 h
  obtain ⟨q₂, hq₂, h⟩ := andThen_eq_ok.1 h
  obtain ⟨q₃, hq₃, h⟩ := andThen_eq_ok.1 h
  obtain ⟨q₄, hq₄, hq₅⟩ := andThen_eq_ok.1 h
  refine ⟨q₁, hq₁, fun hscope => ?_⟩
  have hwhere := checked_all hscope hq₂
  have hgroup := checked_all hwhere.scope hq₃
  have hselect := checked_all hgroup.scope hq₄
  have horder := checked_all hselect.scope hq₅
  exact hwhere.trans (hgroup.trans (hselect.trans horder))

theorem checked_of_check {stmt : SelectStmt} {storage : LevelStore}
    (hfrom : stmt.tableReference = [factor]) (hnodup : (factor.references.map TableReference.name).Nodup)
    (h : check stmt (new catalog storage) = .ok (.ok, q')) :
    ∃ tables, TablesOf catalog factor.references tables ∧ Bounded tables factor 0 ∧
      Checked (new catalog storage) q' tables (factor.columns ++ (stmt.optWhere.flatMap ExpressionBase.columns ++
        (stmt.optGroupBy.flatMap ExpressionBase.columns ++ (stmt.selectList.flatMap ExpressionBase.columns ++
          stmt.optOrderBy.flatMap ExpressionBase.columns)))) := by
  obtain ⟨q₁, hq₁, hclauses⟩ := check_eq_ok h
  rw [hfrom] at hq₁
  obtain ⟨q₀, hfactor, heq⟩ := andThen_eq_ok.1 hq₁
  obtain rfl := (Prod.mk.inj (Except.ok.inj heq)).2
  obtain ⟨tables, htables, hc, hbounded⟩ :=
    checked_tableFactor (scoped_new catalog storage) (by simpa using hnodup) hfactor
  rw [nil_append] at hc hbounded
  exact ⟨tables, htables, hbounded, hc.trans (hclauses hc.scope)⟩

end QueryRealizer

end Dbms18
