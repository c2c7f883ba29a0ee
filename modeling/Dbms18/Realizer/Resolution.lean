import Dbms18.Realizer.Acceptance

/-!
# Column references in `Check`

A reference with a table's name resolves if that table is registered and has the column, and one without
if exactly one registered table has it. `CheckExpressionBase` goes through the references of an expression
from left to right, and stops at the first that does not resolve (`checkExpressionBase_resolves`).
-/

namespace Dbms18

open List

namespace Scope

variable {tables : Scope} {ref : ColumnReference}

def HasColumn (ref : ColumnReference) (table : Bytes × Relation) : Prop :=
  ∃ a ∈ table.2.attributes, a.name = ref.columnName

instance (ref : ColumnReference) (table : Bytes × Relation) : Decidable (HasColumn ref table) :=
  inferInstanceAs (Decidable (∃ a ∈ table.2.attributes, a.name = ref.columnName))

def Resolves (tables : Scope) (ref : ColumnReference) : Prop :=
  if ref.tableName ≠ [] then ∃ table ∈ tables, table.1 = ref.tableName ∧ HasColumn ref table
  else ∃! table, table ∈ tables ∧ HasColumn ref table

/-- The state that is returned for a reference that does not resolve. -/
def failure (tables : Scope) (ref : ColumnReference) : State :=
  if ref.tableName ≠ [] then
    if ref.tableName ∈ tables.map Prod.fst then .attributeNotFound else .relationNotFound
  else if ∃ table ∈ tables, HasColumn ref table then .nameAmbiguous else .attributeNotFound

theorem failure_ne_ok (tables : Scope) (ref : ColumnReference) : tables.failure ref ≠ .ok := by
  unfold failure
  split <;> split <;> decide

theorem hasColumn_iff {table : Bytes × Relation} :
    HasColumn ref table ↔ ∃ j, table.2.getAttributeIndex ref.columnName = some j := by
  rw [← Option.isSome_iff_exists, Relation.getAttributeIndex, findIdx?_isSome]
  simp [HasColumn]

end Scope

def ExpressionBase.NotFree : ExpressionBase → Prop
  | null => False
  | columnReference _ | constValue _ => True
  | operation op left right => op ≠ .not ∧ left.NotFree ∧ right.NotFree

namespace QueryRealizer

variable {q q' : QueryRealizer} {tables : Scope} {ref : ColumnReference} {slot : SlotReference} {type : ClauseType}

theorem finds_of_only (hq : q.Scoped tables) {name : Bytes} {rel : Relation} {j : Nat} (hmem : (name, rel) ∈ tables)
    (hnamed : ref.tableName = [] ∨ ref.tableName = name) (hj : rel.getAttributeIndex ref.columnName = some j)
    (honly : ∀ name' rel', (name', rel') ∈ tables → (ref.tableName = [] ∨ ref.tableName = name') →
      (rel'.getAttributeIndex ref.columnName).isSome → name' = name) : ∃ slot, tables.Finds ref slot := by
  obtain ⟨i, hi⟩ := mem_iff_getElem?.1 hmem
  obtain ⟨hlt, -⟩ := findIdx?_eq_some_iff_getElem.1 hj
  have hunique : ∀ k name' rel', tables[k]? = some (name', rel') → (ref.tableName = [] ∨ ref.tableName = name') →
      (rel'.getAttributeIndex ref.columnName).isSome → k = i := by
    intro k name' rel' hk hnamed' hsome
    obtain rfl := honly name' rel' (mem_of_getElem? hk) hnamed' hsome
    exact hq.position_unique hk hi
  have hmeans : tables.Means ref ⟨i, j, rel.attributes[j].dataType⟩ name rel rel.attributes[j] :=
    ⟨hi, hnamed, hj, getElem?_eq_getElem hlt, rfl⟩
  exact ⟨_, Scope.resolve_of_unique hmeans hunique, hunique⟩

theorem resolves_iff_finds (hq : q.Scoped tables) : tables.Resolves ref ↔ ∃ slot, tables.Finds ref slot := by
  constructor
  · intro h
    unfold Scope.Resolves at h
    split at h
    · next hqualified =>
      obtain ⟨⟨name, rel⟩, hmem, rfl, hcolumn⟩ := h
      obtain ⟨j, hj⟩ := Scope.hasColumn_iff.1 hcolumn
      exact finds_of_only hq hmem (.inr rfl) hj fun name' rel' _ hnamed _ => (hnamed.resolve_left hqualified).symm
    · next hunqualified =>
      obtain ⟨⟨name, rel⟩, ⟨hmem, hcolumn⟩, honly⟩ := h
      obtain ⟨j, hj⟩ := Scope.hasColumn_iff.1 hcolumn
      refine finds_of_only hq hmem (.inl (not_not.1 hunqualified)) hj fun name' rel' hmem' _ hsome => ?_
      have heq := honly (name', rel') ⟨hmem', Scope.hasColumn_iff.2 (Option.isSome_iff_exists.1 hsome)⟩
      exact (Prod.mk.inj heq).1
  · rintro ⟨slot, hslot, hunique⟩
    obtain ⟨name, rel, a, hmeans⟩ := Scope.means_of_resolve hslot
    have hmem := mem_of_getElem? hmeans.table
    have hcolumn : Scope.HasColumn ref (name, rel) := Scope.hasColumn_iff.2 ⟨_, hmeans.index⟩
    unfold Scope.Resolves
    split
    · next hqualified => exact ⟨(name, rel), hmem, (hmeans.named.resolve_left hqualified).symm, hcolumn⟩
    · next hunqualified =>
      refine ⟨(name, rel), ⟨hmem, hcolumn⟩, ?_⟩
      rintro ⟨name', rel'⟩ ⟨hmem', hcolumn'⟩
      obtain ⟨i, hi⟩ := mem_iff_getElem?.1 hmem'
      obtain ⟨j, hj⟩ := Scope.hasColumn_iff.1 hcolumn'
      obtain rfl := hunique i name' rel' hi (.inl (not_not.1 hunqualified)) (by simp [hj])
      exact Option.some.inj (hi.symm.trans hmeans.table)

theorem rejected_columnReference (hq : q.Scoped tables) (h : ¬ tables.Resolves ref) (type : ClauseType) :
    ∃ q', q.checkColumnReference ref type = .ok (tables.failure ref, q') := by
  unfold checkColumnReference Scope.failure
  split
  · next hqualified =>
    split
    · next hnone =>
      have hname : ref.tableName ∉ tables.map Prod.fst := by
        intro hmem
        obtain ⟨⟨name, rel⟩, ht, rfl⟩ := mem_map.1 hmem
        cases hnone.symm.trans ((hq.relation _ _).2 ht)
      exact ⟨_, by rw [if_neg hname]⟩
    · next rel hrel =>
      have hmem := (hq.relation _ _).1 hrel
      split
      · exact ⟨_, by rw [if_pos (mem_map_of_mem hmem)]⟩
      · next j hj =>
        refine absurd ?_ h
        rw [Scope.Resolves, if_pos hqualified]
        exact ⟨_, hmem, rfl, Scope.hasColumn_iff.2 ⟨j, hj⟩⟩
  · next hunqualified =>
    have hwith : ∀ {t : Bytes × Relation}, t ∈ tables ∧ Scope.HasColumn ref t ↔
        ∃ j, (t.1, t.2, j) ∈ q.tablesWith ref.columnName := by
      intro t
      simp only [mem_tablesWith hq, Scope.hasColumn_iff, exists_and_left]
    split
    · next hnil =>
      have hnone : ¬ ∃ t ∈ tables, Scope.HasColumn ref t := by
        rintro ⟨t, ht⟩
        obtain ⟨j, hj⟩ := hwith.1 ht
        rw [hnil] at hj
        cases hj
      exact ⟨_, by rw [if_neg hnone]⟩
    · next name rel j hone =>
      refine absurd ?_ h
      rw [Scope.Resolves, if_neg hunqualified]
      refine ⟨(name, rel), hwith.2 ⟨j, hone ▸ mem_cons_self⟩, fun t ht => ?_⟩
      obtain ⟨j', hj'⟩ := hwith.1 ht
      rw [hone, mem_singleton] at hj'
      obtain ⟨rfl, hrel⟩ := Prod.mk.inj hj'
      exact Prod.ext rfl (Prod.mk.inj hrel).1
    · next hnil _ =>
      have hsome : ∃ t ∈ tables, Scope.HasColumn ref t := by
        obtain ⟨⟨name, rel, j⟩, hmem⟩ := exists_mem_of_ne_nil _ hnil
        exact ⟨(name, rel), hwith.2 ⟨j, hmem⟩⟩
      exact ⟨_, by rw [if_pos hsome]⟩

/-- The slot is the one of the reference: the registered tuple index of its table, and the first column of
that name with its type. -/
def Names (q : QueryRealizer) (tables : Scope) (ref : ColumnReference) (slot : SlotReference) : Prop :=
  ∃ name rel a, (name, rel) ∈ tables ∧ (ref.tableName = [] ∨ ref.tableName = name) ∧
    q.name2tupleIndex[name]? = some slot.tupleIndex ∧ rel.attributes[slot.slotIndex]? = some a ∧
    a.name = ref.columnName ∧ (∀ j < slot.slotIndex, ∀ b, rel.attributes[j]? = some b → b.name ≠ ref.columnName) ∧
    slot.dataType = a.dataType

theorem Scoped.names (hq : q.Scoped tables) (hslot : tables.resolve ref = some slot) : q.Names tables ref slot := by
  obtain ⟨name, rel, a, hmeans⟩ := Scope.means_of_resolve hslot
  obtain ⟨hlt, hname, hfirst⟩ := findIdx?_eq_some_iff_getElem.1 hmeans.index
  have ha : rel.attributes[slot.slotIndex] = a :=
    Option.some.inj ((getElem?_eq_getElem hlt).symm.trans hmeans.column)
  refine ⟨name, rel, a, mem_of_getElem? hmeans.table, hmeans.named, hq.getElem?_iff.2 ⟨rel, hmeans.table⟩,
    hmeans.column, by simpa [ha] using hname, fun j hj b hb => ?_, hmeans.dataType⟩
  obtain ⟨hlt', rfl⟩ := List.getElem?_eq_some_iff.1 hb
  simpa using hfirst j hj

theorem checkExpressionBase_cases (hq : q.Scoped tables) (htype : type = .joinOn ∨ type = .whereClause)
    {e : ExpressionBase} (he : e.NotFree) :
    (∃ q', checkExpressionBase type e q = .ok (.ok, q') ∧ Checked q q' tables e.columns ∧
        ∀ ref ∈ e.columns, tables.Resolves ref) ∨
      ∃ q' pre ref post, checkExpressionBase type e q = .ok (tables.failure ref, q') ∧
        e.columns = pre ++ ref :: post ∧ (∀ r ∈ pre, tables.Resolves r) ∧ ¬ tables.Resolves ref := by
  induction e generalizing q with
  | null => exact absurd he id
  | columnReference ref =>
    by_cases hres : tables.Resolves ref
    · obtain ⟨slot, hslot⟩ := (resolves_iff_finds hq).1 hres
      have hhaving : type ≠ .having := by rcases htype with rfl | rfl <;> decide
      exact .inl ⟨_, checkColumnReference_eq hq hslot hhaving, Checked.insertSlot hq hslot.1, by
        simpa [ExpressionBase.columns] using hres⟩
    · obtain ⟨q', hcheck⟩ := rejected_columnReference hq hres type
      exact .inr ⟨q', [], ref, [], hcheck, rfl, by simp, hres⟩
  | constValue value => exact .inl ⟨q, rfl, Checked.refl hq, by simp [ExpressionBase.columns]⟩
  | operation op left right ihl ihr =>
    obtain ⟨-, hl, hr⟩ := he
    rw [checkExpressionBase, Res.check_of htype, Res.ok_bind]
    rcases ihl hq hl with ⟨q₁, hleft, hchecked, hall⟩ | ⟨q₁, pre, ref, post, hleft, hcolumns, hpre, hnot⟩
    · rw [hleft, andThen_ok]
      rcases ihr hchecked.scope hr with ⟨q₂, hright, hchecked', hall'⟩ | ⟨q₂, pre, ref, post, hright, hcolumns, hpre, hnot⟩
      · exact .inl ⟨q₂, hright, hchecked.trans hchecked', forall_mem_append.2 ⟨hall, hall'⟩⟩
      · refine .inr ⟨q₂, left.columns ++ pre, ref, post, hright, ?_, forall_mem_append.2 ⟨hall, hpre⟩, hnot⟩
        rw [ExpressionBase.columns, hcolumns, append_assoc]
    · rw [hleft, andThen_of_ne (Scope.failure_ne_ok tables ref)]
      refine .inr ⟨q₁, pre, ref, post ++ right.columns, rfl, ?_, hpre, hnot⟩
      rw [ExpressionBase.columns, hcolumns, append_assoc, cons_append]

theorem checkExpressionBase_resolves (hq : q.Scoped tables) (htype : type = .joinOn ∨ type = .whereClause)
    {e : ExpressionBase} (he : e.NotFree) :
    ∃ state q', checkExpressionBase type e q = .ok (state, q') ∧
      (state = .ok ↔ ∀ ref ∈ e.columns, tables.Resolves ref) ∧
      (state = .ok → ∀ ref ∈ e.columns, ∃ slot, q'.name2slot ref = some slot ∧ q.Names tables ref slot) ∧
      (state ≠ .ok → ∃ pre ref post, e.columns = pre ++ ref :: post ∧ (∀ r ∈ pre, tables.Resolves r) ∧
        ¬ tables.Resolves ref ∧ state = tables.failure ref) := by
  rcases checkExpressionBase_cases hq htype he with
    ⟨q', hcheck, hchecked, hall⟩ | ⟨q', pre, ref, post, hcheck, hcolumns, hpre, hnot⟩
  · refine ⟨.ok, q', hcheck, iff_of_true rfl hall, fun _ ref href => ?_, fun h => absurd rfl h⟩
    obtain ⟨slot, hslot⟩ := hchecked.bound ref href
    exact ⟨slot, hslot, hq.names (hchecked.scope.slot ref slot hslot)⟩
  · have hfailure := Scope.failure_ne_ok tables ref
    refine ⟨_, q', hcheck, iff_of_false hfailure fun hall => hnot (hall ref ?_), fun h => absurd h hfailure,
      fun _ => ⟨pre, ref, post, hcolumns, hpre, hnot, rfl⟩⟩
    rw [hcolumns]
    exact mem_append_right _ mem_cons_self

def oneColumn : Relation := { name := ascii "t", attributes := [{ name := ascii "a", dataType := .integer }] }

/-- `a = t.a` -/
def sameColumn : ExpressionBase :=
  .operation .equal (.columnReference ⟨0, [], ascii "a"⟩) (.columnReference ⟨1, ascii "t", ascii "a"⟩)

theorem checkExpressionBase_resolves_sameColumn :
    ∃ q', checkExpressionBase .whereClause sameColumn
        ((new .empty (.started fun _ => ∅)).registerTable (ascii "t") oneColumn) = .ok (.ok, q') ∧
      ∀ ref ∈ sameColumn.columns, ∃ slot, q'.name2slot ref = some slot := by
  have hq : ((new .empty (.started fun _ => ∅)).registerTable (ascii "t") oneColumn).Scoped
      ([] ++ [(ascii "t", oneColumn)]) := (scoped_new _ _).registerTable (by simp)
  have hcolumn : ∀ ref : ColumnReference, ref.columnName = ascii "a" → Scope.HasColumn ref (ascii "t", oneColumn) :=
    fun ref href => ⟨_, mem_cons_self, href.symm⟩
  obtain ⟨state, q', hcheck, hiff, hslots, -⟩ :=
    checkExpressionBase_resolves hq (.inr rfl) (e := sameColumn) ⟨by decide, trivial, trivial⟩
  have hok : state = .ok := by
    refine hiff.2 (forall_mem_cons.2 ⟨?_, forall_mem_singleton.2 ?_⟩)
    · refine ⟨(ascii "t", oneColumn), ⟨mem_cons_self, hcolumn _ rfl⟩, ?_⟩
      rintro table ⟨hmem, -⟩
      exact mem_singleton.1 hmem
    · exact ⟨(ascii "t", oneColumn), mem_cons_self, rfl, hcolumn _ rfl⟩
  subst hok
  refine ⟨q', hcheck, fun ref href => ?_⟩
  obtain ⟨slot, hslot, -⟩ := hslots rfl ref href
  exact ⟨slot, hslot⟩

end QueryRealizer

end Dbms18
