import Dbms18.Realizer.Scope

/-!
# When `Check` accepts an expression

A column reference is accepted if exactly one of the registered tables can be meant by it.
-/

namespace Dbms18

namespace Scope

variable {tables : Scope} {ref : ColumnReference} {slot : SlotReference}

/-- The reference means this slot, and no other table has such a column. -/
def Finds (tables : Scope) (ref : ColumnReference) (slot : SlotReference) : Prop :=
  tables.resolve ref = some slot ∧ ∀ i name rel, tables[i]? = some (name, rel) →
    (ref.tableName = [] ∨ ref.tableName = name) → (rel.getAttributeIndex ref.columnName).isSome → i = slot.tupleIndex

theorem finds_singleton {table : Bytes × Relation} (h : Scope.resolve [table] ref = some slot) :
    Scope.Finds [table] ref slot := by
  obtain ⟨name, rel, a, hmeans⟩ := means_of_resolve h
  have hzero : ∀ {i : Nat} {t : Bytes × Relation}, [table][i]? = some t → i = 0 := by
    intro i t hi
    simpa using (List.getElem?_eq_some_iff.1 hi).1
  exact ⟨h, fun i name' rel' hi _ _ => (hzero hi).trans (hzero hmeans.table).symm⟩

end Scope

/-- An expression that `Check` lets pass in a clause: no node is missing, every column is found, and
operations stand only in WHERE and ON. -/
def ExpressionBase.Accepted (tables : Scope) (type : ClauseType) : ExpressionBase → Prop
  | null => False
  | columnReference ref => ∃ slot, tables.Finds ref slot
  | constValue _ => True
  | operation _ left right => (type = .joinOn ∨ type = .whereClause) ∧ left.Accepted tables type ∧ right.Accepted tables type

namespace QueryRealizer

variable {q : QueryRealizer} {tables : Scope} {ref : ColumnReference} {slot : SlotReference} {type : ClauseType}

theorem nodup_tablesWith (q : QueryRealizer) (columnName : Bytes) : (q.tablesWith columnName).Nodup := by
  have hkeys := Std.ExtTreeMap.distinct_keys_toList (t := q.name2relation)
  refine List.Pairwise.filterMap _ ?_ hkeys
  rintro ⟨name, rel⟩ ⟨name', rel'⟩ hne b hb b' hb' rfl
  obtain ⟨i, -, rfl⟩ := Option.map_eq_some_iff.1 hb
  obtain ⟨i', -, heq⟩ := Option.map_eq_some_iff.1 hb'
  exact hne (by simp [(Prod.mk.inj heq).1])

theorem bindColumn_eq (hq : q.Scoped tables) {name : Bytes} {rel : Relation} {a : Attribute}
    (hmeans : tables.Means ref slot name rel a) (htype : type ≠ .having) :
    q.bindColumn ref type name rel slot.slotIndex = .ok (.ok, q.insertSlot ref slot) := by
  have hindex : q.name2tupleIndex[name]? = some slot.tupleIndex := hq.getElem?_iff.2 ⟨rel, hmeans.table⟩
  have hslot : (⟨slot.tupleIndex, slot.slotIndex, a.dataType⟩ : SlotReference) = slot := by rw [← hmeans.dataType]
  simp [bindColumn, Relation.getAttribute, hindex, hmeans.column, hslot, Res.check_of htype]

theorem checkColumnReference_eq (hq : q.Scoped tables) (h : tables.Finds ref slot) (htype : type ≠ .having) :
    q.checkColumnReference ref type = .ok (.ok, q.insertSlot ref slot) := by
  obtain ⟨name, rel, a, hmeans⟩ := Scope.means_of_resolve h.1
  have hbind := bindColumn_eq hq hmeans htype
  have hmem := List.mem_of_getElem? hmeans.table
  unfold checkColumnReference
  split
  · next hqualified =>
    obtain rfl := hmeans.named.resolve_left hqualified
    simp only [(hq.relation _ _).2 hmem, hmeans.index, hbind]
  · next hunqualified =>
    have hempty : ref.tableName = [] := not_not.1 hunqualified
    have htables : q.tablesWith ref.columnName = [(name, rel, slot.slotIndex)] := by
      refine eq_singleton_of_nodup (q.nodup_tablesWith _) ((mem_tablesWith hq).2 ⟨hmem, hmeans.index⟩) ?_
      rintro ⟨name', rel', j⟩ hmem'
      obtain ⟨htable, hj⟩ := (mem_tablesWith hq).1 hmem'
      obtain ⟨i, hi⟩ := List.mem_iff_getElem?.1 htable
      -- the table has the column, so it is the one that is found
      obtain rfl := h.2 i name' rel' hi (.inl hempty) (by simp [hj])
      obtain ⟨rfl, rfl⟩ := Prod.mk.inj (Option.some.inj (hi.symm.trans hmeans.table))
      rw [Option.some.inj (hj.symm.trans hmeans.index)]
    simp only [htables, hbind]

theorem exists_checkExpressionBase (hq : q.Scoped tables) (htype : type ≠ .having) {e : ExpressionBase}
    (h : e.Accepted tables type) : ∃ q', checkExpressionBase type e q = .ok (.ok, q') := by
  induction e generalizing q with
  | null => cases h
  | columnReference ref =>
    obtain ⟨slot, hslot⟩ := h
    exact ⟨_, checkColumnReference_eq hq hslot htype⟩
  | constValue value => exact ⟨q, rfl⟩
  | operation op left right ihl ihr =>
    obtain ⟨hclause, hl, hr⟩ := h
    obtain ⟨q₁, hleft⟩ := ihl hq hl
    obtain ⟨q₂, hright⟩ := ihr (checked_expressionBase hq hleft).scope hr
    refine ⟨q₂, ?_⟩
    rw [checkExpressionBase, Res.check_of hclause, Res.ok_bind]
    exact andThen_eq_ok.2 ⟨q₁, hleft, hright⟩

theorem exists_checkAll (type : ClauseType) (es : List ExpressionBase) (hq : q.Scoped tables) (htype : type ≠ .having)
    (h : ∀ e ∈ es, e.Accepted tables type) : ∃ q', checkAll (checkExpressionBase type) es q = .ok (.ok, q') := by
  induction es generalizing q with
  | nil => exact ⟨q, rfl⟩
  | cons e es ih =>
    obtain ⟨q₁, he⟩ := exists_checkExpressionBase hq htype (h e List.mem_cons_self)
    obtain ⟨q₂, hes⟩ := ih (checked_expressionBase hq he).scope fun e' he' => h e' (List.mem_cons_of_mem _ he')
    exact ⟨q₂, andThen_eq_ok.2 ⟨q₁, he, hes⟩⟩

end QueryRealizer

end Dbms18
