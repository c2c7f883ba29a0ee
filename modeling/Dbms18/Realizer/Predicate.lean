import Dbms18.Realizer.Scope

/-!
# The meaning of predicates

`ExpressionBase.holds` is the truth of a predicate, given the values of its columns. The executor's
expression that `BuildBooleanExpression` makes of a well-typed predicate computes it from the bytes of
a row (`buildBooleanExpression_correct`).
-/

namespace Dbms18

/-! ## Reference evaluation -/

namespace ExpressionBase

variable (env : ColumnReference → Option Value) (typeOf : ColumnReference → Option DataType)

def value : ExpressionBase → Option Value
  | columnReference ref => env ref
  | constValue (.integer v) => some (.integer v)
  | constValue (.varchar v) => some (.varchar v)
  | _ => none

def holds : ExpressionBase → Bool
  | operation op left right =>
    if isCompareOperator op then
      match left.value env, right.value env with
      | some v, some w => op.test (v.compare w)
      | _, _ => false
    else
      match op with
      | .and => left.holds && right.holds
      | .or => left.holds || right.holds
      | .xor => left.holds ^^ right.holds
      | _ => false
  | _ => false

def operandType : ExpressionBase → Option DataType
  | columnReference ref => typeOf ref
  | constValue (.integer _) => some .integer
  | constValue (.varchar _) => some .varchar
  | _ => none

/-- Comparisons of operands of one comparable type, joined by AND, OR and XOR. (`Build` has no
comparison for DATE and BOOLEAN, and no NOT.) -/
def WellTyped : ExpressionBase → Prop
  | operation op left right =>
    if isCompareOperator op then
      ∃ t : DataType, t.comparable = true ∧ left.operandType typeOf = some t ∧ right.operandType typeOf = some t
    else (op = .and ∨ op = .or ∨ op = .xor) ∧ left.WellTyped ∧ right.WellTyped
  | _ => False

variable {typeOf} {typeOf' : ColumnReference → Option DataType} {e : ExpressionBase}

theorem operandType_congr (h : ∀ ref ∈ e.columns, typeOf ref = typeOf' ref) :
    e.operandType typeOf = e.operandType typeOf' := by
  match e with
  | columnReference ref => exact h ref List.mem_cons_self
  | constValue (.integer _) | constValue (.varchar _) | null | operation _ _ _ => rfl

theorem WellTyped.congr (he : e.WellTyped typeOf) (h : ∀ ref ∈ e.columns, typeOf ref = typeOf' ref) :
    e.WellTyped typeOf' := by
  induction e with
  | null | columnReference _ | constValue _ => cases he
  | operation op left right ihl ihr =>
    have hl : ∀ ref ∈ left.columns, typeOf ref = typeOf' ref := fun ref href => h ref (List.mem_append_left _ href)
    have hr : ∀ ref ∈ right.columns, typeOf ref = typeOf' ref := fun ref href => h ref (List.mem_append_right _ href)
    rw [WellTyped] at he ⊢
    split at he
    · next hcompare => rwa [if_pos hcompare, ← operandType_congr hl, ← operandType_congr hr]
    · next hcompare => rw [if_neg hcompare]; exact ⟨he.1, ihl he.2.1 hl, ihr he.2.2 hr⟩

end ExpressionBase

namespace Scope

/-- The value that a column reference has in a combination of rows, one for each table. -/
def env (tables : Scope) (rows : List Row) (ref : ColumnReference) : Option Value := do
  let slot ← tables.resolve ref
  let row ← rows[slot.tupleIndex]?
  row[slot.slotIndex]?

def typeOf (tables : Scope) (ref : ColumnReference) : Option DataType :=
  (tables.resolve ref).map SlotReference.dataType

/-- The first positions of the executor's row hold the rows of the first tables. -/
structure Shows (tables : Scope) (row : TupleRow) (rows : List Row) : Prop where
  typed : ∀ {k : Nat} {values : Row}, rows[k]? = some values → ∃ name rel, tables[k]? = some (name, rel) ∧ values.Typed rel
  holds : ∀ {k : Nat} {values : Row}, rows[k]? = some values → ∃ t, row.getTuple k = .ok t ∧ t.Holds values

end Scope

/-! ## Reading values -/

namespace ValuePointer

variable {p : ValuePointer} {v : Value}

/-- The pointer gives the bytes of the value. -/
def Shows (p : ValuePointer) (v : Value) : Prop :=
  p.length = v.bytes.length ∧ p.read v.bytes.length = .ok v.bytes

theorem Shows.bytes (h : p.Shows v) : p.bytes = .ok v.bytes := by
  rw [ValuePointer.bytes, h.1, h.2]

theorem Shows.integer {i : Int64} (h : p.Shows (.integer i)) : p.integer = .ok i := by
  have hread : p.read 8 = .ok (leBytes 8 i.toUInt64.toNat) := by simpa [Value.bytes] using h.2
  have hback : i.toUInt64.toNat.toUInt64 = i.toUInt64 := UInt64.ofNat_toNat
  rw [ValuePointer.integer, hread, Res.ok_bind, ofLE_leBytes, RawTuple.toUInt64_mod, hback, Int64.toInt64_toUInt64]
  rfl

theorem Shows.double {bits : UInt64} (h : p.Shows (.float bits)) : p.double = .ok bits := by
  have hread : p.read 8 = .ok (leBytes 8 bits.toNat) := by simpa [Value.bytes] using h.2
  simp [ValuePointer.double, hread]

end ValuePointer

theorem BooleanExpr.compareBy_eq {α : Type} {read : ValuePointer → Res α} {order : α → α → Option Ordering}
    {op : OperatorType} {left right : ValueExpr} {row : TupleRow} {p₁ p₂ : ValuePointer} {x y : α}
    (hl : left.getValue row = .ok p₁) (hr : right.getValue row = .ok p₂) (hx : read p₁ = .ok x) (hy : read p₂ = .ok y) :
    compareBy read order op left right row = .ok (op.test (order x y)) := by
  simp [compareBy, hl, hr, hx, hy]

namespace QueryRealizer

variable {q : QueryRealizer} {tables : Scope} {row : TupleRow} {rows : List Row}

theorem slot_getValue (hshows : tables.Shows row rows) {ref : ColumnReference} {slot : SlotReference}
    (hslot : tables.resolve ref = some slot) (hlt : slot.tupleIndex < rows.length) :
    ∃ v p, tables.env rows ref = some v ∧ v.dataType = slot.dataType ∧ slot.getValue row = .ok p ∧ p.Shows v := by
  obtain ⟨name, rel, a, hmeans⟩ := Scope.means_of_resolve hslot
  have hrow := List.getElem?_eq_getElem hlt
  obtain ⟨name', rel', htable, htyped⟩ := hshows.typed hrow
  obtain ⟨rfl, rfl⟩ := Prod.mk.inj (Option.some.inj (hmeans.table.symm.trans htable))
  obtain ⟨v, hv, htype⟩ := htyped.dataType hmeans.column
  obtain ⟨t, ht, hholds⟩ := hshows.holds hrow
  obtain ⟨offset, length, hoffset, hlength, hlen, hread⟩ := hholds _ v hv
  refine ⟨v, ⟨t, offset.toNat, length.toNat⟩, ?_, htype.trans hmeans.dataType.symm, ?_, hlen, hread⟩
  · simp [Scope.env, hslot, hrow, hv]
  · simp [SlotReference.getValue, ht, hoffset, hlength]

def slotType (q : QueryRealizer) (ref : ColumnReference) : Option DataType :=
  (q.name2slot ref).map SlotReference.dataType

/-- The row has the values of `env` in the slots that the references are bound to. -/
def Sees (q : QueryRealizer) (refs : List ColumnReference) (row : TupleRow) (env : ColumnReference → Option Value) :
    Prop :=
  ∀ ref ∈ refs, ∀ slot, q.name2slot ref = some slot →
    ∃ v p, env ref = some v ∧ v.dataType = slot.dataType ∧ slot.getValue row = .ok p ∧ p.Shows v

theorem Sees.mono {refs refs' : List ColumnReference} {env : ColumnReference → Option Value} (h : q.Sees refs row env)
    (hsub : refs' ⊆ refs) : q.Sees refs' row env :=
  fun ref href => h ref (hsub href)

variable {e : ExpressionBase}

theorem buildValueExpression_correct {t : DataType} (htype : e.operandType q.slotType = some t) :
    ∃ b, q.buildValueExpression e = .ok (some b) ∧ b.getDataType = t ∧
      ∀ row env, q.Sees e.columns row env →
        ∃ v p, e.value env = some v ∧ v.dataType = t ∧ b.getValue row = .ok p ∧ p.Shows v := by
  match e, htype with
  | .columnReference ref, htype =>
    obtain ⟨slot, hslot, rfl⟩ := Option.map_eq_some_iff.1 htype
    refine ⟨.slotReference slot, by simp [buildValueExpression, hslot], rfl, fun row env hsees => ?_⟩
    exact hsees ref List.mem_cons_self slot hslot
  | .constValue (.integer i), htype =>
    obtain rfl := Option.some.inj htype
    refine ⟨.integerConstValue i, rfl, rfl, fun row env _ => ⟨.integer i, _, rfl, rfl, rfl, ?_, ?_⟩⟩
    · simp [Value.bytes]
    · exact (Cells.load_ofBytes (by simp [Value.bytes])).trans (by simp [Block.read, Value.bytes])
  | .constValue (.varchar s), htype =>
    obtain rfl := Option.some.inj htype
    refine ⟨.varcharConstValue s, rfl, rfl, fun row env _ => ⟨.varchar s, _, rfl, rfl, rfl, rfl, ?_⟩⟩
    exact (Cells.load_ofBytes (by simp [Value.bytes])).trans (by simp [Block.read, Value.bytes])

theorem buildCompare_correct (op : OperatorType) {left : ValueExpr} (right : ValueExpr) {t : DataType}
    (ht : t.comparable = true) (hl : left.getDataType = t) : ∃ b, buildCompare op left right = some b ∧
      ∀ row v w p₁ p₂, v.dataType = t → w.dataType = t → left.getValue row = .ok p₁ → right.getValue row = .ok p₂ →
        p₁.Shows v → p₂.Shows w → b.getValue row = .ok (op.test (v.compare w)) := by
  cases t with
  | integer =>
    refine ⟨.integerCompare op left right, by simp [buildCompare, hl], ?_⟩
    intro row v w p₁ p₂ hv hw h₁ h₂ hs₁ hs₂
    cases v <;> cases hv
    cases w <;> cases hw
    exact BooleanExpr.compareBy_eq h₁ h₂ hs₁.integer hs₂.integer
  | float =>
    refine ⟨.floatCompare op left right, by simp [buildCompare, hl], ?_⟩
    intro row v w p₁ p₂ hv hw h₁ h₂ hs₁ hs₂
    cases v <;> cases hv
    cases w <;> cases hw
    exact BooleanExpr.compareBy_eq h₁ h₂ hs₁.double hs₂.double
  | varchar =>
    refine ⟨.varcharCompare op left right, by simp [buildCompare, hl], ?_⟩
    intro row v w p₁ p₂ hv hw h₁ h₂ hs₁ hs₂
    cases v <;> cases hv
    cases w <;> cases hw
    exact BooleanExpr.compareBy_eq h₁ h₂ hs₁.bytes hs₂.bytes
  | invalid | date | boolean => cases ht

theorem buildBooleanExpression_correct (htyped : e.WellTyped q.slotType) :
    ∃ b, q.buildBooleanExpression e = .ok (some b) ∧
      ∀ row env, q.Sees e.columns row env → b.getValue row = .ok (e.holds env) := by
  induction e with
  | null | columnReference _ | constValue _ => cases htyped
  | operation op left right ihl ihr =>
    have hleftSub : left.columns ⊆ (ExpressionBase.operation op left right).columns := List.subset_append_left _ _
    have hrightSub : right.columns ⊆ (ExpressionBase.operation op left right).columns := List.subset_append_right _ _
    simp only [ExpressionBase.WellTyped] at htyped
    split at htyped
    · next hcompare =>
      obtain ⟨t, ht, htl, htr⟩ := htyped
      obtain ⟨bl, hbl, hbltype, hleft⟩ := buildValueExpression_correct htl
      obtain ⟨br, hbr, hbrtype, hright⟩ := buildValueExpression_correct htr
      obtain ⟨b, hb, hvalue⟩ := buildCompare_correct op br ht hbltype
      refine ⟨b, ?_, fun row env hsees => ?_⟩
      · simp [buildBooleanExpression, hcompare, hbl, hbr, Res.check_of (hbltype.trans hbrtype.symm), hb]
      · obtain ⟨v, p₁, hv, hvtype, h₁, hs₁⟩ := hleft row env (hsees.mono hleftSub)
        obtain ⟨w, p₂, hw, hwtype, h₂, hs₂⟩ := hright row env (hsees.mono hrightSub)
        rw [hvalue row v w p₁ p₂ hvtype hwtype h₁ h₂ hs₁ hs₂]
        simp [ExpressionBase.holds, hcompare, hv, hw]
    · next hcompare =>
      obtain ⟨hop, htl, htr⟩ := htyped
      obtain ⟨bl, hbl, hleft⟩ := ihl htl
      obtain ⟨br, hbr, hright⟩ := ihr htr
      have hlogic : isLogicOperator op = true := by rcases hop with rfl | rfl | rfl <;> rfl
      refine ⟨.logicExpr op bl br, by simp [buildBooleanExpression, hcompare, hlogic, hbl, hbr], fun row env hsees => ?_⟩
      have hl := hleft row env (hsees.mono hleftSub)
      have hr := hright row env (hsees.mono hrightSub)
      rcases hop with rfl | rfl | rfl
      · rw [BooleanExpr.getValue, hl, Res.ok_bind, hr, ExpressionBase.holds, if_neg hcompare]
        cases left.holds env <;> rfl
      · rw [BooleanExpr.getValue, hl, Res.ok_bind, hr, ExpressionBase.holds, if_neg hcompare]
        cases left.holds env <;> rfl
      · rw [BooleanExpr.getValue, hl, Res.ok_bind, hr, ExpressionBase.holds, if_neg hcompare]
        rfl

/-! ## In the scope of a query -/

theorem Scoped.slotType_eq (hq : q.Scoped tables) {ref : ColumnReference} (hbound : ∃ slot, q.name2slot ref = some slot) :
    q.slotType ref = tables.typeOf ref := by
  obtain ⟨slot, hslot⟩ := hbound
  rw [slotType, Scope.typeOf, hslot, hq.slot ref slot hslot]

theorem Scoped.sees (hq : q.Scoped tables) (hshows : tables.Shows row rows) {refs : List ColumnReference}
    (hlt : ∀ ref ∈ refs, ∀ slot, tables.resolve ref = some slot → slot.tupleIndex < rows.length) :
    q.Sees refs row (tables.env rows) :=
  fun ref href slot hslot => slot_getValue hshows (hq.slot ref slot hslot) (hlt ref href slot (hq.slot ref slot hslot))

theorem buildBooleanExpression_scoped (hq : q.Scoped tables) (htyped : e.WellTyped tables.typeOf)
    (hbound : ∀ ref ∈ e.columns, ∃ slot, q.name2slot ref = some slot) :
    ∃ b, q.buildBooleanExpression e = .ok (some b) ∧
      ∀ row rows, tables.Shows row rows →
        (∀ ref ∈ e.columns, ∀ slot, tables.resolve ref = some slot → slot.tupleIndex < rows.length) →
        b.getValue row = .ok (e.holds (tables.env rows)) := by
  have htyped' : e.WellTyped q.slotType := htyped.congr fun ref href => (hq.slotType_eq (hbound ref href)).symm
  obtain ⟨b, hb, hvalue⟩ := buildBooleanExpression_correct htyped'
  exact ⟨b, hb, fun row rows hshows hlt => hvalue row _ (hq.sees hshows hlt)⟩

end QueryRealizer

end Dbms18
