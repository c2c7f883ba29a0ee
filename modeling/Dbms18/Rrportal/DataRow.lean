import Dbms18.Rrportal.RowDecoding

/-!
# What a DataRow tells (`Session::SendRowData`, `rrportal/session.cpp`)

`SendRowData` has no case for FLOAT, so such a column is sent as an empty field. Two rows of one description
give different messages exactly if they differ in a column of another type (`sendRowData_ne_iff`).
-/

namespace Dbms18

open List

/-- Two values of a column differ. Two FLOAT values do if they denote different numbers. -/
def Value.Differs : Value → Value → Prop
  | float a, float b => Double.compare a b = some .lt ∨ Double.compare a b = some .gt
  | v, w => v ≠ w

/-- The row of the result is laid out for the description and has these values. -/
structure LaidOut (tupleRow : TupleRow) (desc : RowDesc) (values : Row) : Prop where
  tuple : ∃ t, tupleRow.getTuple 0 = .ok t ∧ t.Holds values
  types : values.map Value.dataType = desc.map ColumnDesc.dataType

theorem Value.text_eq_iff {v w : Value} (htype : v.dataType = w.dataType) :
    v.text = w.text ↔ v.dataType = .float ∨ v = w := by
  cases v <;> cases w <;> cases htype
  case integer i j | date i j =>
    simp only [text, dataType, reduceCtorEq, false_or, integer.injEq, date.injEq]
    exact ⟨fun h => Int64.toInt_inj.1 (decimal_injective h), fun h => h ▸ rfl⟩
  case float a b => simp [text, dataType]
  case varchar s t => simp [text, dataType]

theorem dataRow_inj {fields fields' : List Bytes} (hcount : fields.length = fields'.length)
    (h : ∀ f ∈ fields, f.length ≤ 65535) (h' : ∀ f ∈ fields', f.length ≤ 65535) :
    dataRow fields = dataRow fields' ↔ fields = fields' := by
  refine ⟨fun heq => ?_, fun heq => heq ▸ rfl⟩
  have hreads : ∀ fields : List Bytes, (∀ f ∈ fields, f.length ≤ 65535) →
      (Decoder.field.times fields.length).Reads (fields.flatMap fun f => beBytes 4 f.length ++ f) fields := by
    intro fields h
    have htimes := Decoder.reads_times (g := fun f => f) fun f hf =>
      (Decoder.reads_number_of_lt (w := 4) ((h f hf).trans_lt (by decide))).bind (Decoder.reads_bytes f)
    rwa [map_id'] at htimes
  have hbody := (append_inj (List.cons.inj heq).2 (by simp)).2
  have hfields := (append_inj hbody (by simp)).2
  have hdecode := (hreads fields h).decode
  rw [hfields, hcount, (hreads fields' h').decode] at hdecode
  exact (Option.some.inj hdecode).symm

namespace LaidOut

variable {tupleRow tupleRow' : TupleRow} {desc : RowDesc} {values values' : Row}

theorem length_values (h : LaidOut tupleRow desc values) : values.length = desc.length := by
  simpa using congrArg List.length h.types

theorem sendRowData (h : LaidOut tupleRow desc values) :
    Session.sendRowData tupleRow desc = .ok (dataRow ((values.take (desc.length % 65536)).map Value.text)) ∧
      ∀ f ∈ (values.take (desc.length % 65536)).map Value.text, f.length ≤ 65535 := by
  obtain ⟨t, ht, hholds⟩ := h.tuple
  refine ⟨h.length_values ▸ Session.sendRowData_take ht hholds h.types, fun f hf => ?_⟩
  obtain ⟨v, hv, rfl⟩ := mem_map.1 hf
  exact Decoder.length_text_le hholds (mem_of_mem_take hv)

theorem dataType_eq (h : LaidOut tupleRow desc values) (h' : LaidOut tupleRow' desc values') {j : Nat} {v v' : Value}
    (hv : values[j]? = some v) (hv' : values'[j]? = some v') : v.dataType = v'.dataType := by
  have htypes := congrArg (·[j]?) (h.types.trans h'.types.symm)
  simpa [hv, hv'] using htypes

end LaidOut

/-- The messages of two rows of one description. -/
def DistinctMessages (desc : RowDesc) (tupleRow tupleRow' : TupleRow) : Prop :=
  ∃ m m', Session.sendRowData tupleRow desc = .ok m ∧ Session.sendRowData tupleRow' desc = .ok m' ∧ m ≠ m'

/-- A column that is not FLOAT, and that the 16-bit count of the columns covers, has two values. -/
def DifferInText (desc : RowDesc) (values values' : Row) : Prop :=
  ∃ j < desc.length % 65536, ∃ v v', values[j]? = some v ∧ values'[j]? = some v' ∧ v.dataType ≠ .float ∧ v ≠ v'

theorem sendRowData_ne_iff {tupleRow tupleRow' : TupleRow} {desc : RowDesc} {values values' : Row}
    (h : LaidOut tupleRow desc values) (h' : LaidOut tupleRow' desc values') :
    DistinctMessages desc tupleRow tupleRow' ↔ DifferInText desc values values' := by
  obtain ⟨hsend, hshort⟩ := h.sendRowData
  obtain ⟨hsend', hshort'⟩ := h'.sendRowData
  have hlen := h.length_values
  have hlen' := h'.length_values
  have hle := Nat.mod_le desc.length 65536
  have hmessages : DistinctMessages desc tupleRow tupleRow' ↔
      (values.take (desc.length % 65536)).map Value.text ≠ (values'.take (desc.length % 65536)).map Value.text := by
    rw [ne_eq, ← dataRow_inj (by simp [hlen, hlen']) hshort hshort']
    simp [DistinctMessages, hsend, hsend']
  rw [hmessages, ← not_iff_not, not_not]
  constructor
  · rintro heq ⟨j, hj, v, v', hv, hv', htype, hne⟩
    have hat := congrArg (·[j]?) heq
    simp only [getElem?_map, getElem?_take_of_lt hj, hv, hv', Option.map_some, Option.some.injEq] at hat
    exact ((Value.text_eq_iff (h.dataType_eq h' hv hv')).1 hat).elim htype hne
  · intro hnone
    refine ext_getElem? fun j => ?_
    simp only [getElem?_map]
    by_cases hj : j < desc.length % 65536
    · have hv : values[j]? = some values[j] := getElem?_eq_getElem (by omega)
      have hv' : values'[j]? = some values'[j] := getElem?_eq_getElem (by omega)
      have htext : values[j].text = values'[j].text := by
        rw [Value.text_eq_iff (h.dataType_eq h' hv hv')]
        by_contra hboth
        rw [not_or] at hboth
        exact hnone ⟨j, hj, _, _, hv, hv', hboth⟩
      rw [getElem?_take_of_lt hj, getElem?_take_of_lt hj, hv, hv', Option.map_some, Option.map_some, htext]
    · rw [getElem?_take, getElem?_take, if_neg hj, if_neg hj]

def oneColumn (type : DataType) : RowDesc := [⟨ascii "a", type, 8, 0, some 2⟩]

def oneValue (v : Value) : TupleRow := [some (Cells.ofBytes (RawTuple.layout [v.bytes]))]

theorem laidOut_oneValue {v : Value} (h : (RawTuple.layout [v.bytes]).length < 65536) :
    LaidOut (oneValue v) (oneColumn v.dataType) [v] :=
  ⟨⟨_, rfl, RawTuple.holds_layout h⟩, rfl⟩

theorem sendRowData_ne_iff_dates : LaidOut (oneValue (.date 1)) (oneColumn .date) [.date 1] ∧
    LaidOut (oneValue (.date 2)) (oneColumn .date) [.date 2] ∧
    DistinctMessages (oneColumn .date) (oneValue (.date 1)) (oneValue (.date 2)) := by
  have h₁ : LaidOut (oneValue (.date 1)) (oneColumn .date) [.date 1] := laidOut_oneValue (by decide)
  have h₂ : LaidOut (oneValue (.date 2)) (oneColumn .date) [.date 2] := laidOut_oneValue (by decide)
  exact ⟨h₁, h₂, (sendRowData_ne_iff h₁ h₂).2 ⟨0, by decide, _, _, rfl, rfl, by decide, by decide⟩⟩

def floatOne : Value := .float 0x3ff0000000000000
def floatTwo : Value := .float 0x4000000000000000

/-- A row with 1 and a row with 2 in a FLOAT column give the same message. -/
theorem sendRowData_floats : LaidOut (oneValue floatOne) (oneColumn .float) [floatOne] ∧
    LaidOut (oneValue floatTwo) (oneColumn .float) [floatTwo] ∧ floatOne.Differs floatTwo ∧
    Session.sendRowData (oneValue floatOne) (oneColumn .float) = Session.sendRowData (oneValue floatTwo) (oneColumn .float) ∧
    ¬ DistinctMessages (oneColumn .float) (oneValue floatOne) (oneValue floatTwo) := by
  have h₁ : LaidOut (oneValue floatOne) (oneColumn .float) [floatOne] := laidOut_oneValue (by decide)
  have h₂ : LaidOut (oneValue floatTwo) (oneColumn .float) [floatTwo] := laidOut_oneValue (by decide)
  have hsame := h₁.sendRowData.1.trans h₂.sendRowData.1.symm
  refine ⟨h₁, h₂, .inl (by decide), hsame, ?_⟩
  rintro ⟨m, m', hm, hm', hne⟩
  exact hne (Except.ok.inj (hm.symm.trans (hsame.trans hm')))

end Dbms18
