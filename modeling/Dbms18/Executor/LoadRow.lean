import Dbms18.Executor.Load

/-!
# What the loader makes of one line

The loader writes the slots and the values of a line into one block of a page, which it uses again for
every line. It compares neither the total with the size of the page nor a VARCHAR with the length that
its column declares.
-/

namespace Dbms18

open List

namespace RawTuple

/-- A column read through its slot, by the accessor of its type. -/
def readColumn (t : RawTuple) (type : DataType) (nth : Nat) : Res Value := do
  let offset ← t.slotOffset nth
  let length ← t.slotLength nth
  match type with
  | .integer => return .integer (← t.getInteger offset.toNat).toInt64
  | .float => return .float (← t.getDouble offset.toNat)
  | .date => return .date (← t.getInteger offset.toNat).toInt64
  | .varchar => return .varchar (← t.getValue offset.toNat length.toNat)
  | _ => .error .assertion

variable {t : RawTuple} {row : Row} {j : Nat} {v : Value}

theorem Holds.readColumn (h : t.Holds row) (hj : row[j]? = some v) : t.readColumn v.dataType j = .ok v := by
  obtain ⟨offset, length, hoffset, hlength, hlen, hvalue⟩ := h j v hj
  cases v with
  | integer i =>
    simp [RawTuple.readColumn, hoffset, hlength, Value.dataType, getInteger_of_load hvalue]
  | float bits =>
    simp [RawTuple.readColumn, hoffset, hlength, Value.dataType, getDouble_of_load hvalue]
  | date d =>
    simp [RawTuple.readColumn, hoffset, hlength, Value.dataType, getInteger_of_load hvalue]
  | varchar text =>
    simp only [Value.bytes] at hlen hvalue
    simp [RawTuple.readColumn, hoffset, hlength, Value.dataType, hlen, hvalue]

theorem Holds.eq_of_types {row' : Row} (h : t.Holds row) (h' : t.Holds row')
    (htypes : row.map Value.dataType = row'.map Value.dataType) : row = row' := by
  refine ext_getElem? fun j => ?_
  have hj := congrArg (·[j]?) htypes
  simp only [getElem?_map] at hj
  cases hv : row[j]? with
  | none =>
    rw [hv] at hj
    exact (Option.map_eq_none_iff.1 hj.symm).symm
  | some v =>
    rw [hv] at hj
    obtain ⟨v', hv', htype⟩ := Option.map_eq_some_iff.1 hj.symm
    have hread := h'.readColumn hv'
    rw [htype, h.readColumn hv] at hread
    rw [hv', Except.ok.inj hread]

theorem Holds.slotValue (h : t.Holds row) (hj : row[j]? = some v) : t.slotValue j = .ok v.bytes := by
  obtain ⟨offset, length, hoffset, hlength, hlen, hvalue⟩ := h j v hj
  simp [RawTuple.slotValue, hoffset, hlength, hlen, hvalue]

end RawTuple

namespace Load

variable {rel : Relation} {row : Row} {tuple : RawTuple}

theorem Fits.holds (h : Fits rel row) : RawTuple.Holds (Cells.ofBytes row.record) row :=
  RawTuple.holds_layout (h.size.trans_lt (by decide))

/-- The bytes that the loader puts for a row that fits the page have the computed length and give back
every value, whatever the block held before. -/
theorem put_of_fits (htyped : row.Typed rel)
    (hsize : sizeofSlot * row.length + (row.map fun v => v.bytes.length).sum ≤ 8192) (htuple : tuple.length = pageSize) :
    ∃ bytes t, t.length = pageSize ∧ bytes.length = sizeofSlot * row.length + (row.map fun v => v.bytes.length).sum ∧
      (∀ h uuid lines count s, readLines rel.toDesc h (⟨uuid, readable row⟩ :: lines) count tuple s = (do
        Res.check (0 < bytes.length) .assertion
        let s ← s.put h uuid bytes
        readLines rel.toDesc h lines (count + 1) t s)) ∧
      ∀ j v, row[j]? = some v → RawTuple.readColumn (Cells.ofBytes bytes) v.dataType j = .ok v ∧
        RawTuple.slotValue (Cells.ofBytes bytes) j = .ok v.bytes := by
  have hlength : row.record.length = sizeofSlot * row.length + (row.map fun v => v.bytes.length).sum := by
    rw [Row.record, RawTuple.length_layout, length_map, length_flatten, map_map]
    rfl
  have hfits : Fits rel row := ⟨htyped, hlength.trans_le hsize⟩
  obtain ⟨t, hwrite, hvalue, hlen⟩ := writeRow_eq hfits htuple
  refine ⟨row.record, t, hlen, hlength, fun h uuid lines count s => ?_, fun j v hj => ?_⟩
  · simp [readLines, hwrite, hvalue]
  · exact ⟨hfits.holds.readColumn hj, hfits.holds.slotValue hj⟩

def notes : Relation where
  name := ascii "notes"
  id := 1025
  attributes := [{ name := ascii "n", dataType := .integer }, { name := ascii "note", dataType := .varchar, maxLength := 4 }]

theorem put_of_fits_notes : ∃ bytes : Bytes, bytes.length = 18 ∧
    RawTuple.readColumn (Cells.ofBytes bytes) .integer 0 = .ok (.integer 5) ∧
    RawTuple.slotValue (Cells.ofBytes bytes) 1 = .ok (ascii "ab") := by
  have htyped : Row.Typed [.integer 5, .varchar (ascii "ab")] notes := rfl
  have htuple : (List.replicate pageSize none : RawTuple).length = pageSize := length_replicate
  obtain ⟨bytes, -, -, hlen, -, hread⟩ := put_of_fits htyped (by decide) htuple
  exact ⟨bytes, hlen, (hread 0 _ rfl).1, (hread 1 _ rfl).2⟩

/-! ## Bounds -/

/-- The values that are read before the reader throws. -/
def readValues : List CsvField → Row
  | .ok (some value) :: fields => value :: readValues fields
  | _ => []

def Accepted (fields : List CsvField) : Prop := (readValues fields).length = fields.length

instance (fields : List CsvField) : Decidable (Accepted fields) := inferInstanceAs (Decidable (_ = _))

variable {fields : List CsvField}

theorem Accepted.eq_readable (h : Accepted fields) : fields = readable (readValues fields) := by
  induction fields with
  | nil => rfl
  | cons field fields ih =>
    match field with
    | .ok (some value) => exact congrArg (.ok (some value) :: ·) (ih (Nat.succ.inj h))
    | .ok none => cases h
    | .error _ => cases h

theorem length_readValues_le (fields : List CsvField) : (readValues fields).length ≤ fields.length := by
  induction fields with
  | nil => exact le_rfl
  | cons field fields ih =>
    match field with
    | .ok (some value) => exact Nat.succ_le_succ ih
    | .ok none => exact Nat.zero_le _
    | .error _ => exact Nat.zero_le _

theorem dataType_of_readField {host : Host} {type : DataType} {text : Bytes} {value : Value}
    (h : readField host type text = .ok (some value)) : value.dataType = type := by
  cases type with
  | integer =>
    obtain ⟨i, -, rfl⟩ := Option.map_eq_some_iff.1 (Except.ok.inj h)
    rfl
  | float =>
    obtain ⟨bits, -, rfl⟩ := Option.map_eq_some_iff.1 (Except.ok.inj h)
    rfl
  | varchar =>
    obtain rfl := Option.some.inj (Except.ok.inj h)
    rfl
  | date =>
    obtain ⟨d, -, h⟩ := Res.bind_eq_ok.1 h
    obtain rfl := Option.some.inj (Except.ok.inj h)
    rfl
  | invalid => cases h
  | boolean => cases h

/-- What the reader makes of a line of the relation: a value of the column's type or a `runtime_error` for
each column. -/
structure LineOf (types : List DataType) (fields : List CsvField) : Prop where
  length : fields.length = types.length
  field : ∀ c ∈ types.zip fields, ∃ value, c.2 = .ok value ∧ ∀ v, value = some v → v.dataType = c.1

variable {types : List DataType}

theorem LineOf.tail {type : DataType} {field : CsvField} (h : LineOf (type :: types) (field :: fields)) : LineOf types fields :=
  ⟨Nat.succ.inj h.length, fun c hc => h.field c (mem_cons_of_mem _ hc)⟩

theorem LineOf.typed (h : LineOf types fields) :
    ∀ c ∈ types.zip (readValues fields), c.2.dataType = c.1 := by
  induction types generalizing fields with
  | nil => simp
  | cons type types ih =>
    match fields with
    | [] => simp [readValues]
    | .ok none :: fields => simp [readValues]
    | .error _ :: fields => simp [readValues]
    | .ok (some value) :: fields =>
      obtain ⟨value', heq, htype⟩ := h.field (type, .ok (some value)) mem_cons_self
      rw [readValues, zip_cons_cons, forall_mem_cons]
      exact ⟨htype value (Except.ok.inj heq).symm, ih h.tail⟩

theorem writeColumns_eq (h : LineOf types fields) (i : Nat)
    (acc : RawTuple × Nat) : writeColumns ((types.zip fields).zipIdx i) acc = (do
      let (t, off) ← ((types.zip (readValues fields)).zipIdx i).foldlM writeColumn acc
      return (t, if Accepted fields then some off else none)) := by
  induction types generalizing fields i acc with
  | nil =>
    obtain rfl := length_eq_zero_iff.1 h.length
    rfl
  | cons type types ih =>
    match fields with
    | [] => cases h.length
    | .error e :: fields =>
      obtain ⟨value, heq, -⟩ := h.field (type, .error e) mem_cons_self
      cases heq
    | .ok none :: fields => rfl
    | .ok (some value) :: fields =>
      rw [readValues, zip_cons_cons, zip_cons_cons, zipIdx_cons, zipIdx_cons, foldlM_cons]
      have hiff : Accepted (.ok (some value) :: fields) ↔ Accepted fields := Nat.succ_inj
      simp only [writeColumns, Res.ok_bind, bind_assoc, ih h.tail, hiff]

theorem lineOf_readFields {host : Host} {delimiter : UInt8} {text : Bytes}
    (h : ∀ field ∈ readFields host delimiter types text, ∃ value, field = .ok value) :
    LineOf types (readFields host delimiter types text) := by
  refine ⟨length_readFields host delimiter types text, ?_⟩
  induction types generalizing text with
  | nil => simp
  | cons type types ih =>
    rw [readFields, forall_mem_cons] at h
    obtain ⟨⟨value, hvalue⟩, hrest⟩ := h
    rw [readFields, zip_cons_cons, forall_mem_cons]
    refine ⟨⟨value, hvalue, ?_⟩, ih hrest⟩
    rintro v rfl
    exact dataType_of_readField hvalue

/-- Whatever the block holds, no write of the line leaves it, and if the line is accepted, the slots have
the offsets and lengths they were assigned and every VARCHAR is as long as its column allows. -/
def LineSafe (rel : Relation) (fields : List CsvField) : Prop :=
  ∀ tuple : RawTuple, tuple.length = pageSize → ∃ t off, writeRow rel.toDesc fields tuple = .ok (t, off) ∧
    (off.isSome → ∀ j v, fields[j]? = some (.ok (some v)) →
      (∃ offset length, t.slotOffset j = .ok offset ∧ t.slotLength j = .ok length ∧
        offset.toNat = RawTuple.valueOffset ((readValues fields).map Value.bytes) j ∧ length.toNat = v.bytes.length) ∧
      ∀ a text, rel.attributes[j]? = some a → v = .varchar text → text.length ≤ a.maxLength.toNat)

def RoomFor (rel : Relation) (fields : List CsvField) : Prop :=
  readValues fields = [] ∨
    sizeofSlot * rel.attributes.length + ((readValues fields).map Value.bytes).flatten.length ≤ pageSize

/-- If the line is accepted, every VARCHAR is as long as its column allows. -/
def WithinLengths (rel : Relation) (fields : List CsvField) : Prop :=
  Accepted fields → ∀ (j : Nat) a text, rel.attributes[j]? = some a → fields[j]? = some (.ok (some (.varchar text))) →
    text.length ≤ a.maxLength.toNat

section Bounds

variable {fields : List CsvField} (h : LineOf (rel.attributes.map Attribute.dataType) fields)
include h

theorem LineOf.writeRow_eq (tuple : RawTuple) : writeRow rel.toDesc fields tuple = (do
    let (t, off) ← ((rel.attributes.map Attribute.dataType).zip (readValues fields)).zipIdx.foldlM writeColumn
      (tuple, sizeofSlot * rel.attributes.length)
    return (t, if Accepted fields then some off else none)) := by
  rw [writeRow, rel.map_dataType_toDesc, rel.length_toDesc, writeColumns_eq h]

theorem LineOf.map_zip : ((rel.attributes.map Attribute.dataType).zip (readValues fields)).map (fun c => c.2.bytes) =
    (readValues fields).map Value.bytes := by
  have hle := (length_readValues_le fields).trans h.length.le
  have hsnd : ((rel.attributes.map Attribute.dataType).zip (readValues fields)).map Prod.snd = readValues fields :=
    map_snd_zip hle
  conv_rhs => rw [← hsnd, map_map]
  rfl

theorem LineOf.writeColumn_eq : ∀ c ∈ (rel.attributes.map Attribute.dataType).zip (readValues fields), ∀ t off i,
    writeColumn (t, off) (c, i) = (do
      let t ← t.setSlot i off c.2.bytes.length
      let t ← t.setValue off c.2.bytes
      return (t, off + c.2.bytes.length)) :=
  fun c hc _ off i => Load.writeColumn_eq (h.typed c hc) off i

theorem LineOf.roomFor {t : RawTuple} {off : Option Nat} (htuple : tuple.length = pageSize)
    (hwrite : writeRow rel.toDesc fields tuple = .ok (t, off)) : RoomFor rel fields := by
  by_cases hvalues : readValues fields = []
  · exact .inl hvalues
  refine .inr ?_
  rw [h.writeRow_eq] at hwrite
  obtain ⟨r, hfold, -⟩ := Res.bind_eq_ok.1 hwrite
  have hle := (length_readValues_le fields).trans h.length.le
  have hne : (rel.attributes.map Attribute.dataType).zip (readValues fields) ≠ [] := by
    intro hnil
    have hlen := congrArg List.length hnil
    rw [length_zip, Nat.min_eq_right hle] at hlen
    exact hvalues (length_eq_zero_iff.1 hlen)
  have hroom := (RawTuple.room_of_foldlM (fun _ _ => rfl) h.writeColumn_eq hne htuple hfold).2
  rwa [h.map_zip] at hroom

theorem LineOf.writeRow_of_roomFor (hroom : sizeofSlot * rel.attributes.length +
      ((readValues fields).map Value.bytes).flatten.length ≤ pageSize) (htuple : tuple.length = pageSize) :
    ∃ t off, writeRow rel.toDesc fields tuple = .ok (t, if Accepted fields then some off else none) ∧
      RawTuple.Laid rel.attributes.length t ((readValues fields).map Value.bytes) := by
  have hle := (length_readValues_le fields).trans h.length.le
  have hslots : sizeofSlot * rel.attributes.length ≤ tuple.length := by omega
  obtain ⟨t, hfold, hlaid, -⟩ := (RawTuple.Laid.nil hslots).foldlM h.writeColumn_eq (by simp) (by
    rw [h.map_zip]
    simpa [htuple] using hroom)
  rw [h.map_zip, nil_append] at hfold hlaid
  refine ⟨t, sizeofSlot * rel.attributes.length + ((readValues fields).map Value.bytes).flatten.length, ?_, hlaid⟩
  rw [h.writeRow_eq]
  simp only [flatten_nil, length_nil, Nat.add_zero] at hfold
  rw [hfold]
  rfl

theorem LineOf.lineSafe (hroom : RoomFor rel fields) (hlengths : WithinLengths rel fields) : LineSafe rel fields := by
  intro tuple htuple
  rcases hroom with hnil | hroom
  · -- Nothing is read, so only a line without fields is accepted.
    refine ⟨tuple, if Accepted fields then some (sizeofSlot * rel.attributes.length) else none, ?_, ?_⟩
    · rw [h.writeRow_eq, hnil, zip_nil_right]
      rfl
    · intro hsome j v hj
      split at hsome
      · next haccepted =>
        rw [haccepted.eq_readable, hnil] at hj
        cases hj
      · cases hsome
  · obtain ⟨t, off, hwrite, hlaid⟩ := h.writeRow_of_roomFor hroom htuple
    refine ⟨t, _, hwrite, fun hsome j v hj => ?_⟩
    split at hsome
    case isFalse => cases hsome
    next haccepted =>
    refine ⟨?_, fun a text ha hv => hlengths haccepted j a text ha (hv ▸ hj)⟩
    have hcount : ((readValues fields).map Value.bytes).length = rel.attributes.length := by
      rw [length_map, haccepted, h.length, length_map]
    have hload := (hcount ▸ hlaid).load_layout
    have hlen := RawTuple.length_layout ((readValues fields).map Value.bytes)
    have hvalue : ((readValues fields).map Value.bytes)[j]? = some v.bytes := by
      rw [haccepted.eq_readable, readable, getElem?_map, Option.map_eq_some_iff] at hj
      obtain ⟨v', hv', heq⟩ := hj
      obtain rfl := Option.some.inj (Except.ok.inj heq)
      rw [getElem?_map, hv', Option.map_some]
    have hj := (List.getElem?_eq_some_iff.1 hvalue).1
    obtain ⟨hoffset, hlength, -⟩ := RawTuple.load_layout_of_getElem? hvalue
    have hbound := RawTuple.valueOffset_add_length_le hvalue
    rw [Cells.load_ofBytes_of_load hload (by simp only [sizeofSlot] at hlen ⊢; omega)] at hoffset hlength
    simp only [pageSize] at hroom
    rw [hcount] at hlen
    exact ⟨_, _, RawTuple.slotOffset_of_load j hoffset, RawTuple.slotLength_of_load j hlength,
      RawTuple.toNat_toUInt16 (by omega), RawTuple.toNat_toUInt16 (by omega)⟩

theorem LineOf.lineSafe_iff : LineSafe rel fields ↔ RoomFor rel fields ∧ WithinLengths rel fields := by
  refine ⟨fun hsafe => ?_, fun ⟨hroom, hlengths⟩ => h.lineSafe hroom hlengths⟩
  obtain ⟨t, off, hwrite, hslots⟩ := hsafe (List.replicate pageSize none) length_replicate
  refine ⟨h.roomFor length_replicate hwrite, fun haccepted j a text ha hj => ?_⟩
  rw [h.writeRow_eq] at hwrite
  obtain ⟨r, -, heq⟩ := Res.bind_eq_ok.1 hwrite
  obtain ⟨-, rfl⟩ := Prod.mk.inj (Except.ok.inj heq)
  exact (hslots (by rw [if_pos haccepted]; rfl) j _ hj).2 a text ha rfl

end Bounds

/-- The writes of a line stay in the block and its VARCHARs within their columns exactly if the values fit
the page and the file keeps to the lengths: the loader does not see to either. -/
theorem lineSafe_readFields_iff {host : Host} {delimiter : UInt8} {text : Bytes}
    (hread : ∀ field ∈ readFields host delimiter (rel.attributes.map Attribute.dataType) text, ∃ value, field = .ok value) :
    LineSafe rel (readFields host delimiter (rel.attributes.map Attribute.dataType) text) ↔
      RoomFor rel (readFields host delimiter (rel.attributes.map Attribute.dataType) text) ∧
        WithinLengths rel (readFields host delimiter (rel.attributes.map Attribute.dataType) text) :=
  (lineOf_readFields hread).lineSafe_iff

def numbering : Host := ⟨fun _ => none, fun _ => .error .assertion, fun i => decimal i, .ok⟩

theorem readFields_notes : readFields numbering 0x2c (notes.attributes.map Attribute.dataType) (ascii "5,abcd") =
    readable [.integer 5, .varchar (ascii "abcd")] := by decide

theorem lineSafe_readFields_notes :
    LineSafe notes (readFields numbering 0x2c (notes.attributes.map Attribute.dataType) (ascii "5,abcd")) := by
  refine (lineSafe_readFields_iff ?_).2 ?_
  · rw [readFields_notes]
    simp [readable]
  rw [readFields_notes]
  refine ⟨.inr (by decide), fun _ j a text ha hj => ?_⟩
  rcases j with _ | _ | j
  · simp [readable] at hj
  · obtain rfl := Option.some.inj ha
    obtain rfl := Value.varchar.inj (Option.some.inj (Except.ok.inj (Option.some.inj hj)))
    decide
  · cases hj

theorem lineOf_notes (text : Bytes) :
    LineOf (notes.attributes.map Attribute.dataType) (readable [.integer 5, .varchar text]) := by
  refine ⟨rfl, ?_⟩
  simp [notes, readable, Value.dataType]

theorem not_roomFor_notes {text : Bytes} (h : pageSize ≤ text.length) :
    ¬ RoomFor notes (readable [.integer 5, .varchar text]) := by
  rintro (hnil | hroom)
  · cases hnil
  · have hlen : ((readValues (readable [.integer 5, .varchar text])).map Value.bytes).flatten.length = 8 + text.length := by
      simp [readValues, readable, Value.bytes]
    rw [hlen] at hroom
    simp only [notes, length_cons, sizeofSlot] at hroom
    omega

/-- A text longer than its column allows is stored, and one longer than the page is written outside the
block. -/
theorem not_lineSafe_notes :
    ¬ LineSafe notes (readFields numbering 0x2c (notes.attributes.map Attribute.dataType) (ascii "5,abcde")) ∧
      ¬ LineSafe notes (readable [.integer 5, .varchar (List.replicate pageSize 0x61)]) := by
  constructor
  · have hfields : readFields numbering 0x2c (notes.attributes.map Attribute.dataType) (ascii "5,abcde") =
        readable [.integer 5, .varchar (ascii "abcde")] := by decide
    rw [hfields, (lineOf_notes _).lineSafe_iff]
    rintro ⟨-, hlengths⟩
    exact absurd (hlengths rfl 1 _ _ rfl rfl) (by decide)
  · rw [(lineOf_notes _).lineSafe_iff]
    exact fun hsafe => not_roomFor_notes length_replicate.ge hsafe.1

end Load

end Dbms18
