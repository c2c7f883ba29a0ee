import Mathlib.Data.List.TakeWhile
import Dbms18.Common.Layout
import Dbms18.Lib.Decode
import Dbms18.Rrportal.SessionOutput

/-!
# Decoding the messages of a result

The layout of RowDescription and DataRow in version 3 of the PostgreSQL protocol as decoders. What
`SendRowDescription` and `SendRowData` send decodes to what they were given, unless the description is
so long that its size does not fit the four bytes of the length word.
-/

namespace Dbms18

open List

/-- A column of a RowDescription as a client reads it. -/
structure FieldDescription where
  name : Bytes
  relationId : Nat
  attributeId : Nat
  typeOid : Nat
  size : Nat
  modifier : Nat
  format : Nat
deriving DecidableEq

namespace Decoder

/-- A message with this id: its length word counts itself and the body, and the body is read by `d`. -/
def message {α : Type} (msgId : UInt8) (d : Decoder α) : Decoder α := do
  let type ← bytes 1
  let length ← number 4
  let body ← bytes (length - 4)
  if type = [msgId] ∧ 4 ≤ length then
    match d.decode body with
    | some a => return a
    | none => failure
  else failure

def fieldDescription : Decoder FieldDescription := do
  let name ← cstring
  let relationId ← number 4
  let attributeId ← number 2
  let typeOid ← number 4
  let size ← number 2
  let modifier ← number 4
  let format ← number 2
  return { name, relationId, attributeId, typeOid, size, modifier, format }

def rowDescription : Decoder (List FieldDescription) :=
  message Session.rowDescriptionId do times fieldDescription (← number 2)

def field : Decoder Bytes := do bytes (← number 4)

def dataRow : Decoder (List Bytes) :=
  message Session.dataRowId do times field (← number 2)

variable {α : Type} {d : Decoder α} {body : Bytes} {a : α}

theorem reads_message (msgId : UInt8) (h : d.Reads body a) (hlen : 4 + body.length < 2 ^ 32) :
    (message msgId d).Reads (Session.backendMsg msgId body) a := by
  have hword := reads_number_of_lt (w := 4) (n := 4 + body.length) hlen
  have hbody : (bytes (4 + body.length - 4)).Reads body body := by
    rw [Nat.add_sub_cancel_left]
    exact reads_bytes body
  have hbytes : Session.backendMsg msgId body = [msgId] ++ (beBytes 4 (4 + body.length) ++ (body ++ [])) := by
    simp [Session.backendMsg]
  rw [hbytes]
  refine (reads_bytes [msgId]).bind (hword.bind (hbody.bind ?_))
  rw [if_pos ⟨rfl, Nat.le_add_right ..⟩, h.decode]
  exact Reads.pure a

theorem length_le_of_message {msgId : UInt8} {bs : Bytes} (h : (message msgId d).decode bs = some a) :
    bs.length ≤ 2 ^ 32 := by
  obtain ⟨type, s₁, htype, h⟩ := bind_eq_some.1 (decode_eq_some h)
  obtain ⟨length, s₂, hlength, h⟩ := bind_eq_some.1 h
  obtain ⟨body, s₃, hbody, h⟩ := bind_eq_some.1 h
  obtain ⟨hle₁, -, rfl⟩ := bytes_eq_some.1 htype
  obtain ⟨hlen₂, hlt⟩ := number_eq_some hlength
  obtain ⟨hle₃, -, rfl⟩ := bytes_eq_some.1 hbody
  have hend : s₂.drop (length - 4) = [] ∧ 4 ≤ length := by
    split at h
    · next hcond =>
      split at h
      · exact ⟨(Prod.mk.inj (Option.some.inj h)).2, hcond.2⟩
      · cases h
    · cases h
  have hdrop := congrArg List.length hend.1
  rw [length_drop, length_nil] at hdrop
  rw [length_drop] at hlen₂
  have := hend.2
  omega

/-! ## Row descriptions -/

def described (c : ColumnDesc) : FieldDescription where
  name := c.columnName
  relationId := (c.relationId.getD 0).toNat
  attributeId := c.attributeId.toNat % 2 ^ 16
  typeOid := c.dataType.code
  size := c.dataTypeSize.toUInt16.toNat
  modifier := 2 ^ 32 - 1
  format := 0

def encodedColumn (c : ColumnDesc) : Bytes :=
  c.columnName ++ [0] ++ (beBytes 4 (c.relationId.getD 0).toNat ++ (beBytes 2 c.attributeId.toNat ++
    (beBytes 4 c.dataType.code ++ (beBytes 2 c.dataTypeSize.toUInt16.toNat ++ (beBytes 4 (2 ^ 32 - 1) ++ beBytes 2 0)))))

/-- A description whose fields are set, with as many columns as a message can count. -/
structure Sendable (desc : RowDesc) : Prop where
  count : desc.length ≤ 32767
  relationId : ∀ c ∈ desc, c.relationId.isSome
  name : ∀ c ∈ desc, ∀ x ∈ c.columnName, x ≠ 0

theorem reads_fieldDescription {c : ColumnDesc} (hname : ∀ x ∈ c.columnName, x ≠ 0) :
    fieldDescription.Reads (encodedColumn c) (described c) := by
  have hcode : c.dataType.code < 256 ^ 4 := c.dataType.code_lt.trans (by decide)
  have hbytes : encodedColumn c = c.columnName ++ [0] ++ (beBytes 4 (c.relationId.getD 0).toNat ++
      (beBytes 2 c.attributeId.toNat ++ (beBytes 4 c.dataType.code ++ (beBytes 2 c.dataTypeSize.toUInt16.toNat ++
      (beBytes 4 (2 ^ 32 - 1) ++ (beBytes 2 0 ++ [])))))) := by
    rw [encodedColumn, append_nil]
  rw [hbytes]
  refine (reads_cstring hname).bind ((reads_number_of_lt (c.relationId.getD 0).toNat_lt).bind ?_)
  refine (reads_number 2 c.attributeId.toNat).bind ((reads_number_of_lt hcode).bind ?_)
  refine (reads_number_of_lt c.dataTypeSize.toUInt16.toNat_lt).bind ?_
  refine (reads_number_of_lt (by decide)).bind ((reads_number_of_lt (by decide)).bind ?_)
  exact Reads.pure (described c)

theorem length_encodedColumn (c : ColumnDesc) : (encodedColumn c).length = c.columnName.length + 19 := by
  simp only [encodedColumn, length_append, length_beBytes, length_singleton]

theorem describeColumn_eq {desc : RowDesc} (h : Sendable desc) {i : Nat} {c : ColumnDesc} (hi : desc[i]? = some c) :
    Session.describeColumn desc i = .ok (encodedColumn c) := by
  have hc := mem_of_getElem? hi
  obtain ⟨id, hid⟩ := Option.isSome_iff_exists.1 (h.relationId c hc)
  have hname : Session.cString c.columnName = c.columnName ++ [0] := by
    have hnonzero : ∀ x ∈ c.columnName, x ≠ 0 := by simpa using h.name c hc
    rw [Session.cString, takeWhile_eq_self_iff.2 fun x hx => decide_eq_true (hnonzero x hx)]
  simp [Session.describeColumn, RowDesc.getColumnDesc, hi, hid, hname, encodedColumn]

theorem sendRowDescription_eq {desc : RowDesc} (h : Sendable desc) :
    Session.sendRowDescription desc =
      .ok (Session.backendMsg Session.rowDescriptionId (beBytes 2 desc.length ++ desc.flatMap encodedColumn)) := by
  have hcount := h.count
  have hrange : (Int16.ofNat desc.length).toNatClampNeg = desc.length := Int16.toNatClampNeg_ofNat_of_lt (by omega)
  have hword : (Int16.ofNat desc.length).toUInt16.toNat = desc.length :=
    UInt16.toNat_ofNat_of_lt (show desc.length < 65536 by omega)
  have hcolumns : (List.range desc.length).mapM (Session.describeColumn desc) = .ok (desc.map encodedColumn) := by
    refine Res.mapM_eq_ok.2 (forall₂_iff_get.2 ⟨by simp, fun i hi hi' => ?_⟩)
    have hlt : i < desc.length := by simpa using hi
    simpa using describeColumn_eq h (getElem?_eq_getElem hlt)
  simp only [Session.sendRowDescription, hrange, hcolumns, Res.ok_bind, hword, List.flatMap, Res.pure_eq]

theorem decode_sendRowDescription {desc : RowDesc} (h : Sendable desc)
    (hsize : (desc.map fun c => c.columnName.length + 19).sum + 7 ≤ 2 ^ 32) :
    ∃ bs, Session.sendRowDescription desc = .ok bs ∧ rowDescription.decode bs = some (desc.map described) := by
  refine ⟨_, sendRowDescription_eq h, Reads.decode (reads_message _ ?_ ?_)⟩
  · have hcount : desc.length < 256 ^ 2 := h.count.trans_lt (by decide)
    exact (reads_number_of_lt hcount).bind (reads_times fun c hc => reads_fieldDescription (h.name c hc))
  · have hlen : (desc.flatMap encodedColumn).length = (desc.map fun c => c.columnName.length + 19).sum := by
      rw [length_flatMap]
      simp only [length_encodedColumn]
    rw [length_append, length_beBytes, hlen]
    omega

/-! ## Rows -/

theorem length_fields_le {fields : List Bytes} {n : Nat} (h : ∀ f ∈ fields, f.length ≤ n) :
    (fields.flatMap fun f => beBytes 4 f.length ++ f).length ≤ fields.length * (4 + n) := by
  induction fields with
  | nil => simp
  | cons f fields ih =>
    have hf := h f mem_cons_self
    have hrest := ih fun f' hf' => h f' (mem_cons_of_mem _ hf')
    rw [flatMap_cons, length_append, length_append, length_beBytes, length_cons, Nat.add_mul]
    omega

theorem decode_dataRow {fields : List Bytes} (hcount : fields.length ≤ 32767) (h : ∀ f ∈ fields, f.length ≤ 65535) :
    dataRow.decode (Dbms18.dataRow fields) = some fields := by
  refine Reads.decode (reads_message _ ?_ ?_)
  · have hread : ∀ f ∈ fields, field.Reads (beBytes 4 f.length ++ f) f := by
      intro f hf
      have hlen : f.length < 256 ^ 4 := (h f hf).trans_lt (by decide)
      exact (reads_number_of_lt hlen).bind (reads_bytes f)
    have hnumber : fields.length < 256 ^ 2 := hcount.trans_lt (by decide)
    have htimes := reads_times (g := fun f => f) hread
    rw [map_id'] at htimes
    exact (reads_number_of_lt hnumber).bind htimes
  · have hlen := length_fields_le h
    have hbound : fields.length * (4 + 65535) ≤ 32767 * (4 + 65535) := Nat.mul_le_mul_right _ hcount
    rw [length_append, length_beBytes]
    omega

theorem length_text_le {t : RawTuple} {row : Row} (h : t.Holds row) {v : Value} (hv : v ∈ row) :
    v.text.length ≤ 65535 := by
  obtain ⟨j, hj⟩ := mem_iff_getElem?.1 hv
  obtain ⟨-, length, -, -, hlen, -⟩ := h j v hj
  have hdecimal : ∀ i : Int64, (decimal i.toInt).length ≤ 65535 := by
    intro i
    have hbound : i.toInt.natAbs < 10 ^ 19 := by
      have h₁ := i.toInt_lt
      have h₂ := i.le_toInt
      omega
    exact (length_decimal_le (by decide) hbound).trans (by decide)
  cases v with
  | integer i | date i => exact hdecimal i
  | float bits => exact Nat.zero_le _
  | varchar s =>
    rw [Value.text, ← show (Value.varchar s).bytes = s from rfl, ← hlen]
    exact Nat.le_of_lt_succ length.toNat_lt

end Decoder

/-- What is sent for a result with this description and for one of its rows decodes to the descriptions
of the columns and to the texts of the values. -/
theorem decode_sendRow {desc : RowDesc} {tupleRow : TupleRow} {t : RawTuple} {row : Row} (hdesc : Decoder.Sendable desc)
    (hsize : (desc.map fun c => c.columnName.length + 19).sum + 7 ≤ 2 ^ 32) (ht : tupleRow.getTuple 0 = .ok t)
    (hholds : t.Holds row) (htypes : row.map Value.dataType = desc.map ColumnDesc.dataType) :
    (∃ bs, Session.sendRowDescription desc = .ok bs ∧ Decoder.rowDescription.decode bs = some (desc.map Decoder.described)) ∧
      ∃ bs, Session.sendRowData tupleRow desc = .ok bs ∧ Decoder.dataRow.decode bs = some (row.map Value.text) := by
  have hlen : row.length = desc.length := by simpa using congrArg List.length htypes
  have hcount : row.length ≤ 32767 := hlen.trans_le hdesc.count
  refine ⟨Decoder.decode_sendRowDescription hdesc hsize, _,
    Session.sendRowData_eq ht hholds htypes (hcount.trans_lt (by decide)), Decoder.decode_dataRow ?_ fun f hf => ?_⟩
  · rwa [length_map]
  · obtain ⟨v, hv, rfl⟩ := mem_map.1 hf
    exact Decoder.length_text_le hholds hv

/-- `SELECT 5 AS a` over a stored row: one INTEGER column, and the slot and the value of the tuple. -/
theorem decode_sendRow_five :
    (∃ bs, Session.sendRowDescription [⟨ascii "a", .integer, 8, 0, some 2⟩] = .ok bs ∧
      Decoder.rowDescription.decode bs = some [⟨ascii "a", 2, 0, 20, 8, 2 ^ 32 - 1, 0⟩]) ∧
    ∃ bs, Session.sendRowData [some (Cells.ofBytes (RawTuple.layout [leBytes 8 5]))] [⟨ascii "a", .integer, 8, 0, some 2⟩] =
      .ok bs ∧ Decoder.dataRow.decode bs = some [ascii "5"] :=
  have hholds : RawTuple.Holds (Cells.ofBytes (RawTuple.layout [leBytes 8 5])) [.integer 5] := RawTuple.holds_layout (by decide)
  decode_sendRow ⟨by decide, by decide, by simp [ascii]⟩ (by decide) rfl hholds rfl

def longNamed (n : Nat) : ColumnDesc := ⟨List.replicate n 0x61, .varchar, 8, 0, some 2⟩

theorem sendable_longNamed (n : Nat) : Decoder.Sendable [longNamed n] where
  count := by simp
  relationId := by simp [longNamed]
  name := by
    intro c hc x hx
    obtain rfl := mem_singleton.1 hc
    obtain rfl := eq_of_mem_replicate hx
    decide

theorem not_decode_of_long {n : Nat} (hn : 2 ^ 32 ≤ n) : ∃ bs, Session.sendRowDescription [longNamed n] = .ok bs ∧
    Decoder.rowDescription.decode bs ≠ some ([longNamed n].map Decoder.described) := by
  refine ⟨_, Decoder.sendRowDescription_eq (sendable_longNamed n), fun h => ?_⟩
  have hlen := Decoder.length_le_of_message h
  have hname : (longNamed n).columnName.length = n := length_replicate
  simp only [Session.backendMsg, length_cons, length_append, length_beBytes, flatMap_singleton,
    Decoder.length_encodedColumn, hname] at hlen
  omega

theorem not_decode_longNamed : ∃ bs, Session.sendRowDescription [longNamed (2 ^ 32)] = .ok bs ∧
    Decoder.rowDescription.decode bs ≠ some ([longNamed (2 ^ 32)].map Decoder.described) :=
  not_decode_of_long (Nat.le_refl _)

end Dbms18
