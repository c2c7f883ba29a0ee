import Dbms18.Executor.LoadFile
import Dbms18.Storage.Handles

/-!
# Where a load stops (`Load::Exec`)

A load ends with an error state at the first line with a field that cannot be read, if it comes that far:
the lines before it and the fields before the unreadable one are written into the page, and the loader does
not see to it that they fit (`cmd_fails_iff`).
-/

namespace Dbms18

open Res List

namespace LevelStore

variable {s : LevelStore} {h : Nat} {relid : RelationId} {kind : HandlerKind}

theorem WriterAt.exists_put {batch : List WriteOp} (hw : s.WriterAt h relid batch) (tupleId tuple : Bytes) :
    ∃ s', s.put h tupleId tuple = .ok s' := by
  obtain ⟨s', hset, -⟩ := setWriter_of_writerAt hw ((⟨s.databases relid, batch⟩ : WriteHandlerImpl).put tupleId tuple)
  exact ⟨s', by rw [LevelStore.put, writer_of_writerAt hw, ok_bind, hset]⟩

theorem Wf.exists_newHandler_iff (hs : s.Wf) : (∃ r, s.newHandler kind relid = .ok r) ↔ s.Openable kind relid := by
  rw [hs.openable_iff]
  cases hmap : s.handlerMap kind relid with
  | some h =>
    obtain ⟨handler, hh, -⟩ := hs.live hmap
    exact iff_of_true ⟨_, newHandler_of_mapped hmap hh⟩ (.inl (by simp))
  | none =>
    cases hopen : s.opened relid with
    | true => exact iff_of_false (by simp [newHandler_of_opened hmap hopen]) (by simp)
    | false => exact iff_of_true ⟨_, newHandler_of_unmapped hmap hopen⟩ (.inr rfl)

end LevelStore

namespace Load

variable {rel : Relation} {tuple t : RawTuple} {fields : List CsvField} {s : LevelStore} {h : Nat}

structure TypedLine (types : List DataType) (fields : List CsvField) : Prop where
  length : fields.length = types.length
  typed : ∀ c ∈ types.zip fields, ∀ v, c.2 = .ok (some v) → v.dataType = c.1

theorem TypedLine.tail {type : DataType} {types : List DataType} {field : CsvField}
    (h : TypedLine (type :: types) (field :: fields)) : TypedLine types fields :=
  ⟨Nat.succ.inj h.length, fun c hc => h.typed c (mem_cons_of_mem _ hc)⟩

theorem typedLine_readFields (host : Host) (delimiter : UInt8) (types : List DataType) (text : Bytes) :
    TypedLine types (readFields host delimiter types text) := by
  refine ⟨length_readFields host delimiter types text, ?_⟩
  induction types generalizing text with
  | nil => simp
  | cons type types ih =>
    rw [readFields, zip_cons_cons, forall_mem_cons]
    exact ⟨fun v hv => dataType_of_readField hv, ih _⟩

theorem writeColumns_eq_none_iff {types : List DataType} (h : TypedLine types fields) (i : Nat) (acc : RawTuple × Nat) :
    writeColumns ((types.zip fields).zipIdx i) acc = .ok (t, none) ↔
      ∃ (values : Row) (rest : List CsvField) (off : Nat), fields = readable values ++ .ok none :: rest ∧
        ((types.zip values).zipIdx i).foldlM writeColumn acc = .ok (t, off) := by
  induction types generalizing fields i acc with
  | nil =>
    obtain rfl := length_eq_zero_iff.1 h.length
    refine iff_of_false (fun hwrite => ?_) ?_
    · cases (Prod.mk.inj (Except.ok.inj hwrite)).2
    · rintro ⟨values, rest, off, heq, -⟩
      simp at heq
  | cons type types ih =>
    obtain ⟨field, fields, rfl⟩ := exists_cons_of_length_eq_add_one h.length
    rw [zip_cons_cons, zipIdx_cons, writeColumns]
    rcases field with e | (_ | value)
    · refine iff_of_false (by simp) ?_
      rintro ⟨_ | ⟨v, values⟩, rest, off, heq, -⟩ <;> cases (List.cons.inj heq).1
    · constructor
      · intro hwrite
        obtain ⟨rfl, -⟩ := Prod.mk.inj (Except.ok.inj hwrite)
        exact ⟨[], fields, acc.2, rfl, rfl⟩
      · rintro ⟨_ | ⟨v, values⟩, rest, off, heq, hfold⟩
        · obtain ⟨rfl, rfl⟩ : acc.1 = t ∧ acc.2 = off := by simpa [zip_nil_right, Prod.ext_iff] using hfold
          rfl
        · cases (List.cons.inj heq).1
    · simp only [ok_bind, bind_eq_ok, ih h.tail]
      constructor
      · rintro ⟨acc', hcolumn, values, rest, off, rfl, hfold⟩
        refine ⟨value :: values, rest, off, rfl, ?_⟩
        rw [zip_cons_cons, zipIdx_cons, foldlM_cons, hcolumn]
        exact hfold
      · rintro ⟨_ | ⟨v, values⟩, rest, off, heq, hfold⟩
        · cases (List.cons.inj heq).1
        · obtain ⟨hv, rfl⟩ := List.cons.inj heq
          obtain rfl := Option.some.inj (Except.ok.inj hv)
          rw [zip_cons_cons, zipIdx_cons, foldlM_cons, bind_eq_ok] at hfold
          obtain ⟨acc', hcolumn, hfold⟩ := hfold
          exact ⟨acc', hcolumn, values, rest, off, rfl, hfold⟩

/-- A field of the line cannot be read, and the values before it need no more than a page. -/
def Unread (rel : Relation) (fields : List CsvField) : Prop :=
  ∃ (values : Row) (rest : List CsvField), fields = readable values ++ .ok none :: rest ∧
    (values = [] ∨ sizeofSlot * rel.attributes.length + (values.map Value.bytes).flatten.length ≤ pageSize)

theorem writeRow_eq_none_iff (h : TypedLine (rel.attributes.map Attribute.dataType) fields)
    (htuple : tuple.length = pageSize) : (∃ t, writeRow rel.toDesc fields tuple = .ok (t, none)) ↔ Unread rel fields := by
  have hwrite : ∀ t, writeRow rel.toDesc fields tuple = .ok (t, none) ↔ _ := fun t => by
    rw [writeRow, rel.map_dataType_toDesc, rel.length_toDesc, writeColumns_eq_none_iff h]
  simp only [hwrite]
  -- the values before the unreadable field are written like those of a whole line
  have hcolumns : ∀ {values : Row} {rest : List CsvField}, fields = readable values ++ .ok none :: rest →
      values.length ≤ rel.attributes.length ∧
      (((rel.attributes.map Attribute.dataType).zip values).map fun c => c.2.bytes) = values.map Value.bytes ∧
      ∀ c ∈ (rel.attributes.map Attribute.dataType).zip values, ∀ t off i, writeColumn (t, off) (c, i) = (do
        let t ← t.setSlot i off c.2.bytes.length
        let t ← t.setValue off c.2.bytes
        return (t, off + c.2.bytes.length)) := by
    rintro values rest rfl
    have hlen := h.length
    simp only [length_append, readable, length_map, length_cons] at hlen
    have hle : values.length ≤ (rel.attributes.map Attribute.dataType).length := by simp; omega
    refine ⟨by omega, ?_, fun c hc t off i => writeColumn_eq ?_ off i⟩
    · conv_rhs => rw [← map_snd_zip hle, map_map]
      rfl
    · obtain ⟨j, hj⟩ := mem_iff_getElem?.1 hc
      obtain ⟨htype, hvalue⟩ := getElem?_zip_eq_some.1 hj
      refine h.typed (c.1, .ok (some c.2)) (mem_iff_getElem?.2 ⟨j, getElem?_zip_eq_some.2 ⟨htype, ?_⟩⟩) c.2 rfl
      have hj := (List.getElem?_eq_some_iff.1 hvalue).1
      rw [getElem?_append_left (by simpa [readable] using hj), readable, getElem?_map, hvalue]
      rfl
  constructor
  · rintro ⟨t, values, rest, off, heq, hfold⟩
    obtain ⟨hle, hbytes, hcolumn⟩ := hcolumns heq
    refine ⟨values, rest, heq, or_iff_not_imp_left.2 fun hne => ?_⟩
    have hne' : (rel.attributes.map Attribute.dataType).zip values ≠ [] := by
      intro hnil
      have hlen := congrArg List.length hnil
      rw [length_zip, length_map, Nat.min_eq_right hle] at hlen
      exact hne (length_eq_zero_iff.1 hlen)
    have hroom := (RawTuple.room_of_foldlM (fun _ _ => rfl) hcolumn hne' htuple hfold).2
    rwa [hbytes] at hroom
  · rintro ⟨values, rest, heq, rfl | hroom⟩
    · exact ⟨tuple, [], rest, sizeofSlot * rel.attributes.length, heq, by rw [zip_nil_right]; rfl⟩
    · obtain ⟨hle, hbytes, hcolumn⟩ := hcolumns heq
      have hslots : sizeofSlot * rel.attributes.length ≤ tuple.length := by omega
      obtain ⟨t, hfold, -⟩ := (RawTuple.Laid.nil hslots).foldlM hcolumn (by simp) (by
        rw [hbytes]
        simpa [htuple] using hroom)
      exact ⟨t, values, rest, _, heq, hfold⟩

/-- The load of the lines stops: every line before the first unreadable one is read and fits the page. -/
def Stops (rel : Relation) (lines : List CsvLine) : Prop :=
  ∃ (rows : List (Bytes × Row)) (bad : CsvLine) (rest : List CsvLine), lines = rows.map line ++ bad :: rest ∧
    (∀ r ∈ rows, Fits rel r.2) ∧ Unread rel bad.fields

theorem readLines_eq_none_iff {relid : RelationId} {batch : List WriteOp} {lines : List CsvLine}
    (hlines : ∀ line ∈ lines, TypedLine (rel.attributes.map Attribute.dataType) line.fields)
    (htuple : tuple.length = pageSize) (hw : s.WriterAt h relid batch) (count : Int32) :
    (∃ t s', readLines rel.toDesc h lines count tuple s = .ok (none, t, s')) ↔ Stops rel lines := by
  induction lines generalizing count tuple s batch with
  | nil =>
    refine iff_of_false ?_ ?_
    · rintro ⟨t, s', hread⟩
      cases (Prod.mk.inj (Except.ok.inj hread)).1
    · rintro ⟨rows, bad, rest, heq, -⟩
      simp at heq
  | cons csv lines ih =>
    rw [forall_mem_cons] at hlines
    obtain ⟨hcsv, hlines⟩ := hlines
    constructor
    · rintro ⟨t, s', hread⟩
      obtain ⟨⟨tuple', off⟩, hwrite, hread⟩ := bind_eq_ok.1 hread
      cases off with
      | none => exact ⟨[], csv, lines, rfl, by simp, (writeRow_eq_none_iff hcsv htuple).1 ⟨tuple', hwrite⟩⟩
      | some off =>
        simp only [bind_eq_ok] at hread
        obtain ⟨_, hoff, bytes, -, s₁, hput, hread⟩ := hread
        obtain ⟨row, hfields, hfits, -, htuple'⟩ :=
          writeRow_eq_some (hcsv.length.trans (length_map _)) htuple hwrite (check_eq_ok.1 hoff)
        obtain ⟨rows, bad, rest, rfl, hrows, hbad⟩ := (ih hlines htuple' (hw.put hput) (count + 1)).1 ⟨t, s', hread⟩
        refine ⟨(csv.uuid, row) :: rows, bad, rest, ?_, forall_mem_cons.2 ⟨hfits, hrows⟩, hbad⟩
        rw [map_cons, line, ← hfields]
        rfl
    · rintro ⟨_ | ⟨r, rows⟩, bad, rest, heq, hrows, hbad⟩
      · obtain ⟨rfl, rfl⟩ := List.cons.inj heq
        obtain ⟨t, hwrite⟩ := (writeRow_eq_none_iff hcsv htuple).2 hbad
        exact ⟨t, s, by simp [readLines, hwrite]⟩
      · obtain ⟨rfl, rfl⟩ := List.cons.inj heq
        have hfits := hrows r mem_cons_self
        have hrow : r.2 ≠ [] := by
          -- the unreadable line has a field, so there is a column
          intro hnil
          have hbad' := (hlines bad (by simp)).length
          obtain ⟨values, fields, hfields, -⟩ := hbad
          rw [hfields, ← hfits.typed, hnil] at hbad'
          simp at hbad'
        obtain ⟨t, hwrite, hvalue, hlen⟩ := writeRow_eq hfits htuple
        obtain ⟨s₁, hput⟩ := hw.exists_put r.1 r.2.record
        obtain ⟨t', s', hread⟩ := (ih hlines hlen (hw.put hput) (count + 1)).2
          ⟨rows, bad, rest, rfl, fun r' hr' => hrows r' (mem_cons_of_mem _ hr'), hbad⟩
        refine ⟨t', s', ?_⟩
        simpa [readLines, line, hwrite, check_of (length_record_pos hrow), hvalue, hput] using hread

theorem typedLine_of_csvLines {host : Host} {delimiter : UInt8} {content : Bytes} {lines : List CsvLine}
    (hlines : csvLines host delimiter rel.toDesc content = .ok lines) :
    ∀ line ∈ lines, TypedLine (rel.attributes.map Attribute.dataType) line.fields := by
  obtain ⟨texts, -, heq⟩ := bind_eq_ok.1 hlines
  obtain rfl := Except.ok.inj heq
  intro line hline
  obtain ⟨i, hi, rfl⟩ := mem_mapIdx.1 hline
  rw [rel.map_dataType_toDesc]
  exact typedLine_readFields ..

theorem cmd_fails_iff {host : Host} {relName content : Bytes} {delimiter : UInt8} {catalog : Catalog}
    (hrel : catalog.getRelation relName = some rel) (hs : s.Wf) :
    (∃ state response s', cmd host relName delimiter (some content) catalog s = .ok (state, response, s') ∧ state ≠ .ok) ↔
      s.Openable .write rel.id ∧ ∃ lines, csvLines host delimiter rel.toDesc content = .ok lines ∧ Stops rel lines := by
  have htuple : (RawTuple.createTuple pageSize).length = pageSize := Cells.length_alloc pageSize
  rw [← hs.exists_newHandler_iff]
  constructor
  · rintro ⟨state, response, s', hcmd, hstate⟩
    simp only [cmd, hrel, Option.map_some, Option.elim_some] at hcmd
    obtain ⟨lines, hlines, hcmd⟩ := bind_eq_ok.1 hcmd
    obtain ⟨⟨state', load, s₁⟩, hexec, heq⟩ := bind_eq_ok.1 hcmd
    obtain ⟨rfl, -, rfl⟩ : state' = state ∧ load.response = response ∧ s₁ = s' := by simpa using Except.ok.inj heq
    simp only [exec, new, hrel] at hexec
    obtain ⟨⟨h, s₂⟩, hnew, hexec⟩ := bind_eq_ok.1 hexec
    obtain ⟨⟨rows, t, s₃⟩, hread, hexec⟩ := bind_eq_ok.1 hexec
    have hw := LevelStore.writerAt_newWriteHandler hs hnew
    refine ⟨⟨_, hnew⟩, lines, hlines, (readLines_eq_none_iff (typedLine_of_csvLines hlines) htuple hw 0).1 ?_⟩
    cases rows with
    | none => exact ⟨t, s₃, hread⟩
    | some rows =>
      simp only [bind_eq_ok] at hexec
      obtain ⟨⟨ok, s₄⟩, -, -, -, heq⟩ := hexec
      exact absurd (Prod.mk.inj (Except.ok.inj heq)).1.symm hstate
  · rintro ⟨⟨⟨h, s₁⟩, hnew⟩, lines, hlines, hstops⟩
    have hw := LevelStore.writerAt_newWriteHandler hs hnew
    obtain ⟨t, s', hread⟩ := (readLines_eq_none_iff (typedLine_of_csvLines hlines) htuple hw 0).2 hstops
    have hnew' : s.newWriteHandler rel.id = .ok (h, s₁) := hnew
    refine ⟨.loadError, ascii "copy to relation " ++ relName ++ ascii " failed.", s', ?_, by decide⟩
    simp [cmd, hrel, hlines, exec, new, hnew', hread]

end Load

end Dbms18
