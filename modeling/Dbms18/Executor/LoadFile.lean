import Dbms18.Executor.LoadRow

/-!
# What a load of a file stores (`Load::Exec`)

The rows of a file are collected in the batch of the relation's write handler and written by the commit at
the end, so a load that stops at a line it cannot read has stored nothing, and one that returns `kStateOK`
has stored a row for each line that `read_line` gave (`exec_eq_ok`).
-/

namespace Dbms18

open Res List

namespace Load

variable {rel : Relation} {tuple t : RawTuple} {fields : List CsvField} {s s' : LevelStore} {h : Nat}

theorem writeColumns_eq_some {types : List DataType} {i off : Nat} {acc : RawTuple × Nat} (hlen : fields.length = types.length)
    (hwrite : writeColumns ((types.zip fields).zipIdx i) acc = .ok (t, some off)) :
    ∃ row : Row, fields = readable row ∧ row.map Value.dataType = types ∧
      ((types.zip row).zipIdx i).foldlM writeColumn acc = .ok (t, off) := by
  induction types generalizing fields i acc with
  | nil =>
    obtain rfl := length_eq_zero_iff.1 hlen
    obtain ⟨rfl, hoff⟩ := Prod.mk.inj (Except.ok.inj hwrite)
    exact ⟨[], rfl, rfl, congrArg (fun o => Except.ok (acc.1, o)) (Option.some.inj hoff)⟩
  | cons type types ih =>
    obtain ⟨field, fields, rfl⟩ := exists_cons_of_length_eq_add_one hlen
    obtain ⟨value, hfield, hwrite⟩ := bind_eq_ok.1 hwrite
    cases value with
    | none => cases (Prod.mk.inj (Except.ok.inj hwrite)).2
    | some value =>
      obtain ⟨acc', hcolumn, hrest⟩ := bind_eq_ok.1 hwrite
      obtain ⟨row, rfl, htypes, hfold⟩ := ih (Nat.succ.inj hlen) hrest
      obtain rfl : field = .ok (some value) := hfield
      obtain ⟨_, hcheck, -⟩ := bind_eq_ok.1 hcolumn
      have htype : value.dataType = type := check_eq_ok.1 hcheck
      refine ⟨value :: row, rfl, by rw [map_cons, htype, htypes], ?_⟩
      rw [zip_cons_cons, zipIdx_cons, foldlM_cons, hcolumn]
      exact hfold

theorem readValues_readable (row : Row) : readValues (readable row) = row := by
  induction row with
  | nil => rfl
  | cons value row ih => exact congrArg (value :: ·) ih

theorem lineOf_readable {row : Row} {types : List DataType} (htyped : row.map Value.dataType = types) :
    LineOf types (readable row) := by
  subst htyped
  refine ⟨by simp [readable], fun c hc => ?_⟩
  rw [readable, zip_map', mem_map] at hc
  obtain ⟨v, -, rfl⟩ := hc
  refine ⟨some v, rfl, ?_⟩
  rintro _ ⟨⟩
  rfl

theorem writeRow_eq_some {off : Nat} (hlen : fields.length = rel.attributes.length) (htuple : tuple.length = pageSize)
    (hwrite : writeRow rel.toDesc fields tuple = .ok (t, some off)) (hoff : 0 < off) :
    ∃ row, fields = readable row ∧ Fits rel row ∧ RawTuple.getValue t 0 off = .ok row.record ∧ t.length = pageSize := by
  have hwrite' := hwrite
  rw [writeRow, rel.map_dataType_toDesc, rel.length_toDesc] at hwrite'
  obtain ⟨row, rfl, htyped, hfold⟩ := writeColumns_eq_some (hlen.trans (length_map ..).symm) hwrite'
  have hfits : Fits rel row := by
    refine ⟨htyped, ?_⟩
    rcases (lineOf_readable htyped).roomFor htuple hwrite with hnil | hroom
    · -- Without columns `off` is zero.
      rw [readValues_readable] at hnil
      subst hnil
      obtain ⟨-, rfl⟩ : tuple = t ∧ sizeofSlot * rel.attributes.length = off := by
        simpa [zip_nil_right] using hfold
      rw [← length_map (f := Attribute.dataType), ← htyped] at hoff
      exact absurd hoff (Nat.lt_irrefl 0)
    · rw [readValues_readable, ← length_map (f := Attribute.dataType), ← htyped] at hroom
      rw [Row.record, RawTuple.length_layout]
      simpa using hroom
  obtain ⟨t', hwrite', hvalue, hlength⟩ := writeRow_eq hfits htuple
  obtain ⟨rfl, hoff'⟩ := Prod.mk.inj (Except.ok.inj (hwrite.symm.trans hwrite'))
  obtain rfl := Option.some.inj hoff'
  exact ⟨row, rfl, hfits, hvalue, hlength⟩

theorem readLines_eq_some {relid : RelationId} {batch : List WriteOp} {lines : List CsvLine} {count n : Int32}
    (hlen : ∀ line ∈ lines, line.fields.length = rel.attributes.length) (htuple : tuple.length = pageSize)
    (hw : s.WriterAt h relid batch) (hread : readLines rel.toDesc h lines count tuple s = .ok (some n, t, s')) :
    ∃ rows : List (Bytes × Row), lines = rows.map line ∧ (∀ r ∈ rows, Fits rel r.2) ∧
      s'.WriterAt h relid (batch ++ rows.map putOf) := by
  induction lines generalizing count tuple s batch with
  | nil =>
    obtain ⟨-, -, rfl⟩ : some count = some n ∧ tuple = t ∧ s = s' := by simpa using Except.ok.inj hread
    exact ⟨[], rfl, by simp, by simpa using hw⟩
  | cons csv lines ih =>
    rw [forall_mem_cons] at hlen
    obtain ⟨⟨tuple', off⟩, hwrite, hread⟩ := bind_eq_ok.1 hread
    cases off with
    | none => cases (Prod.mk.inj (Except.ok.inj hread)).1
    | some off =>
      simp only [bind_eq_ok] at hread
      obtain ⟨_, hoff, bytes, hbytes, s₁, hput, hread⟩ := hread
      obtain ⟨row, hfields, hfits, hvalue, htuple'⟩ := writeRow_eq_some hlen.1 htuple hwrite (check_eq_ok.1 hoff)
      obtain rfl := Except.ok.inj (hvalue.symm.trans hbytes)
      obtain ⟨rows, rfl, hrows, hw'⟩ := ih hlen.2 htuple' (hw.put hput) hread
      refine ⟨(csv.uuid, row) :: rows, ?_, forall_mem_cons.2 ⟨hfits, hrows⟩, by simpa [putOf] using hw'⟩
      rw [map_cons, line, ← hfields]

theorem exec_eq_ok {catalog : Catalog} {relName : Bytes} {lines : List CsvLine} {status : WriteStatus} {load : Load}
    (hrel : catalog.getRelation relName = some rel) (hs : s.Wf)
    (hlen : ∀ line ∈ lines, line.fields.length = rel.attributes.length)
    (hexec : (new relName).exec catalog lines status s = .ok (.ok, load, s')) :
    ∃ rows : List (Bytes × Row), lines = rows.map line ∧ (∀ r ∈ rows, Fits rel r.2) ∧
      s'.databases = Function.update s.databases rel.id
        ((s.databases rel.id).write (s.pending rel.id ++ rows.map putOf)) := by
  simp only [exec, new, hrel] at hexec
  obtain ⟨⟨h, s₁⟩, hnew, hexec⟩ := bind_eq_ok.1 hexec
  obtain ⟨⟨rows, t, s₂⟩, hread, hexec⟩ := bind_eq_ok.1 hexec
  cases rows with
  | none => cases (Prod.mk.inj (Except.ok.inj hexec)).1
  | some n =>
    simp only [bind_eq_ok] at hexec
    obtain ⟨⟨ok, s₃⟩, hcommit, _, hok, heq⟩ := hexec
    obtain ⟨-, rfl⟩ := Prod.mk.inj (Prod.mk.inj (Except.ok.inj heq)).2
    obtain rfl : ok = true := check_eq_ok.1 hok
    have htuple : (RawTuple.createTuple pageSize).length = pageSize := Cells.length_alloc pageSize
    obtain ⟨rows, hlines, hrows, hw⟩ := readLines_eq_some hlen htuple (LevelStore.writerAt_newWriteHandler hs hnew) hread
    refine ⟨rows, hlines, hrows, ?_⟩
    have hdb : s₂.databases = s.databases :=
      (readLines_eq_ok (hlen · ·|>.trans rel.length_toDesc.symm) hread).2.trans (LevelStore.databases_newHandler hnew)
    rw [hw.commit hcommit, hdb]

/-- The keys that `GenUUID` gives are new to the relation and to the handler that writes to it. -/
structure FreshKeys (host : Host) (s : LevelStore) (relid : RelationId) : Prop where
  injective : Function.Injective host.uuid
  stored : ∀ i, (s.databases relid)[host.uuid i]? = none
  pending : ∀ i, host.uuid i ∉ (s.pending relid).map Overlay.Op.key

section File

variable {host : Host} {relName content response : Bytes} {delimiter : UInt8} {catalog : Catalog} {state : State}

def recordsOf (host : Host) (rows : List Row) : List (Bytes × Bytes) := rows.mapIdx fun i row => (host.uuid i, row.record)

theorem recordsOf_map_snd {rows : List (Bytes × Row)} (hkeys : ∀ i r, rows[i]? = some r → r.1 = host.uuid i) :
    recordsOf host (rows.map Prod.snd) = rows.map fun r => (r.1, r.2.record) := by
  refine ext_getElem? fun i => ?_
  rw [recordsOf, getElem?_mapIdx, getElem?_map, getElem?_map]
  cases hr : rows[i]? with
  | none => rfl
  | some r => simp [hkeys i r hr]

theorem cmd_ok (hrel : catalog.getRelation relName = some rel) (hs : s.Wf)
    (hcmd : cmd host relName delimiter (some content) catalog s = .ok (.ok, response, s')) :
    ∃ texts rows, MiniCsv.readLines content = .ok texts ∧
      texts.map (readFields host delimiter (rel.attributes.map Attribute.dataType)) = rows.map readable ∧
      (∀ row ∈ rows, Fits rel row) ∧
      s'.databases = Function.update s.databases rel.id ((s.databases rel.id).write
        (s.pending rel.id ++ (recordsOf host rows).map fun r => .put r.1 r.2)) := by
  simp only [cmd, hrel, Option.map_some, Option.elim_some] at hcmd
  obtain ⟨lines, hlines, hcmd⟩ := bind_eq_ok.1 hcmd
  obtain ⟨⟨state, load, s₁⟩, hexec, heq⟩ := bind_eq_ok.1 hcmd
  obtain ⟨rfl, -, rfl⟩ : state = .ok ∧ load.response = response ∧ s₁ = s' := by simpa using Except.ok.inj heq
  have hlen := length_fields_of_csvLines hlines
  obtain ⟨rows, rfl, hrows, hdb⟩ := exec_eq_ok hrel hs (hlen · ·|>.trans rel.length_toDesc) hexec
  obtain ⟨texts, htexts, heq⟩ := bind_eq_ok.1 hlines
  have hline : ∀ i, (texts[i]?.map fun text =>
      (⟨host.uuid i, readFields host delimiter (rel.attributes.map Attribute.dataType) text⟩ : CsvLine)) =
        rows[i]?.map line := by
    intro i
    have hi := congrArg (·[i]?) (Except.ok.inj heq)
    rwa [getElem?_mapIdx, getElem?_map, rel.map_dataType_toDesc] at hi
  have hkeys : ∀ i r, rows[i]? = some r → r.1 = host.uuid i := by
    intro i r hr
    have hi := hline i
    rw [hr] at hi
    obtain ⟨text, -, hline⟩ := Option.map_eq_some_iff.1 hi
    exact congrArg CsvLine.uuid hline.symm
  have hfields : texts.map (readFields host delimiter (rel.attributes.map Attribute.dataType)) =
      (rows.map Prod.snd).map readable := by
    refine ext_getElem? fun i => ?_
    have hi := congrArg (Option.map CsvLine.fields) (hline i)
    rw [Option.map_map, Option.map_map] at hi
    rw [map_map, getElem?_map, getElem?_map]
    exact hi
  refine ⟨texts, rows.map Prod.snd, htexts, hfields, forall_mem_map.2 hrows, ?_⟩
  rw [hdb, recordsOf_map_snd hkeys, map_map]
  rfl

theorem getElem?_recordsOf (rows : List Row) (i : Nat) :
    (recordsOf host rows)[i]? = rows[i]?.map fun row => (host.uuid i, row.record) := getElem?_mapIdx

theorem key_of_mem_recordsOf {rows : List Row} {r : Bytes × Bytes} (hr : r ∈ recordsOf host rows) :
    ∃ i, r.1 = host.uuid i := by
  obtain ⟨i, hi, rfl⟩ := mem_mapIdx.1 hr
  exact ⟨i, rfl⟩

theorem nodup_keys_recordsOf (hinj : Function.Injective host.uuid) (rows : List Row) :
    ((recordsOf host rows).map Prod.fst).Nodup := by
  have hkeys : (recordsOf host rows).map Prod.fst = (List.range rows.length).map host.uuid := by
    refine ext_getElem? fun i => ?_
    rw [getElem?_map, getElem?_recordsOf, getElem?_map]
    by_cases hi : i < rows.length <;> simp [hi]
  rw [hkeys]
  exact nodup_range.map hinj

/-- A load is all or nothing: if it returns `kStateOK`, the relation has a new row for each line that was
read, with the line's fields, and with any other state nothing has been stored; and what it has left in
the batch does not reach the database when the handler is deleted. -/
theorem cmd_all_or_nothing (hrel : catalog.getRelation relName = some rel) (hs : s.Wf)
    (hfree : s.handlerMap .write rel.id = none) (hfresh : FreshKeys host s rel.id)
    (hcmd : cmd host relName delimiter (some content) catalog s = .ok (state, response, s')) :
    (state = .ok → ∃ texts rows, MiniCsv.readLines content = .ok texts ∧
      texts.map (readFields host delimiter (rel.attributes.map Attribute.dataType)) = rows.map readable ∧
      (∀ row ∈ rows, row.Typed rel ∧ RawTuple.Holds (Cells.ofBytes row.record) row) ∧
      (s'.databases rel.id).toList.Perm ((s.databases rel.id).toList ++ recordsOf host rows) ∧
      ∀ relid ≠ rel.id, s'.databases relid = s.databases relid) ∧ (state ≠ .ok → s'.databases = s.databases) ∧
    ∀ h s'', s'.deleteIOObject h = .ok s'' → s''.databases = s'.databases := by
  refine ⟨?_, fun hstate => ?_, fun h s'' => LevelStore.databases_deleteIOObject⟩
  · rintro rfl
    obtain ⟨texts, rows, htexts, hfields, hrows, hdb⟩ := cmd_ok hrel hs hcmd
    have hpending : s.pending rel.id = [] := by simp [LevelStore.pending, hfree]
    rw [hpending, nil_append] at hdb
    refine ⟨texts, rows, htexts, hfields, fun row hrow => ⟨(hrows row hrow).typed, (hrows row hrow).holds⟩, ?_,
      fun relid hne => ?_⟩
    · rw [hdb, Function.update_self]
      refine Overlay.toList_overlay_perm (nodup_keys_recordsOf hfresh.injective rows) fun r hr => ?_
      obtain ⟨i, hi⟩ := key_of_mem_recordsOf hr
      exact hi ▸ hfresh.stored i
    · rw [hdb, Function.update_of_ne hne]
  · obtain ⟨lines, -, ⟨-, -, hdb⟩ | ⟨-, hok⟩⟩ := cmd_eq_ok hrel hcmd
    · exact hdb
    · exact absurd hok hstate

end File

def notesCatalog : Catalog := (Catalog.empty.insertRelation notes).1

def emptyStore : LevelStore := .started fun _ => ∅

theorem freshKeys_emptyStore : FreshKeys numbering emptyStore notes.id :=
  ⟨fun i j h => Int.ofNat_inj.1 (decimal_injective h), fun i => by simp [emptyStore, LevelStore.started],
    fun i => by simp [LevelStore.pending, emptyStore, LevelStore.started]⟩

theorem fits_note (n : Int64) (b c : UInt8) : Fits notes [.integer n, .varchar [b, c]] :=
  ⟨rfl, by simp [Row.record, RawTuple.length_layout, Value.bytes, sizeofSlot, pageSize]⟩

theorem getRelation_notesCatalog : notesCatalog.getRelation (ascii "notes") = some notes := by decide

theorem wf_emptyStore : emptyStore.Wf := LevelStore.wf_started _

theorem exists_cmd_notes {content : Bytes} {rows : List (Bytes × Row)} (hrows : ∀ r ∈ rows, Fits notes r.2)
    (hlines : csvLines numbering 0x2c notes.toDesc content = .ok (rows.map line)) : ∃ response s',
      cmd numbering (ascii "notes") 0x2c (some content) notesCatalog emptyStore = .ok (.ok, response, s') := by
  obtain ⟨response, s', hcmd, -⟩ :=
    cmd_eq getRelation_notesCatalog (by decide) hrows hlines rfl wf_emptyStore rfl
  exact ⟨response, s', hcmd⟩

theorem exists_cmd_two_notes : ∃ response s',
    cmd numbering (ascii "notes") 0x2c (some (ascii "5,ab\n6,cd")) notesCatalog emptyStore = .ok (.ok, response, s') := by
  have hrows : ∀ r ∈ [(decimal 0, [.integer 5, .varchar (ascii "ab")]), (decimal 1, [.integer 6, .varchar (ascii "cd")])],
      Fits notes r.2 :=
    forall_mem_cons.2 ⟨fits_note 5 0x61 0x62, forall_mem_singleton.2 (fits_note 6 0x63 0x64)⟩
  exact exists_cmd_notes hrows rfl

theorem cmd_all_or_nothing_notes : ∃ response s',
    cmd numbering (ascii "notes") 0x2c (some (ascii "5,ab\n6,cd")) notesCatalog emptyStore = .ok (.ok, response, s') ∧
      ∃ rows, [ascii "5,ab", ascii "6,cd"].map (readFields numbering 0x2c [.integer, .varchar]) = rows.map readable ∧
        (s'.databases notes.id).toList.Perm (recordsOf numbering rows) := by
  obtain ⟨response, s', hcmd⟩ := exists_cmd_two_notes
  obtain ⟨hstored, -⟩ := cmd_all_or_nothing getRelation_notesCatalog wf_emptyStore rfl freshKeys_emptyStore hcmd
  obtain ⟨texts, rows, htexts, hfields, -, hperm, -⟩ := hstored rfl
  obtain rfl := Except.ok.inj ((show MiniCsv.readLines (ascii "5,ab\n6,cd") = .ok _ from rfl).symm.trans htexts)
  exact ⟨response, s', hcmd, rows, hfields, hperm⟩

end Load

end Dbms18
