import Dbms18.Common.Layout
import Dbms18.Common.MiniCsv
import Dbms18.Common.RowDesc
import Dbms18.Executor.SeqScan
import Dbms18.Storage.Catalog

/-!
# Loading a file into a relation (`executor/load.cpp`)

`Exec` writes every line into the same block of memory and puts the bytes of the line's tuple into the
batch of the relation's write handler; the handler is released when the `Load` object is destroyed.
A line of the file comes here with what the reader makes of its fields, and `csvLines` reads a file.
-/

namespace Dbms18

open Res List

/-- `PAGE_SIZE`. -/
def pageSize : Nat := 8192

/-- What the reader makes of a field: a value, nothing if it throws a `runtime_error`, and a fault if it
throws anything else. -/
abbrev CsvField := Res (Option Value)

/-- A line of the file. `fields` are what the columns' types read from it, `uuid` is the key that `GenUUID`
gives for the line's record. -/
structure CsvLine where
  uuid : Bytes
  fields : List CsvField

def CsvLine.Unreadable (line : CsvLine) : Prop := .ok none ∈ line.fields

structure Load where
  relName : Bytes
  tuple : RawTuple
  batch : Option Nat
  response : Bytes

namespace Load

def new (relName : Bytes) : Load where
  relName := relName
  tuple := RawTuple.createTuple pageSize
  batch := none
  response := []

/-- A value is written. The column's type decides how its field is read, so the value has that type. -/
def writeColumn (acc : RawTuple × Nat) (column : (DataType × Value) × Nat) : Res (RawTuple × Nat) := do
  let (tuple, off) := acc
  let ((type, value), i) := column
  Res.check (value.dataType = type) .assertion
  let tuple ← tuple.setSlot i off value.bytes.length
  let tuple ← tuple.setValue off value.bytes
  return (tuple, off + value.bytes.length)

/-- The loop over the columns, up to an exception: the tuple, and `off` behind the last value. -/
def writeColumns : List ((DataType × CsvField) × Nat) → RawTuple × Nat → Res (RawTuple × Option Nat)
  | [], (tuple, off) => .ok (tuple, some off)
  | ((type, field), i) :: columns, (tuple, off) => do
    match ← field with
    | none => return (tuple, none)
    | some value => writeColumns columns (← writeColumn (tuple, off) ((type, value), i))

def writeRow (desc : RowDesc) (fields : List CsvField) (tuple : RawTuple) : Res (RawTuple × Option Nat) :=
  writeColumns ((desc.map ColumnDesc.dataType).zip fields).zipIdx (tuple, sizeofSlot * desc.length)

/-- The loop over the lines, with the handler at `h` and the `int` that counts the rows. `none` is the
return after an exception. -/
def readLines (desc : RowDesc) (h : Nat) :
    List CsvLine → Int32 → RawTuple → LevelStore → Res (Option Int32 × RawTuple × LevelStore)
  | [], rows, tuple, s => .ok (some rows, tuple, s)
  | line :: lines, rows, tuple, s => do
    let (tuple, off) ← writeRow desc line.fields tuple
    match off with
    | none => return (none, tuple, s)
    | some off =>
      Res.check (0 < off) .assertion
      let s ← s.put h line.uuid (← tuple.getValue 0 off)
      readLines desc h lines (rows + 1) tuple s

/-- `status` is the outcome of the write in `Commit`. -/
def exec (catalog : Catalog) (lines : List CsvLine) (status : WriteStatus) (load : Load) (s : LevelStore) :
    Res (State × Load × LevelStore) :=
  match catalog.getRelation load.relName with
  | none => .ok (.relationNotFound, load, s)
  | some rel => do
    let (h, s) ← s.newWriteHandler rel.id
    let load := { load with batch := some h }
    let (rows, tuple, s) ← readLines rel.toDesc h lines 0 load.tuple s
    let load := { load with tuple }
    match rows with
    | none =>
      let response := ascii "copy to relation " ++ load.relName ++ ascii " failed."
      return (.loadError, { load with response }, s)
    | some rows =>
      let (ok, s) ← s.commit h status
      Res.check ok .assertion
      let response := ascii "copy " ++ decimal rows.toInt ++ ascii " to relation " ++ load.relName ++ ascii "."
      return (.ok, { load with response }, s)

/-- What a load gets from outside: `>>` of a `double`, the date of a text, the keys of the records and the
outcome of the write. -/
structure Host where
  double : Bytes → Option UInt64
  date : Bytes → Res Int64
  uuid : Nat → Bytes
  status : WriteStatus

/-- The cases of the `switch` over the column's type, up to the value. -/
def readField (host : Host) (type : DataType) (text : Bytes) : CsvField :=
  match type with
  | .integer => .ok ((MiniCsv.parseInteger text).map .integer)
  | .float => .ok ((host.double text).map .float)
  | .varchar => .ok (some (.varchar text))
  | .date => do return some (.date (← host.date text))
  | _ => .error .assertion

def readFields (host : Host) (delimiter : UInt8) : List DataType → Bytes → List CsvField
  | [], _ => []
  | type :: types, line =>
    readField host type (MiniCsv.getDelimitedStr delimiter line).1 ::
      readFields host delimiter types (MiniCsv.getDelimitedStr delimiter line).2

def csvLines (host : Host) (delimiter : UInt8) (desc : RowDesc) (content : Bytes) : Res (List CsvLine) := do
  let lines ← MiniCsv.readLines content
  return lines.mapIdx fun i line => ⟨host.uuid i, readFields host delimiter (desc.map ColumnDesc.dataType) line⟩

/-- `Prepare` and `Exec` for a file, which may not be there. -/
def cmd (host : Host) (relName : Bytes) (delimiter : UInt8) (file : Option Bytes) (catalog : Catalog) (s : LevelStore) :
    Res (State × Bytes × LevelStore) :=
  match file with
  | none => .ok (.openFileError, ascii "file is already open.", s)
  | some content => do
    let lines ← ((catalog.getRelation relName).map Relation.toDesc).elim (.ok [])
      fun desc => csvLines host delimiter desc content
    let (state, load, s) ← (new relName).exec catalog lines host.status s
    return (state, load.response, s)

/-- The destructor. -/
def destroy (load : Load) (s : LevelStore) : Res LevelStore := do
  s.deleteIOObject (← Res.getD load.batch .nullPointer)

/-- A `Load` from its construction to its destruction. -/
def run (catalog : Catalog) (relName : Bytes) (lines : List CsvLine) (status : WriteStatus) (s : LevelStore) :
    Res (State × LevelStore) := do
  let (state, load, s) ← (new relName).exec catalog lines status s
  return (state, ← load.destroy s)

def runAll (catalog : Catalog) (relName : Bytes) (files : List (List CsvLine)) (s : LevelStore) : Res LevelStore :=
  files.foldlM (fun s lines => do return (← run catalog relName lines .ok s).2) s

end Load

/-! ## What is stored -/

def Row.record (row : Row) : Bytes := RawTuple.layout (row.map Value.bytes)

abbrev TableRows := Std.ExtTreeMap Bytes Row compare

namespace TableRows

def database (rows : TableRows) : Database := rows.map fun _ row => row.record

def insertAll (rows : TableRows) (new : List (Bytes × Row)) : TableRows :=
  new.foldl (fun rows r => rows.insert r.1 r.2) rows

theorem database_insert (rows : TableRows) (key : Bytes) (row : Row) :
    database (rows.insert key row) = rows.database.insert key row.record := by
  refine Std.ExtTreeMap.ext_getElem? fun k => ?_
  simp only [database, Std.ExtTreeMap.getElem?_map, Std.ExtTreeMap.getElem?_insert]
  split <;> rfl

theorem database_insertAll (rows : TableRows) (new : List (Bytes × Row)) :
    (rows.insertAll new).database = rows.database.write (new.map fun r => .put r.1 r.2.record) := by
  induction new generalizing rows with
  | nil => rfl
  | cons r new ih =>
    have hstep := ih (rows.insert r.1 r.2)
    rw [database_insert] at hstep
    exact hstep

theorem forall_insertAll {P : Row → Prop} {rows : TableRows} {new : List (Bytes × Row)}
    (hrows : ∀ r ∈ rows.toList, P r.2) (hnew : ∀ r ∈ new, P r.2) : ∀ r ∈ (rows.insertAll new).toList, P r.2 := by
  induction new generalizing rows with
  | nil => exact hrows
  | cons r new ih =>
    refine ih (fun r' hr' => ?_) fun r' hr' => hnew r' (mem_cons_of_mem _ hr')
    have hget : (rows.insert r.1 r.2)[r'.1]? = some r'.2 := Std.ExtTreeMap.mem_toList_iff_getElem?_eq_some.1 hr'
    rw [Std.ExtTreeMap.getElem?_insert] at hget
    split at hget
    · exact Option.some.inj hget ▸ hnew r mem_cons_self
    · exact hrows r' (Std.ExtTreeMap.mem_toList_iff_getElem?_eq_some.2 hget)

theorem size_insertAll (rows : TableRows) {new : List (Bytes × Row)} (hnodup : (new.map Prod.fst).Nodup)
    (hfresh : ∀ r ∈ new, r.1 ∉ rows) : (rows.insertAll new).size = rows.size + new.length := by
  induction new generalizing rows with
  | nil => rfl
  | cons r new ih =>
    rw [map_cons, nodup_cons] at hnodup
    have hstep := ih (rows.insert r.1 r.2) hnodup.2 fun r' hr' hmem => by
      rcases Std.ExtTreeMap.mem_insert.1 hmem with heq | hmem
      · have hkey : r.1 = r'.1 := by simpa using heq
        exact hnodup.1 (hkey ▸ mem_map_of_mem hr')
      · exact hfresh r' (mem_cons_of_mem _ hr') hmem
    have hnotmem : ¬ rows.contains r.1 = true := fun hcontains =>
      hfresh r mem_cons_self (Std.ExtTreeMap.mem_iff_contains.2 hcontains)
    rw [Std.ExtTreeMap.size_insert, if_neg hnotmem] at hstep
    exact hstep.trans (by simp [Nat.add_assoc, Nat.add_comm 1])

end TableRows

/-! ## What a load does -/

namespace Load

variable {rel : Relation} {desc : RowDesc} {row : Row} {tuple : RawTuple} {h : Nat} {s : LevelStore} {relid : RelationId}
  {batch : List WriteOp}

structure Fits (rel : Relation) (row : Row) : Prop where
  typed : row.Typed rel
  size : row.record.length ≤ pageSize

theorem length_record_pos (hrow : row ≠ []) : 0 < row.record.length := by
  obtain ⟨v, row, rfl⟩ := exists_cons_of_ne_nil hrow
  simp [Row.record, RawTuple.length_layout, sizeofSlot]

theorem writeColumn_eq {type : DataType} {value : Value} (htype : value.dataType = type) (off i : Nat) :
    writeColumn (tuple, off) ((type, value), i) = (do
      let t ← tuple.setSlot i off value.bytes.length
      let t ← t.setValue off value.bytes
      return (t, off + value.bytes.length)) := by
  simp [writeColumn, check_of htype]

def readable (row : Row) : List CsvField := row.map fun value => .ok (some value)

theorem writeColumns_readable (columns : List ((DataType × Value) × Nat)) (acc : RawTuple × Nat) :
    writeColumns (columns.map fun c => ((c.1.1, .ok (some c.1.2)), c.2)) acc = (do
      let (t, off) ← columns.foldlM writeColumn acc
      return (t, some off)) := by
  induction columns generalizing acc with
  | nil => rfl
  | cons c columns ih => simp [writeColumns, ih]

theorem writeRow_readable (desc : RowDesc) (row : Row) (tuple : RawTuple) :
    writeRow desc (readable row) tuple = (do
      let (t, off) ← ((desc.map ColumnDesc.dataType).zip row).zipIdx.foldlM writeColumn (tuple, sizeofSlot * desc.length)
      return (t, some off)) := by
  rw [writeRow, readable, zip_map_right, zipIdx_map, ← writeColumns_readable]
  rfl

theorem writeRow_eq (hrow : Fits rel row) (htuple : tuple.length = pageSize) :
    ∃ t, writeRow rel.toDesc (readable row) tuple = .ok (t, some row.record.length) ∧
      RawTuple.getValue t 0 row.record.length = .ok row.record ∧ t.length = pageSize := by
  have htypes : rel.toDesc.map ColumnDesc.dataType = row.map Value.dataType :=
    rel.map_dataType_toDesc.trans hrow.typed.symm
  generalize hcolumns : (rel.toDesc.map ColumnDesc.dataType).zip row = columns
  have hsnd : columns.map Prod.snd = row := by
    rw [← hcolumns, map_snd_zip]
    simp [htypes]
  have hlen : columns.length = rel.toDesc.length := by
    rw [← length_map (f := Prod.snd), hsnd]
    simpa using (congrArg List.length htypes).symm
  have hbytes : columns.map (fun c => c.2.bytes) = row.map Value.bytes := by
    rw [← hsnd, map_map]
    rfl
  have hstep : ∀ c ∈ columns, ∀ t off i, writeColumn (t, off) (c, i) = (do
      let t ← t.setSlot i off c.2.bytes.length
      let t ← t.setValue off c.2.bytes
      return (t, off + c.2.bytes.length)) := by
    intro c hc t off i
    refine writeColumn_eq ?_ off i
    rw [← hcolumns, htypes, zip_map_left, mem_map] at hc
    obtain ⟨⟨v, v'⟩, hv, rfl⟩ := hc
    obtain ⟨j, hj⟩ := mem_iff_getElem?.1 hv
    obtain ⟨hj₁, hj₂⟩ := getElem?_zip_eq_some.1 hj
    exact congrArg Value.dataType (Option.some.inj (hj₂.symm.trans hj₁))
  have hroom : (RawTuple.layout (columns.map fun c => c.2.bytes)).length ≤ tuple.length := by
    rw [hbytes, htuple]
    exact hrow.size
  obtain ⟨t, hfold, hload, hlength⟩ := RawTuple.foldlM_layout hstep hroom
  rw [hbytes, hlen] at hfold
  rw [hbytes] at hload
  exact ⟨t, by rw [writeRow_readable, hcolumns, hfold]; rfl, hload, hlength.trans htuple⟩

def line (r : Bytes × Row) : CsvLine := ⟨r.1, readable r.2⟩

def putOf (r : Bytes × Row) : WriteOp := .put r.1 r.2.record

variable {rows : List (Bytes × Row)}

theorem readLines_eq (hrows : ∀ r ∈ rows, Fits rel r.2) (hcolumns : rel.attributes ≠ [])
    (htuple : tuple.length = pageSize) (hw : s.Writing h relid batch) (count : Int32) :
    ∃ count' t s', readLines rel.toDesc h (rows.map line) count tuple s = .ok (some count', t, s') ∧
      s'.Writing h relid (batch ++ rows.map putOf) ∧ s'.databases = s.databases := by
  induction rows generalizing tuple s batch count with
  | nil => exact ⟨count, tuple, s, rfl, by simpa using hw, rfl⟩
  | cons r rows ih =>
    have hfits := hrows r mem_cons_self
    have hne : r.2 ≠ [] := by
      intro hnil
      have htyped := hfits.typed
      rw [hnil] at htyped
      exact hcolumns (map_eq_nil_iff.1 htyped.symm)
    obtain ⟨t, hwrite, hvalue, hlen⟩ := writeRow_eq hfits htuple
    obtain ⟨s₁, hput, hw₁, hdb₁⟩ := hw.put r.1 r.2.record
    obtain ⟨count', t', s', hread, hw', hdb⟩ :=
      ih (fun r' hr' => hrows r' (mem_cons_of_mem _ hr')) hlen hw₁ (count + 1)
    refine ⟨count', t', s', ?_, by simpa [putOf] using hw', hdb.trans hdb₁⟩
    simpa [readLines, line, hwrite, check_of (length_record_pos hne), hvalue, hput] using hread

variable {catalog : Catalog} {relName : Bytes}

theorem exec_eq (hrel : catalog.getRelation relName = some rel) (hcolumns : rel.attributes ≠ [])
    (hrows : ∀ r ∈ rows, Fits rel r.2) (hs : s.Wf) (hclosed : s.opened rel.id = false) :
    ∃ h load s', (new relName).exec catalog (rows.map line) .ok s = .ok (.ok, load, s') ∧ load.batch = some h ∧
      s'.Writing h rel.id (rows.map putOf) ∧
      s'.databases = Function.update s.databases rel.id ((s.databases rel.id).write (rows.map putOf)) := by
  obtain ⟨h, s₁, hnew, hw₁, hdb₁⟩ := LevelStore.exists_writing hs hclosed
  have htuple : (RawTuple.createTuple pageSize).length = pageSize := Cells.length_alloc pageSize
  obtain ⟨count, t, s₂, hread, hw₂, hdb₂⟩ := readLines_eq hrows hcolumns htuple hw₁ 0
  obtain ⟨s₃, hcommit, hw₃, hdb₃⟩ := hw₂.commit
  let response := ascii "copy " ++ decimal count.toInt ++ ascii " to relation " ++ relName ++ ascii "."
  refine ⟨h, ⟨relName, t, some h, response⟩, s₃, ?_, rfl, by simpa using hw₃, ?_⟩
  · simp [exec, new, hrel, hnew, hread, hcommit, check_of, response]
  · rw [hdb₃, hdb₂, hdb₁, nil_append]

theorem run_eq (hrel : catalog.getRelation relName = some rel) (hcolumns : rel.attributes ≠ [])
    (hrows : ∀ r ∈ rows, Fits rel r.2) (hs : s.Wf) (hclosed : s.opened rel.id = false) :
    ∃ s', run catalog relName (rows.map line) .ok s = .ok (.ok, s') ∧ s'.Wf ∧ s'.opened rel.id = false ∧
      s'.databases = Function.update s.databases rel.id ((s.databases rel.id).write (rows.map putOf)) := by
  obtain ⟨h, load, s₁, hexec, hbatch, hw, hdb₁⟩ := exec_eq hrel hcolumns hrows hs hclosed
  obtain ⟨s₂, hdelete, hwf, hclosed', hdb₂⟩ := hw.deleteIOObject
  refine ⟨s₂, ?_, hwf, hclosed', hdb₂.trans hdb₁⟩
  simp [run, hexec, destroy, hbatch, hdelete]

variable {delimiter : UInt8}

theorem cmd_eq {host : Host} {relName content : Bytes}
    (hrel : catalog.getRelation relName = some rel) (hcolumns : rel.attributes ≠ []) (hrows : ∀ r ∈ rows, Fits rel r.2)
    (hlines : csvLines host delimiter rel.toDesc content = .ok (rows.map line)) (hstatus : host.status = .ok) (hs : s.Wf)
    (hclosed : s.opened rel.id = false) :
    ∃ response s', cmd host relName delimiter (some content) catalog s = .ok (.ok, response, s') ∧
      s'.databases = Function.update s.databases rel.id ((s.databases rel.id).write (rows.map putOf)) := by
  obtain ⟨h, load, s', hexec, -, -, hdb⟩ := exec_eq hrel hcolumns hrows hs hclosed
  refine ⟨load.response, s', ?_, hdb⟩
  simp [cmd, hrel, hlines, hstatus, hexec]

theorem run_tableRows {table : TableRows}
    (hrel : catalog.getRelation relName = some rel) (hcolumns : rel.attributes ≠ []) (hrows : ∀ r ∈ rows, Fits rel r.2)
    (hs : s.Wf) (hclosed : s.opened rel.id = false) (htable : s.databases rel.id = table.database) :
    ∃ s', run catalog relName (rows.map line) .ok s = .ok (.ok, s') ∧ s'.Wf ∧ s'.opened rel.id = false ∧
      s'.databases rel.id = (table.insertAll rows).database := by
  obtain ⟨s', hrun, hwf, hclosed', hdb⟩ := run_eq hrel hcolumns hrows hs hclosed
  refine ⟨s', hrun, hwf, hclosed', ?_⟩
  rw [hdb, Function.update_self, htable, TableRows.database_insertAll]
  rfl

theorem runAll_tableRows {files : List (List (Bytes × Row))} {table : TableRows}
    (hrel : catalog.getRelation relName = some rel) (hcolumns : rel.attributes ≠ [])
    (hfiles : ∀ file ∈ files, ∀ r ∈ file, Fits rel r.2) (hs : s.Wf) (hclosed : s.opened rel.id = false)
    (htable : s.databases rel.id = table.database) :
    ∃ s', runAll catalog relName (files.map fun file => file.map line) s = .ok s' ∧ s'.Wf ∧ s'.opened rel.id = false ∧
      s'.databases rel.id = (table.insertAll files.flatten).database := by
  induction files generalizing s table with
  | nil => exact ⟨s, rfl, hs, hclosed, htable⟩
  | cons file files ih =>
    obtain ⟨s₁, hrun, hs₁, hclosed₁, htable₁⟩ :=
      run_tableRows hrel hcolumns (hfiles file mem_cons_self) hs hclosed htable
    obtain ⟨s₂, hruns, hs₂, hclosed₂, htable₂⟩ :=
      ih (fun file' hfile' => hfiles file' (mem_cons_of_mem _ hfile')) hs₁ hclosed₁ htable₁
    refine ⟨s₂, ?_, hs₂, hclosed₂, ?_⟩
    · simpa [runAll, hrun] using hruns
    · rw [htable₂, flatten_cons, TableRows.insertAll, TableRows.insertAll, TableRows.insertAll, foldl_append]

/-! ## Loads that do not succeed -/

theorem writeColumns_eq_ok {columns : List ((DataType × CsvField) × Nat)} {acc : RawTuple × Nat} {t : RawTuple}
    {off : Option Nat} (hwrite : writeColumns columns acc = .ok (t, off)) :
    off = none ↔ .ok none ∈ columns.map fun c => c.1.2 := by
  induction columns generalizing acc with
  | nil =>
    obtain ⟨-, rfl⟩ := Prod.mk.inj (Except.ok.inj hwrite)
    simp
  | cons c columns ih =>
    obtain ⟨⟨type, field⟩, i⟩ := c
    obtain ⟨value, hfield, hwrite⟩ := bind_eq_ok.1 hwrite
    cases value with
    | none =>
      obtain ⟨-, rfl⟩ := Prod.mk.inj (Except.ok.inj hwrite)
      simp [hfield]
    | some value =>
      obtain ⟨acc', -, hrest⟩ := bind_eq_ok.1 hwrite
      rw [ih hrest, map_cons, mem_cons, hfield]
      simp

theorem writeRow_eq_ok {fields : List CsvField} {t : RawTuple} {off : Option Nat} (hlen : fields.length = desc.length)
    (hwrite : writeRow desc fields tuple = .ok (t, off)) : off = none ↔ .ok none ∈ fields := by
  have hfields : ((desc.map ColumnDesc.dataType).zip fields).zipIdx.map (fun c => c.1.2) = fields := by
    calc ((desc.map ColumnDesc.dataType).zip fields).zipIdx.map (fun c => c.1.2)
        = (((desc.map ColumnDesc.dataType).zip fields).zipIdx.map Prod.fst).map Prod.snd := by rw [map_map]; rfl
      _ = ((desc.map ColumnDesc.dataType).zip fields).map Prod.snd := by rw [zipIdx_map_fst]
      _ = fields := map_snd_zip (by simp [hlen])
  rw [writeColumns_eq_ok hwrite, hfields]

theorem readLines_eq_ok {lines : List CsvLine} {rows : Int32} {rows' : Option Int32} {t : RawTuple} {s' : LevelStore}
    (hlen : ∀ line ∈ lines, line.fields.length = desc.length)
    (hread : readLines desc h lines rows tuple s = .ok (rows', t, s')) :
    (rows' = none ↔ ∃ line ∈ lines, line.Unreadable) ∧ s'.databases = s.databases := by
  induction lines generalizing rows tuple s with
  | nil =>
    obtain ⟨rfl, -, rfl⟩ : some rows = rows' ∧ tuple = t ∧ s = s' := by simpa using Except.ok.inj hread
    simp
  | cons line lines ih =>
    obtain ⟨⟨tuple', off⟩, hwrite, hread⟩ := bind_eq_ok.1 hread
    have hoff := writeRow_eq_ok (hlen line mem_cons_self) hwrite
    cases off with
    | none =>
      obtain ⟨rfl, -, rfl⟩ : none = rows' ∧ tuple' = t ∧ s = s' := by simpa using Except.ok.inj hread
      exact ⟨iff_of_true rfl ⟨line, mem_cons_self, hoff.1 rfl⟩, rfl⟩
    | some off =>
      simp only [bind_eq_ok] at hread
      obtain ⟨-, -, bytes, -, s₁, hput, hread⟩ := hread
      obtain ⟨hiff, hdb⟩ := ih (fun line' hline' => hlen line' (mem_cons_of_mem _ hline')) hread
      refine ⟨?_, hdb.trans (LevelStore.databases_put hput)⟩
      have hreadable : ¬ line.Unreadable := fun hun => by cases hoff.2 hun
      rw [hiff]
      simp [hreadable]

theorem length_readFields (host : Host) (delimiter : UInt8) (types : List DataType) (line : Bytes) :
    (readFields host delimiter types line).length = types.length := by
  induction types generalizing line with
  | nil => rfl
  | cons type types ih => simp [readFields, ih]

theorem length_fields_of_csvLines {host : Host} {content : Bytes} {lines : List CsvLine}
    (hlines : csvLines host delimiter desc content = .ok lines) : ∀ line ∈ lines, line.fields.length = desc.length := by
  obtain ⟨texts, -, heq⟩ := bind_eq_ok.1 hlines
  obtain rfl := Except.ok.inj heq
  intro line hline
  obtain ⟨i, hi, rfl⟩ := mem_mapIdx.1 hline
  simp [length_readFields]

theorem cmd_eq_ok {host : Host} {relName response content : Bytes} {state : State}
    {s' : LevelStore} (hrel : catalog.getRelation relName = some rel)
    (hcmd : cmd host relName delimiter (some content) catalog s = .ok (state, response, s')) :
    ∃ lines, csvLines host delimiter rel.toDesc content = .ok lines ∧
      ((∃ line ∈ lines, line.Unreadable) ∧ state ≠ .ok ∧ s'.databases = s.databases ∨
        ¬ (∃ line ∈ lines, line.Unreadable) ∧ state = .ok) := by
  simp only [cmd, hrel, Option.map_some, Option.elim_some] at hcmd
  obtain ⟨lines, hlines, hcmd⟩ := bind_eq_ok.1 hcmd
  obtain ⟨⟨state', load', s₂⟩, hexec, heq⟩ := bind_eq_ok.1 hcmd
  obtain ⟨rfl, -, rfl⟩ : state' = state ∧ load'.response = response ∧ s₂ = s' := by simpa using Except.ok.inj heq
  refine ⟨lines, hlines, ?_⟩
  simp only [exec, new, hrel] at hexec
  obtain ⟨⟨h, s₁⟩, hnew, hexec⟩ := bind_eq_ok.1 hexec
  obtain ⟨⟨rows, t, s₃⟩, hread, hexec⟩ := bind_eq_ok.1 hexec
  obtain ⟨hiff, hdb⟩ := readLines_eq_ok (length_fields_of_csvLines hlines) hread
  cases rows with
  | none =>
    obtain ⟨rfl, -, rfl⟩ : State.loadError = state' ∧ _ ∧ s₃ = s₂ := by simpa using Except.ok.inj hexec
    exact .inl ⟨hiff.1 rfl, by decide, hdb.trans (LevelStore.databases_newHandler hnew)⟩
  | some rows =>
    simp only [bind_eq_ok] at hexec
    obtain ⟨⟨ok, s₄⟩, -, -, -, heq⟩ := hexec
    have hreadable : ¬ ∃ line ∈ lines, line.Unreadable := fun hun => by cases hiff.2 hun
    exact .inr ⟨hreadable, (Prod.mk.inj (Except.ok.inj heq)).1.symm⟩

end Load

end Dbms18
