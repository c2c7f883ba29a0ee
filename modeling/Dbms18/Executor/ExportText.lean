import Dbms18.Common.CsvText
import Dbms18.Common.Value
import Dbms18.Executor.Export

/-!
# What an export writes (`Export::Exec`)

Over a scan of stored rows the file is given the text of each row, in the order of the scan (`exec_eq`).
-/

namespace Dbms18

namespace Export

variable {doubleText : UInt64 → Bytes} {rel : Relation} {t : RawTuple} {row : Row}

def text (doubleText : UInt64 → Bytes) : Value → Bytes
  | .integer i => decimal i.toInt
  | .float bits => doubleText bits
  | .date d => decimal d.toInt
  | .varchar v => v

theorem putColumn_eq (ht : t.Holds row) {j : Nat} {v : Value} (hj : row[j]? = some v) {column : ColumnDesc}
    (htype : column.dataType = v.dataType) (os : MiniCsv.OutStream) :
    putColumn doubleText [some t] os (column, j) = .ok (os.put (text doubleText v)) := by
  obtain ⟨offset, length, hoffset, hlength, hlen, hvalue⟩ := ht j v hj
  have hget : TupleRow.getTuple [some t] 0 = .ok t := rfl
  cases v with
  | integer i =>
    simp [putColumn, hget, hoffset, hlength, htype, Value.dataType, columnText, RawTuple.getInteger_of_load hvalue, text]
  | float bits =>
    simp [putColumn, hget, hoffset, hlength, htype, Value.dataType, columnText, RawTuple.getDouble_of_load hvalue, text]
  | date d =>
    simp [putColumn, hget, hoffset, hlength, htype, Value.dataType, columnText, RawTuple.getInteger_of_load hvalue, text]
  | varchar v =>
    simp only [Value.bytes] at hlen hvalue
    simp [putColumn, hget, hoffset, hlength, htype, Value.dataType, columnText, hlen, hvalue, text]

theorem foldlM_putColumn (ht : t.Holds row) {columns : List ColumnDesc} {i : Nat}
    (htypes : columns.map ColumnDesc.dataType = (row.drop i).map Value.dataType) (os : MiniCsv.OutStream) :
    (columns.zipIdx i).foldlM (putColumn doubleText [some t]) os =
      .ok (((row.drop i).map (text doubleText)).foldl MiniCsv.OutStream.put os) := by
  induction columns generalizing i os with
  | nil =>
    rw [List.map_eq_nil_iff.1 htypes.symm]
    rfl
  | cons column columns ih =>
    cases hdrop : row.drop i with
    | nil =>
      rw [hdrop] at htypes
      cases htypes
    | cons v rest =>
      rw [hdrop] at htypes
      obtain ⟨htype, hrest⟩ := List.cons.inj htypes
      have hj : row[i]? = some v := by
        rw [← List.head?_drop, hdrop]
        rfl
      have hdrop' : row.drop (i + 1) = rest := by
        rw [← List.tail_drop, hdrop]
        rfl
      rw [List.zipIdx_cons, List.foldlM_cons, putColumn_eq ht hj htype, Res.ok_bind, ih (hdrop' ▸ hrest), hdrop']
      rfl

theorem putRow_eq (doubleText : UInt64 → Bytes) (ht : t.Holds row) (htyped : row.Typed rel) (os : MiniCsv.OutStream)
    (hos : os.afterNewline = true) :
    ∃ os', putRow doubleText rel.toDesc [some t] os = .ok os' ∧ os'.afterNewline = true ∧
      os'.out = os.out ++ (MiniCsv.lineText (row.map (text doubleText)) ++ [newline]) := by
  have htypes : rel.toDesc.map ColumnDesc.dataType = (row.drop 0).map Value.dataType :=
    rel.map_dataType_toDesc.trans htyped.symm
  refine ⟨_, by rw [putRow, foldlM_putColumn ht htypes]; rfl, rfl, ?_⟩
  rw [MiniCsv.OutStream.endLine, MiniCsv.out_foldl_put, hos, if_pos rfl, List.append_assoc]
  rfl

def fileOf (doubleText : UInt64 → Bytes) (rows : List Row) : Bytes :=
  MiniCsv.fileText (rows.map fun row => row.map (text doubleText))

def lineOf (doubleText : UInt64 → Bytes) (row : Row) : Bytes := MiniCsv.lineText (row.map (text doubleText))

structure Writing (doubleText : UInt64 → Bytes) (iter : Nat) (records : List (Bytes × Bytes)) (done rest : List StoredRow)
    (e : Export LevelStore Unit) : Prop where
  iterAt : e.world.IterAt iter ⟨records, done.length⟩
  records : records.map Prod.snd = (done ++ rest).map StoredRow.record
  row : e.row.length = 1
  line : e.os.afterNewline = true
  out : e.os.out = fileOf doubleText (done.map StoredRow.values)

section

variable {iter : Nat} {records : List (Bytes × Bytes)} {done rest : List StoredRow} {e : Export LevelStore Unit}

theorem Writing.step_cons {r : StoredRow} (h : Writing doubleText iter records done (r :: rest) e)
    (htyped : r.values.Typed rel) (hholds : r.tuple.Holds r.values) :
    ∃ e', step doubleText (SeqScan.executor ⟨iter, 0⟩) rel.toDesc e = .ok (.inl e') ∧
      Writing doubleText iter records (done ++ [r]) rest e' := by
  have hrecord : (records.map Prod.snd)[done.length]? = some r.record := by simp [h.records]
  rw [List.getElem?_map] at hrecord
  obtain ⟨⟨key, record⟩, hat, rfl⟩ := Option.map_eq_some_iff.1 hrecord
  have hlt : 0 < e.row.length := by rw [h.row]; exact Nat.one_pos
  have hiter : e.world.IterAt (SeqScan.mk iter 0).iterator _ := h.iterAt
  obtain ⟨s', hnext, hiter, -⟩ := SeqScan.getNext_of_record hiter hat hlt
  obtain ⟨x, hx⟩ := List.length_eq_one_iff.1 h.row
  have hrow : e.row.set 0 (some (Cells.ofBytes r.record)) = [some r.tuple] := by
    rw [hx]
    rfl
  rw [hrow] at hnext
  obtain ⟨os, hput, hline, hout⟩ := putRow_eq doubleText hholds htyped e.os h.line
  refine ⟨{ e with world := s', row := [some r.tuple], os := os, rows := e.rows + 1 }, ?_, ?_⟩
  · simp [step, SeqScan.executor, hnext, hput]
  · refine ⟨by simpa using hiter, by simpa using h.records, rfl, hline, ?_⟩
    rw [hout, h.out]
    simp [fileOf, MiniCsv.fileText]

theorem Writing.step_nil (h : Writing doubleText iter records done [] e) :
    step doubleText (SeqScan.executor ⟨iter, 0⟩) rel.toDesc e = .ok (.inr (.eof, e)) := by
  have hend : records.length ≤ done.length := by
    have hlen := congrArg List.length h.records
    simp at hlen
    omega
  have hnext : SeqScan.getNext ⟨iter, 0⟩ e.world e.row = _ := SeqScan.getNext_of_end h.iterAt hend
  simp [step, SeqScan.executor, hnext]

end

theorem exec_eq {iter fuel : Nat} {s : LevelStore} {c : Cursor} {rows : List StoredRow} (hc : s.IterAt iter c)
    (hrecords : c.records.map Prod.snd = rows.map StoredRow.record) (htyped : ∀ r ∈ rows, r.values.Typed rel)
    (hholds : ∀ r ∈ rows, r.tuple.Holds r.values) (hfuel : rows.length < fuel) :
    ∃ response s', exec doubleText (SeqScan.executor ⟨iter, 0⟩) rel.toDesc fuel () s =
      .ok (.ok, response, fileOf doubleText (rows.map StoredRow.values), s') := by
  have hc₀ : s.IterAt (SeqScan.mk iter 0).iterator c := hc
  obtain ⟨s₁, hopen, hc₁, -⟩ := SeqScan.execOpen_of_iterAt hc₀
  let I := fun (k : Nat) (e : Export LevelStore Unit) =>
    ∃ done rest, rows = done ++ rest ∧ rest.length = k ∧ Writing doubleText iter c.records done rest e
  have hstart : I rows.length { members := (), world := s₁, row := TupleRow.new 1 } :=
    ⟨[], rows, rfl, rfl, hc₁, hrecords, rfl, rfl, rfl⟩
  have hstep : ∀ k e, I k e →
      (∃ k' e', step doubleText (SeqScan.executor ⟨iter, 0⟩) rel.toDesc e = .ok (.inl e') ∧ I k' e' ∧ k' < k) ∨
        ∃ r, step doubleText (SeqScan.executor ⟨iter, 0⟩) rel.toDesc e = .ok (.inr r) ∧
          r.1 = .eof ∧ r.2.os.out = fileOf doubleText (rows.map StoredRow.values) := by
    rintro k e ⟨done, rest, rfl, rfl, he⟩
    cases rest with
    | nil => exact .inr ⟨_, he.step_nil, rfl, by simpa using he.out⟩
    | cons r rest =>
      have hmem : r ∈ done ++ r :: rest := by simp
      obtain ⟨e', hstep, he'⟩ := he.step_cons (htyped r hmem) (hholds r hmem)
      exact .inl ⟨rest.length, e', hstep, ⟨done ++ [r], rest, by simp, rfl, he'⟩, Nat.lt_succ_self _⟩
  obtain ⟨⟨state, e⟩, hloop, rfl, hout⟩ := Res.loop_total hstep hstart hfuel
  refine ⟨ascii "copy " ++ decimal e.rows.toInt ++ ascii ".", e.world, ?_⟩
  have hopen' : (SeqScan.executor ⟨iter, 0⟩).execOpen () s = .ok (.ok, (), s₁) := by simp [SeqScan.executor, hopen]
  have hclose : (SeqScan.executor ⟨iter, 0⟩).close e.members e.world = .ok ((), e.world) := rfl
  simp [exec, hopen', hloop, hclose]
  exact hout

end Export

end Dbms18
