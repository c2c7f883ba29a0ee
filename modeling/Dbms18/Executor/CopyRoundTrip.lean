import Dbms18.Executor.ExportText
import Dbms18.Executor.WholeFile

/-!
# A table copied to a file and back (`Export::Exec`, `Load::Exec`)

An export writes each row as a line, and a load of the file makes a row of each line that `read_line`
gives. The rows come back exactly if the lines are all read and no value has a `$` before another `$` or a
delimiter (`restores_iff`).
-/

namespace Dbms18

open List MiniCsv

/-- The rows of relations with INTEGER and VARCHAR columns. -/
def Row.Simple (row : Row) : Prop := ∀ v ∈ row, v.dataType = .integer ∨ v.dataType = .varchar

def Row.Clean (row : Row) : Prop := ∀ v, .varchar v ∈ row → MiniCsv.Clean v

theorem Row.Simple.cases {row : Row} (h : row.Simple) {v : Value} (hv : v ∈ row) :
    (∃ i, v = .integer i) ∨ ∃ text, v = .varchar text := by
  have htype := h v hv
  cases v with
  | integer i => exact .inl ⟨i, rfl⟩
  | varchar text => exact .inr ⟨text, rfl⟩
  | float bits => simp [Value.dataType] at htype
  | date d => simp [Value.dataType] at htype

/-- What an export and a load make of a value. -/
def Value.reread : Value → Value
  | .varchar v => .varchar (unescape delimiter (escape v))
  | v => v

variable {doubleText : UInt64 → Bytes} {host : Load.Host} {row : Row} {rows : List Row} {b : UInt8}

/-! ## One line -/

theorem MiniCsv.mem_decimal {i : Int} (h : b ∈ decimal i) : isDigit b = true ∨ b = 0x2d := by
  rw [decimal_eq] at h
  split at h
  · exact .inl (isDigit_digitsText _ b h)
  · rcases mem_cons.1 h with rfl | h
    · exact .inr rfl
    · exact .inl (isDigit_digitsText _ b h)

theorem MiniCsv.not_mem_decimal {i : Int} (hb : isDigit b = false) (hminus : b ≠ 0x2d) : b ∉ decimal i := by
  intro h
  rcases mem_decimal h with h | h
  · rw [h] at hb
    cases hb
  · exact hminus h

theorem MiniCsv.clean_decimal (i : Int) : MiniCsv.Clean (decimal i) :=
  ⟨not_mem_decimal (by decide) (by decide), not_mem_decimal (by decide) (by decide)⟩

theorem MiniCsv.plain_decimal (i : Int) : Plain (decimal i) := by
  refine List.Pairwise.isChain (List.Pairwise.imp_of_mem (fun ha _ _ heq => ?_) (pairwise_of_forall fun _ _ => trivial))
  subst heq
  exact absurd ha (not_mem_decimal (by decide) (by decide))

theorem Export.clean_text (doubleText : UInt64 → Bytes) (hsimple : row.Simple) (hclean : row.Clean) :
    ∀ field ∈ row.map (Export.text doubleText), MiniCsv.Clean field := by
  rw [forall_mem_map]
  intro v hv
  rcases hsimple.cases hv with ⟨i, rfl⟩ | ⟨text, rfl⟩
  · exact clean_decimal _
  · exact hclean text hv

theorem Load.readFields_eq (types : List DataType) (line : Bytes) : Load.readFields host delimiter types line =
    List.zipWith (Load.readField host) types (fieldTexts delimiter types.length line) := by
  induction types generalizing line with
  | nil => rfl
  | cons type types ih => rw [Load.readFields, ih]; rfl

theorem Load.readFields_lineOf (host : Load.Host) (doubleText : UInt64 → Bytes) (hsimple : row.Simple) (hclean : row.Clean) :
    Load.readFields host delimiter (row.map Value.dataType) (Export.lineOf doubleText row) =
      Load.readable (row.map Value.reread) := by
  have htexts := fieldTexts_lineText (Export.clean_text doubleText hsimple hclean)
  rw [length_map] at htexts
  rw [Load.readFields_eq, length_map, Export.lineOf, htexts, Load.readable, map_map, map_map,
    zipWith_map_left, zipWith_map_right, zipWith_self]
  refine map_congr_left fun v hv => ?_
  rcases hsimple.cases hv with ⟨i, rfl⟩ | ⟨text, rfl⟩
  · simp [Load.readField, Value.dataType, Export.text, unescape_escape (plain_decimal _), parseInteger_decimal, Value.reread]
  · rfl

theorem Export.lineOf_eq_nil_iff (hsimple : row.Simple) :
    Export.lineOf doubleText row = [] ↔ row = [] ∨ row = [.varchar []] := by
  match row with
  | [] => simp [Export.lineOf, lineText]
  | [v] =>
    rcases hsimple.cases mem_cons_self with ⟨i, rfl⟩ | ⟨text, rfl⟩
    · obtain ⟨b, bs, heq⟩ : ∃ b bs, decimal i.toInt = b :: bs := by
        rw [decimal_eq]
        split
        · obtain ⟨b, bs, heq, -⟩ := exists_digitsText i.toInt.toNat
          exact ⟨b, bs, heq⟩
        · exact ⟨_, _, rfl⟩
      have hne : escape (decimal i.toInt) ≠ [] := by
        rw [heq, escape_cons]
        split <;> simp
      simp [Export.lineOf, lineText, Export.text, hne]
    · cases text with
      | nil => simp [Export.lineOf, lineText, Export.text, escape]
      | cons b bs =>
        have hne : escape (b :: bs) ≠ [] := by
          rw [escape_cons]
          split <;> simp
        simp [Export.lineOf, lineText, Export.text, hne]
  | v :: v' :: row => simp [Export.lineOf, lineText]

/-! ## Bytes of a byte order mark -/

def Row.countByte (b : UInt8) (row : Row) : Nat :=
  (row.map fun
    | .varchar text => text.count b
    | _ => 0).sum

theorem Row.countByte_cons (b : UInt8) (v : Value) (row : Row) : Row.countByte b (v :: row) = (match v with
      | .varchar text => text.count b
      | _ => 0) + row.countByte b := rfl

def MiniCsv.IsMark (b : UInt8) : Prop := b = 0xef ∨ b = 0xbb ∨ b = 0xbf

theorem MiniCsv.exists_isMark {content : Bytes} (h : hasBom content = true) :
    ∃ i b, i < 3 ∧ IsMark b ∧ content[i]? = some b := by
  rcases of_decide_eq_true h with h | h | h
  · exact ⟨0, _, by decide, .inl rfl, h⟩
  · exact ⟨1, _, by decide, .inr (.inl rfl), h⟩
  · exact ⟨2, _, by decide, .inr (.inr rfl), h⟩

theorem MiniCsv.IsMark.ne (h : IsMark b) : b ≠ delimiter ∧ b ≠ 0x24 ∧ isDigit b = false ∧ b ≠ 0x2d := by
  rcases h with rfl | rfl | rfl <;> decide

theorem Export.count_lineOf (hb : IsMark b) (hsimple : row.Simple) :
    (Export.lineOf doubleText row).count b = row.countByte b := by
  obtain ⟨hdelimiter, hdollar, hdigit, hminus⟩ := hb.ne
  rw [Export.lineOf, MiniCsv.count_lineText hdelimiter hdollar, map_map, Row.countByte]
  refine congrArg List.sum (map_congr_left fun v hv => ?_)
  rcases hsimple.cases hv with ⟨i, rfl⟩ | ⟨text, rfl⟩
  · exact count_eq_zero.2 (not_mem_decimal hdigit hminus)
  · rfl

variable {types : List DataType}

theorem Load.countByte_le_sum (htypes : ∀ t ∈ types, t = .integer ∨ t = .varchar)
    {texts : List Bytes} (h : List.zipWith (Load.readField host) types texts = Load.readable row) :
    row.countByte b ≤ (texts.map (List.count b)).sum := by
  induction types generalizing texts row with
  | nil =>
    obtain rfl := map_eq_nil_iff.1 h.symm
    exact Nat.zero_le _
  | cons type types ih =>
    rw [forall_mem_cons] at htypes
    match texts, row, h with
    | [], [], _ => exact le_rfl
    | text :: texts, v :: row, h =>
      obtain ⟨hfield, hrest⟩ := List.cons.inj h
      have hle := ih htypes.2 hrest
      rw [Row.countByte_cons, map_cons, sum_cons]
      refine Nat.add_le_add ?_ hle
      rcases htypes.1 with rfl | rfl
      · obtain ⟨i, -, rfl⟩ := Option.map_eq_some_iff.1 (Except.ok.inj hfield)
        exact Nat.zero_le _
      · obtain rfl := Option.some.inj (Except.ok.inj hfield)
        exact le_rfl

theorem Load.countByte_le (hb : IsMark b) (htypes : ∀ t ∈ types, t = .integer ∨ t = .varchar)
    {line : Bytes} (h : Load.readFields host delimiter types line = Load.readable row) : row.countByte b ≤ line.count b := by
  rw [Load.readFields_eq] at h
  exact (Load.countByte_le_sum htypes h).trans (count_fieldTexts hb.ne.1 hb.ne.2.1 types.length line)

/-! ## The whole file -/

section

variable {types : List DataType} (htypes : ∀ t ∈ types, t = .integer ∨ t = .varchar)
  (hrows : ∀ row ∈ rows, row.map Value.dataType = types) (hclean : ∀ row ∈ rows, row.Clean)
include htypes hrows

theorem simple_of_types : ∀ row ∈ rows, row.Simple := by
  intro row hrow v hv
  exact htypes _ (hrows row hrow ▸ mem_map_of_mem hv)

theorem sum_count_lines (doubleText : UInt64 → Bytes) (hb : IsMark b) :
    ((rows.map (Export.lineOf doubleText)).map (List.count b)).sum = (rows.map (Row.countByte b)).sum := by
  rw [map_map]
  refine congrArg List.sum (map_congr_left fun row hrow => ?_)
  exact Export.count_lineOf hb (simple_of_types htypes hrows row hrow)

omit hrows in
theorem sum_countByte_le (hb : IsMark b) {texts : List Bytes} {read : List Row}
    (h : texts.map (Load.readFields host delimiter types) = read.map Load.readable) :
    (read.map (Row.countByte b)).sum ≤ (texts.map (List.count b)).sum := by
  induction texts generalizing read with
  | nil =>
    obtain rfl := map_eq_nil_iff.1 h.symm
    exact le_rfl
  | cons text texts ih =>
    match read, h with
    | row :: read, h =>
      obtain ⟨hrow, hrest⟩ := List.cons.inj h
      exact Nat.add_le_add (Load.countByte_le hb htypes hrow) (ih hrest)

include hclean

theorem getLines_fileOf : getLines (Export.fileOf doubleText rows) = rows.map (Export.lineOf doubleText) := by
  rw [Export.fileOf, getLines_fileText, map_map]
  · rfl
  · rw [forall_mem_map]
    intro row hrow
    exact Export.clean_text doubleText (simple_of_types htypes hrows row hrow) (hclean row hrow)

theorem map_readFields_lineOf : (rows.map (Export.lineOf doubleText)).map (Load.readFields host delimiter types) =
    (rows.map (List.map Value.reread)).map Load.readable := by
  rw [map_map, map_map]
  refine map_congr_left fun row hrow => ?_
  rw [Function.comp_apply, ← hrows row hrow]
  exact Load.readFields_lineOf host doubleText (simple_of_types htypes hrows row hrow) (hclean row hrow)

variable {texts : List Bytes} {read : List Row} (hread : readLines (Export.fileOf doubleText rows) = .ok texts)
  (hfields : texts.map (Load.readFields host delimiter types) = read.map Load.readable) (hperm : read.Perm rows)
include hread hfields hperm

theorem hasBom_eq_false_of_perm (hne : rows ≠ []) : hasBom (Export.fileOf doubleText rows) = false := by
  by_contra hbom
  rw [Bool.not_eq_false] at hbom
  obtain ⟨l, ls, hlines, hl, -, rfl⟩ := readLines_of_hasBom hbom hread
  rw [getLines_fileOf htypes hrows hclean] at hlines
  have hlength : ((l.drop 3 :: ls).takeWhile (· ≠ [])).length = (l.drop 3 :: ls).length := by
    have h₁ := congrArg List.length hfields
    have h₂ := congrArg List.length hlines
    rw [length_map, length_map] at h₁
    rw [length_map] at h₂
    rw [h₁, hperm.length_eq, h₂]
    rfl
  rw [(List.takeWhile_prefix _).eq_of_length hlength] at hfields
  obtain ⟨i, b, hi, hb, hat⟩ := exists_isMark hbom
  obtain ⟨row, rows, rfl⟩ := exists_cons_of_ne_nil hne
  obtain ⟨rfl, rfl⟩ := List.cons.inj hlines
  have hmem : b ∈ (Export.lineOf doubleText row).take 3 := by
    have happend : Export.fileOf doubleText (row :: rows) =
        Export.lineOf doubleText row ++ newline :: Export.fileOf doubleText rows := by
      simp [Export.fileOf, fileText, Export.lineOf]
    rw [happend, getElem?_append_left (by omega)] at hat
    exact mem_of_getElem? ((getElem?_take_of_lt hi).trans hat)
  have hle := sum_countByte_le htypes hb hfields
  have hsum := sum_count_lines htypes hrows doubleText hb
  rw [(hperm.map _).sum_nat, ← hsum] at hle
  simp only [map_cons, sum_cons] at hle
  have hsplit := congrArg (List.count b) (take_append_drop 3 (Export.lineOf doubleText row))
  rw [count_append] at hsplit
  have hpos := count_pos_iff.2 hmem
  omega

theorem read_eq_of_perm (hne : rows ≠ []) : 3 ≤ (Export.fileOf doubleText rows).length ∧
    (∀ row ∈ rows, Export.lineOf doubleText row ≠ []) ∧ read = rows.map (List.map Value.reread) := by
  have hbom := hasBom_eq_false_of_perm htypes hrows hclean hread hfields hperm hne
  have hlength : texts.length = rows.length := by
    have h := congrArg List.length hfields
    rw [length_map, length_map] at h
    exact h.trans hperm.length_eq
  rw [readLines_of_not_hasBom hbom, getLines_fileOf htypes hrows hclean] at hread
  obtain rfl := Except.ok.inj hread
  split at hlength
  · exact absurd (length_eq_zero_iff.1 hlength.symm) hne
  next hlong =>
  rw [if_neg hlong] at hfields
  have hwhole : (rows.map (Export.lineOf doubleText)).takeWhile (· ≠ []) = rows.map (Export.lineOf doubleText) :=
    (List.takeWhile_prefix _).eq_of_length (hlength.trans (length_map ..).symm)
  refine ⟨Nat.le_of_not_lt hlong, fun row hrow => ?_, ?_⟩
  · exact of_decide_eq_true (takeWhile_eq_self_iff.1 hwhole _ (mem_map_of_mem hrow))
  · rw [hwhole, map_readFields_lineOf htypes hrows hclean] at hfields
    exact (map_injective_iff.2 (Function.LeftInverse.injective Load.readValues_readable) hfields).symm

end

/-! ## There and back -/

def Restorable (doubleText : UInt64 → Bytes) (rows : List Row) : Prop :=
  rows = [] ∨ 3 ≤ (Export.fileOf doubleText rows).length ∧ hasBom (Export.fileOf doubleText rows) = false ∧
    ∀ row ∈ rows, row ≠ [] ∧ row ≠ [.varchar []] ∧ (∀ text, .varchar text ∈ row → Plain text) ∧
      row.record.length ≤ pageSize

/-- An export of the rows returns `kStateOK`, a load of its file too, and then the relation `rel'` holds the
same rows. -/
def Restores (doubleText : UInt64 → Bytes) (host : Load.Host) (rel : Relation) (iter : Nat) (s : LevelStore)
    (rows : List StoredRow) (catalog : Catalog) (relName : Bytes) (rel' : Relation) (s₁ : LevelStore) : Prop :=
  ∃ content, (∃ bound, ∀ fuel ≥ bound, ∃ response s',
      Export.exec doubleText (SeqScan.executor ⟨iter, 0⟩) rel.toDesc fuel () s = .ok (.ok, response, content, s')) ∧
    ∃ response s₂, ∃ after : List StoredRow,
      Load.cmd host relName delimiter (some content) catalog s₁ = .ok (.ok, response, s₂) ∧
      (s₂.databases rel'.id).toList.map Prod.snd = after.map StoredRow.record ∧
      (∀ r ∈ after, r.values.Typed rel' ∧ r.tuple.Holds r.values) ∧
      (after.map StoredRow.values).Perm (rows.map StoredRow.values)

theorem plain_of_mem_reread {text : Bytes} (h : .varchar text ∈ row.map Value.reread) : Plain text := by
  obtain ⟨v, -, hv⟩ := mem_map.1 h
  cases v with
  | varchar text' =>
    obtain rfl := Value.varchar.inj hv
    exact plain_unescape_escape text'
  | integer i => cases hv
  | float bits => cases hv
  | date d => cases hv

theorem map_reread_of_plain (h : ∀ text, .varchar text ∈ row → Plain text) : row.map Value.reread = row := by
  refine (map_congr_left fun v hv => ?_).trans (map_id row)
  cases v with
  | varchar text => exact congrArg Value.varchar (unescape_escape (h text hv))
  | integer i => rfl
  | float bits => rfl
  | date d => rfl

theorem Restorable.map_reread (h : Restorable doubleText rows) : rows.map (List.map Value.reread) = rows := by
  rcases h with rfl | ⟨-, -, hall⟩
  · rfl
  · exact (map_congr_left fun row hrow => map_reread_of_plain (hall row hrow).2.2.1).trans (map_id rows)

theorem Restorable.of_perm (htypes : ∀ t ∈ types, t = .integer ∨ t = .varchar)
    (hrows : ∀ row ∈ rows, row.map Value.dataType = types) (hclean : ∀ row ∈ rows, row.Clean) {texts : List Bytes}
    {read : List Row} (hread : readLines (Export.fileOf doubleText rows) = .ok texts)
    (hfields : texts.map (Load.readFields host delimiter types) = read.map Load.readable)
    (hfits : ∀ row ∈ read, row.record.length ≤ pageSize) (hperm : read.Perm rows) : Restorable doubleText rows := by
  by_cases hne : rows = []
  · exact .inl hne
  have hbom := hasBom_eq_false_of_perm htypes hrows hclean hread hfields hperm hne
  obtain ⟨hlen, hlines, hreread⟩ := read_eq_of_perm htypes hrows hclean hread hfields hperm hne
  refine .inr ⟨hlen, hbom, fun row hrow => ?_⟩
  have hblank := (Export.lineOf_eq_nil_iff (simple_of_types htypes hrows row hrow)).not.1 (hlines row hrow)
  rw [not_or] at hblank
  refine ⟨hblank.1, hblank.2, fun text htext => ?_, hfits row (hperm.symm.subset hrow)⟩
  have hmem : row ∈ rows.map (List.map Value.reread) := hreread ▸ hperm.symm.subset hrow
  obtain ⟨row', -, rfl⟩ := mem_map.1 hmem
  exact plain_of_mem_reread htext

section

variable {rel rel' : Relation} {iter : Nat} {s s₁ s₂ : LevelStore} {c : Cursor} {stored : List StoredRow} {catalog : Catalog}
  {relName response content : Bytes}

theorem Load.perm_records (hrel : catalog.getRelation relName = some rel') (hs : s₁.Wf) (hclosed : s₁.opened rel'.id = false)
    (hempty : s₁.databases rel'.id = ∅) (huuid : Function.Injective host.uuid)
    (hcmd : Load.cmd host relName delimiter (some content) catalog s₁ = .ok (.ok, response, s₂)) :
    ∃ texts, ∃ read : List Row, MiniCsv.readLines content = .ok texts ∧
      texts.map (Load.readFields host delimiter (rel'.attributes.map Attribute.dataType)) = read.map Load.readable ∧
      (∀ row ∈ read, Load.Fits rel' row) ∧
      ((s₂.databases rel'.id).toList.map Prod.snd).Perm (read.map Row.record) := by
  obtain ⟨texts, read, htexts, hfields, hfits, hdb⟩ := Load.cmd_ok hrel hs hcmd
  refine ⟨texts, read, htexts, hfields, hfits, ?_⟩
  have hpending : s₁.pending rel'.id = [] := by
    simp [LevelStore.pending, (hs.of_not_opened hclosed).2.2 .write]
  have hperm : (s₂.databases rel'.id).toList.Perm ([] ++ Load.recordsOf host read) := by
    rw [hdb, Function.update_self, hpending, hempty]
    exact Overlay.toList_overlay_perm (Load.nodup_keys_recordsOf huuid read) fun r _ => Std.ExtTreeMap.getElem?_empty
  have hsnd : (Load.recordsOf host read).map Prod.snd = read.map Row.record := by
    refine ext_getElem? fun i => ?_
    rw [getElem?_map, Load.getElem?_recordsOf, getElem?_map, Option.map_map]
    rfl
  exact hsnd ▸ hperm.map Prod.snd

theorem Load.exists_cmd_nil (hrel : catalog.getRelation relName = some rel') (hs : s₁.Wf)
    (hclosed : s₁.opened rel'.id = false) (hstatus : host.status = .ok)
    (hlines : Load.csvLines host delimiter rel'.toDesc content = .ok []) :
    ∃ response s₂, Load.cmd host relName delimiter (some content) catalog s₁ = .ok (.ok, response, s₂) := by
  obtain ⟨h, s', hnew, hw, -⟩ := LevelStore.exists_writing hs hclosed
  obtain ⟨s₂, hcommit, -, -⟩ := hw.commit
  refine ⟨ascii "copy " ++ decimal (0 : Int32).toInt ++ ascii " to relation " ++ relName ++ ascii ".", s₂, ?_⟩
  simp [Load.cmd, hrel, hlines, Load.exec, Load.new, hnew, Load.readLines, hstatus, hcommit, Res.check_of]

theorem Restorable.readLines_eq {types : List DataType} (h : Restorable doubleText rows)
    (htypes : ∀ t ∈ types, t = .integer ∨ t = .varchar) (hrows : ∀ row ∈ rows, row.map Value.dataType = types)
    (hclean : ∀ row ∈ rows, row.Clean) :
    readLines (Export.fileOf doubleText rows) = .ok (rows.map (Export.lineOf doubleText)) := by
  rcases h with rfl | ⟨hlen, hbom, hall⟩
  · rfl
  rw [readLines_of_not_hasBom hbom, if_neg (Nat.not_lt.2 hlen), getLines_fileOf htypes hrows hclean,
    takeWhile_eq_self_iff.2]
  rw [forall_mem_map]
  intro row hrow
  refine decide_eq_true ((Export.lineOf_eq_nil_iff (simple_of_types htypes hrows row hrow)).not.2 ?_)
  exact not_or.2 ⟨(hall row hrow).1, (hall row hrow).2.1⟩

theorem Restorable.exists_cmd (h : Restorable doubleText rows) (hrel : catalog.getRelation relName = some rel') (hs : s₁.Wf)
    (hclosed : s₁.opened rel'.id = false) (hstatus : host.status = .ok)
    (htypes : ∀ t ∈ rel'.attributes.map Attribute.dataType, t = .integer ∨ t = .varchar)
    (hrows : ∀ row ∈ rows, row.Typed rel') (hclean : ∀ row ∈ rows, row.Clean) :
    ∃ response s₂,
      Load.cmd host relName delimiter (some (Export.fileOf doubleText rows)) catalog s₁ = .ok (.ok, response, s₂) := by
  have hread := h.readLines_eq htypes hrows hclean
  rcases h with rfl | ⟨hlen, -, hall⟩
  · exact Load.exists_cmd_nil hrel hs hclosed hstatus rfl
  have hcolumns : rel'.attributes ≠ [] := by
    obtain ⟨row, hrow⟩ := exists_mem_of_ne_nil rows (by rintro rfl; cases hlen)
    intro hnil
    have htyped := hrows row hrow
    rw [Row.Typed, hnil] at htyped
    exact (hall row hrow).1 (map_eq_nil_iff.1 htyped)
  have hfits : ∀ r ∈ rows.mapIdx fun i row => (host.uuid i, row), Load.Fits rel' r.2 := by
    intro r hr
    obtain ⟨i, hi, rfl⟩ := mem_mapIdx.1 hr
    have hmem := getElem_mem hi
    exact ⟨hrows _ hmem, (hall _ hmem).2.2.2⟩
  have hlines : Load.csvLines host delimiter rel'.toDesc (Export.fileOf doubleText rows) =
      .ok ((rows.mapIdx fun i row => (host.uuid i, row)).map Load.line) := by
    rw [Load.csvLines, hread, Res.ok_bind, rel'.map_dataType_toDesc]
    refine congrArg Except.ok (ext_getElem? fun i => ?_)
    rw [getElem?_mapIdx, getElem?_map, getElem?_map, getElem?_mapIdx, Option.map_map, Option.map_map]
    cases hrow : rows[i]? with
    | none => rfl
    | some row =>
      have hmem := mem_of_getElem? hrow
      have hfields := Load.readFields_lineOf host doubleText (simple_of_types htypes hrows row hmem) (hclean row hmem)
      rw [hrows row hmem, map_reread_of_plain (hall row hmem).2.2.1] at hfields
      simp [hfields, Load.line]
  obtain ⟨response, s₂, hcmd, -⟩ := Load.cmd_eq hrel hcolumns hfits hlines hstatus hs hclosed
  exact ⟨response, s₂, hcmd⟩

section

variable (hc : s.IterAt iter c) (hrecords : c.records.map Prod.snd = stored.map StoredRow.record)
  (htyped : ∀ r ∈ stored, r.values.Typed rel) (hholds : ∀ r ∈ stored, r.tuple.Holds r.values)
  (htypes : ∀ a ∈ rel.attributes, a.dataType = .integer ∨ a.dataType = .varchar)
  (hclean : ∀ r ∈ stored, r.values.Clean)
  (hsame : rel'.attributes.map Attribute.dataType = rel.attributes.map Attribute.dataType)
  (hrel : catalog.getRelation relName = some rel') (hs : s₁.Wf) (hclosed : s₁.opened rel'.id = false)
  (hempty : s₁.databases rel'.id = ∅) (huuid : Function.Injective host.uuid)
include hc hrecords htyped hholds htypes hclean hsame hrel hs hclosed hempty huuid

theorem Restores.restorable (h : Restores doubleText host rel iter s stored catalog relName rel' s₁) :
    Restorable doubleText (stored.map StoredRow.values) := by
  obtain ⟨content, ⟨bound, hexport⟩, response, s₂, after, hcmd, hafter, hstored, hperm⟩ := h
  obtain ⟨response₁, s₃, hexec⟩ := hexport (bound + (stored.length + 1)) (Nat.le_add_right _ _)
  have hfuel : stored.length < bound + (stored.length + 1) := by omega
  obtain ⟨response₂, s₄, hexec'⟩ := Export.exec_eq hc hrecords htyped hholds hfuel
  obtain rfl : content = Export.fileOf doubleText (stored.map StoredRow.values) := by
    have heq := Except.ok.inj (hexec.symm.trans hexec')
    simp only [Prod.mk.injEq] at heq
    exact heq.2.2.1
  obtain ⟨texts, read, htexts, hfields, hfits, hrecords'⟩ := Load.perm_records hrel hs hclosed hempty huuid hcmd
  rw [hafter] at hrecords'
  refine Restorable.of_perm (forall_mem_map.2 htypes) (forall_mem_map.2 htyped) (forall_mem_map.2 hclean)
    htexts (hsame ▸ hfields) (fun row hrow => (hfits row hrow).size) ?_
  exact (Load.perm_values hfits hstored hrecords').symm.trans hperm

theorem Restorable.restores (hstatus : host.status = .ok) (h : Restorable doubleText (stored.map StoredRow.values)) :
    Restores doubleText host rel iter s stored catalog relName rel' s₁ := by
  have htypes' : ∀ t ∈ rel'.attributes.map Attribute.dataType, t = .integer ∨ t = .varchar :=
    hsame ▸ forall_mem_map.2 htypes
  have hrows : ∀ row ∈ stored.map StoredRow.values, row.Typed rel' :=
    forall_mem_map.2 fun r hr => (htyped r hr).trans hsame.symm
  have hclean' : ∀ row ∈ stored.map StoredRow.values, row.Clean := forall_mem_map.2 hclean
  obtain ⟨response, s₂, hcmd⟩ := h.exists_cmd hrel hs hclosed hstatus htypes' hrows hclean'
  obtain ⟨texts, read, htexts, hfields, hfits, hrecords'⟩ := Load.perm_records hrel hs hclosed hempty huuid hcmd
  obtain rfl := Except.ok.inj ((h.readLines_eq htypes' hrows hclean').symm.trans htexts)
  rw [map_readFields_lineOf htypes' hrows hclean', h.map_reread] at hfields
  obtain rfl := map_injective_iff.2 (Function.LeftInverse.injective Load.readValues_readable) hfields
  obtain ⟨after, hafter, hstored, hperm⟩ := Load.exists_stored hfits hrecords'
  refine ⟨Export.fileOf doubleText (stored.map StoredRow.values), ⟨stored.length + 1, fun fuel hfuel => ?_⟩,
    response, s₂, after, hcmd, hafter, hstored, hperm⟩
  exact Export.exec_eq hc hrecords htyped hholds hfuel

/-- COPY TO and then COPY FROM restores a table exactly if its rows are `Restorable`. -/
theorem restores_iff (hstatus : host.status = .ok) :
    Restores doubleText host rel iter s stored catalog relName rel' s₁ ↔
      Restorable doubleText (stored.map StoredRow.values) :=
  ⟨Restores.restorable hc hrecords htyped hholds htypes hclean hsame hrel hs hclosed hempty huuid,
    Restorable.restores hc hrecords htyped hholds htypes hclean hsame hrel hs hclosed hempty huuid hstatus⟩

end

end

def storedNote (n : Int64) (note : Bytes) : StoredRow := ⟨Row.record [.integer n, .varchar note], [.integer n, .varchar note]⟩

theorem typed_storedNote (n : Int64) (note : Bytes) : (storedNote n note).values.Typed Load.notes := rfl

theorem holds_storedNote (n : Int64) {note : Bytes} (h : note.length ≤ 4) :
    (storedNote n note).tuple.Holds (storedNote n note).values := by
  refine RawTuple.holds_layout ?_
  simp [RawTuple.length_layout, Value.bytes, sizeofSlot]
  omega

def noteStore (n : Int64) (note : Bytes) : LevelStore := .scanning [[([], (storedNote n note).record)]]

theorem notes_simple : ∀ a ∈ Load.notes.attributes, a.dataType = .integer ∨ a.dataType = .varchar := by
  decide

theorem eq_of_mem_storedNote {n : Int64} {note text : Bytes} (h : .varchar text ∈ (storedNote n note).values) :
    text = note := by
  simpa [storedNote] using h

section

variable {n : Int64} {note : Bytes} (hlen : note.length ≤ 4) (hclean : MiniCsv.Clean note)
include hlen hclean

theorem plain_of_restores_note (h : Restores (fun _ => []) Load.numbering Load.notes 0 (noteStore n note) [storedNote n note]
    Load.notesCatalog (ascii "notes") Load.notes Load.emptyStore) : Plain note := by
  have hrestorable := h.restorable (LevelStore.iterAt_scanning rfl) rfl
    (forall_mem_singleton.2 (typed_storedNote n note)) (forall_mem_singleton.2 (holds_storedNote n hlen))
    notes_simple (forall_mem_singleton.2 fun text htext => eq_of_mem_storedNote htext ▸ hclean) rfl
    Load.getRelation_notesCatalog Load.wf_emptyStore rfl rfl Load.freshKeys_emptyStore.injective
  rcases hrestorable with hnil | ⟨-, -, hall⟩
  · cases hnil
  · exact (hall _ mem_cons_self).2.2.1 note (by simp [storedNote])

end

theorem restores_note : Restores (fun _ => []) Load.numbering Load.notes 0 (noteStore 5 (ascii "a,b"))
    [storedNote 5 (ascii "a,b")] Load.notesCatalog (ascii "notes") Load.notes Load.emptyStore := by
  refine (restores_iff (LevelStore.iterAt_scanning rfl) rfl ?_ ?_ notes_simple ?_ rfl Load.getRelation_notesCatalog
    Load.wf_emptyStore rfl rfl Load.freshKeys_emptyStore.injective rfl).2 ?_
  · exact forall_mem_singleton.2 (typed_storedNote 5 _)
  · exact forall_mem_singleton.2 (holds_storedNote 5 (by decide))
  · refine forall_mem_singleton.2 fun text htext => ?_
    rw [eq_of_mem_storedNote htext]
    decide
  · refine .inr ⟨by decide, by decide, forall_mem_singleton.2 ⟨by decide, by decide, fun text htext => ?_, by decide⟩⟩
    rw [eq_of_mem_storedNote htext]
    decide

/-- The text `$$` comes back as a comma. -/
theorem not_restores_dollars : ¬ Restores (fun _ => []) Load.numbering Load.notes 0 (noteStore 5 (ascii "$$"))
    [storedNote 5 (ascii "$$")] Load.notesCatalog (ascii "notes") Load.notes Load.emptyStore := by
  intro h
  exact absurd (plain_of_restores_note (by decide) (by decide) h) (by decide)

end Dbms18
