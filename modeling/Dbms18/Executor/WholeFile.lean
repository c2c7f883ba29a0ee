import Dbms18.Common.CsvLines
import Dbms18.Executor.LoadFile

/-!
# Whether a load stores the whole file (`Load::Prepare`, `Load::Exec`)

A load that returns `kStateOK` has stored the lines that `read_line` gave. They are all lines of the file
that are not blank exactly if the file is as `MiniCsv.ReadsAll` says (`consumed_iff`).
-/

namespace Dbms18

open List

namespace Load

variable {rel : Relation}

theorem record_injOn (rel : Relation) : Set.InjOn Row.record {row | Fits rel row} := by
  intro row hrow row' hrow' heq
  have hholds := hrow'.holds
  rw [← heq] at hholds
  exact hrow.holds.eq_of_types hholds (hrow.typed.trans hrow'.typed.symm)

theorem map_invFunOn_record {rows : List Row} (hrows : ∀ row ∈ rows, Fits rel row) :
    (rows.map Row.record).map (Function.invFunOn Row.record {row | Fits rel row}) = rows := by
  rw [map_map]
  have hinv := (record_injOn rel).leftInvOn_invFunOn
  exact (map_congr_left fun row hrow => hinv (hrows row hrow)).trans (map_id rows)

theorem perm_of_perm_record {rows rows' : List Row} (hrows : ∀ row ∈ rows, Fits rel row)
    (hrows' : ∀ row ∈ rows', Fits rel row) (h : (rows.map Row.record).Perm (rows'.map Row.record)) : rows.Perm rows' := by
  have hperm := h.map (Function.invFunOn Row.record {row | Fits rel row})
  rwa [map_invFunOn_record hrows, map_invFunOn_record hrows'] at hperm

theorem perm_values {rows : List Row} {stored : List StoredRow} (hrows : ∀ row ∈ rows, Fits rel row)
    (hstored : ∀ r ∈ stored, r.values.Typed rel ∧ r.tuple.Holds r.values)
    (h : (stored.map StoredRow.record).Perm (rows.map Row.record)) : (stored.map StoredRow.values).Perm rows := by
  have hvalues : stored.map StoredRow.values =
      (stored.map StoredRow.record).map (Function.invFunOn Row.record {row | Fits rel row}) := by
    rw [map_map]
    refine map_congr_left fun r hr => ?_
    obtain ⟨row, hrow, heq⟩ := mem_map.1 (h.subset (mem_map_of_mem hr))
    have hholds := (hrows row hrow).holds
    rw [heq] at hholds
    rw [(hstored r hr).2.eq_of_types hholds ((hstored r hr).1.trans (hrows row hrow).typed.symm), Function.comp_apply, ← heq]
    exact ((record_injOn rel).leftInvOn_invFunOn (hrows row hrow)).symm
  have hperm := h.map (Function.invFunOn Row.record {row | Fits rel row})
  rwa [map_invFunOn_record hrows, ← hvalues] at hperm

theorem exists_stored {rows : List Row} {records : List Bytes} (hrows : ∀ row ∈ rows, Fits rel row)
    (h : records.Perm (rows.map Row.record)) : ∃ stored : List StoredRow, records = stored.map StoredRow.record ∧
      (∀ r ∈ stored, r.values.Typed rel ∧ r.tuple.Holds r.values) ∧ (stored.map StoredRow.values).Perm rows := by
  let toRow := Function.invFunOn Row.record {row | Fits rel row}
  have hstored : ∀ r ∈ records.map fun record => StoredRow.mk record (toRow record),
      r.values.Typed rel ∧ r.tuple.Holds r.values := by
    rw [forall_mem_map]
    intro record hrecord
    obtain ⟨row, hrow, rfl⟩ := mem_map.1 (h.subset hrecord)
    have hback : toRow row.record = row := (record_injOn rel).leftInvOn_invFunOn (hrows row hrow)
    simp only [StoredRow.tuple, hback]
    exact ⟨(hrows row hrow).typed, (hrows row hrow).holds⟩
  have hrecords : records = (records.map fun record => StoredRow.mk record (toRow record)).map StoredRow.record := by
    simp [Function.comp_def]
  exact ⟨_, hrecords, hstored, perm_values hrows hstored (hrecords ▸ h)⟩

variable {host : Host} {delimiter : UInt8} {content relName response : Bytes} {catalog : Catalog} {s s' : LevelStore}

theorem typed_of_readFields {types : List DataType} {text : Bytes} {row : Row}
    (h : readFields host delimiter types text = readable row) : row.map Value.dataType = types := by
  induction types generalizing text row with
  | nil =>
    obtain rfl := map_eq_nil_iff.1 h.symm
    rfl
  | cons type types ih =>
    obtain ⟨value, row, rfl⟩ := exists_cons_of_ne_nil (l := row) (by rintro rfl; cases h)
    obtain ⟨hfield, hrest⟩ := List.cons.inj h
    rw [map_cons, dataType_of_readField hfield, ih hrest]

theorem getElem?_stored (hfresh : FreshKeys host s rel.id) (rows : List Row) (i : Nat) :
    ((s.databases rel.id).write (s.pending rel.id ++ (recordsOf host rows).map fun r => .put r.1 r.2))[host.uuid i]? =
      rows[i]?.map Row.record := by
  rw [Database.write, Overlay.overlay_append]
  generalize hm : Overlay.overlay (s.databases rel.id) (s.pending rel.id) = m
  have hnone : ∀ j, m[host.uuid j]? = none := by
    intro j
    rw [← hm, Overlay.getElem?_overlay, Overlay.last_eq_none_iff.2 (hfresh.pending j)]
    exact hfresh.stored j
  have hperm := Overlay.toList_overlay_perm (m := m) (nodup_keys_recordsOf hfresh.injective rows) fun r hr => by
    obtain ⟨j, hj⟩ := key_of_mem_recordsOf hr
    exact hj ▸ hnone j
  refine Option.ext fun record => ?_
  rw [← Std.ExtTreeMap.mem_toList_iff_getElem?_eq_some, hperm.mem_iff, mem_append,
    Std.ExtTreeMap.mem_toList_iff_getElem?_eq_some, hnone]
  constructor
  · rintro (h | h)
    · cases h
    · obtain ⟨j, hj⟩ := mem_iff_getElem?.1 h
      rw [getElem?_recordsOf] at hj
      obtain ⟨row, hrow, heq⟩ := Option.map_eq_some_iff.1 hj
      obtain ⟨hkey, rfl⟩ := Prod.mk.inj heq
      rw [← hfresh.injective hkey, hrow, Option.map_some]
  · intro h
    obtain ⟨row, hrow, rfl⟩ := Option.map_eq_some_iff.1 h
    exact .inr (mem_iff_getElem?.2 ⟨i, by rw [getElem?_recordsOf, hrow, Option.map_some]⟩)

/-- Every line of the file that is not blank has been stored as a row of its own: its fields have values,
and its record is under one of the keys of the load. -/
def Consumed (host : Host) (delimiter : UInt8) (rel : Relation) (content : Bytes) (s : LevelStore) : Prop :=
  ∃ (rows : List Row) (js : List Nat),
    (MiniCsv.nonBlankLines content).map (readFields host delimiter (rel.attributes.map Attribute.dataType)) =
      rows.map readable ∧
    js.Nodup ∧ js.map (fun j => (s.databases rel.id)[host.uuid j]?) = rows.map fun row => some row.record

section

variable (hrel : catalog.getRelation relName = some rel) (hs : s.Wf) (hfresh : FreshKeys host s rel.id)
  (hcmd : cmd host relName delimiter (some content) catalog s = .ok (.ok, response, s'))
include hrel hs hfresh hcmd

theorem readsAll_of_consumed (h : Consumed host delimiter rel content s') :
    MiniCsv.ReadsAll (readFields host delimiter (rel.attributes.map Attribute.dataType)) content := by
  obtain ⟨texts, rows, htexts, hfields, hfits, hdb⟩ := cmd_ok hrel hs hcmd
  obtain ⟨rows', js, hfields', hnodup, hjs⟩ := h
  have hreading := MiniCsv.reading_of_readLines htexts
  have hlen : (rows.map Row.record).length ≤ (rows'.map Row.record).length := by
    have h₁ := congrArg List.length hfields
    have h₂ := congrArg List.length hfields'
    simp only [length_map] at h₁ h₂ ⊢
    rw [← h₁, ← h₂]
    exact MiniCsv.length_le_of_reading hreading
  have hperm : (rows'.map Row.record).Perm (rows.map Row.record) := by
    refine perm_of_map_getElem? hnodup ?_ hlen
    simp only [hdb, Function.update_self, getElem?_stored hfresh] at hjs
    simpa [Function.comp_def] using hjs
  have hfits' : ∀ row ∈ rows', Fits rel row := by
    intro row hrow
    have hmem : readable row ∈ (MiniCsv.nonBlankLines content).map _ := hfields' ▸ mem_map_of_mem hrow
    obtain ⟨text, -, htext⟩ := mem_map.1 hmem
    obtain ⟨row', hrow', heq⟩ := mem_map.1 (hperm.subset (mem_map_of_mem hrow))
    exact ⟨typed_of_readFields htext, heq ▸ (hfits row' hrow').size⟩
  refine MiniCsv.readsAll_of_perm hreading ?_
  rw [hfields, hfields']
  exact (perm_of_perm_record hfits' hfits hperm).map readable

theorem consumed_of_readsAll
    (h : MiniCsv.ReadsAll (readFields host delimiter (rel.attributes.map Attribute.dataType)) content) :
    Consumed host delimiter rel content s' := by
  obtain ⟨texts, rows, htexts, hfields, -, hdb⟩ := cmd_ok hrel hs hcmd
  refine ⟨rows, List.range rows.length, (h.map_eq (MiniCsv.reading_of_readLines htexts)).trans hfields,
    nodup_range, ?_⟩
  simp only [hdb, Function.update_self, getElem?_stored hfresh]
  refine ext_getElem? fun i => ?_
  by_cases hi : i < rows.length <;> simp [hi]

/-- A load that returns `kStateOK` has stored the whole file exactly if no line follows a blank one, there
are at least three bytes and no false byte order mark hides a part of the first line. -/
theorem consumed_iff : Consumed host delimiter rel content s' ↔
    MiniCsv.ReadsAll (readFields host delimiter (rel.attributes.map Attribute.dataType)) content :=
  ⟨readsAll_of_consumed hrel hs hfresh hcmd, consumed_of_readsAll hrel hs hfresh hcmd⟩

end

theorem consumed_two_notes : ∃ response s',
    cmd numbering (ascii "notes") 0x2c (some (ascii "5,ab\n6,cd")) notesCatalog emptyStore = .ok (.ok, response, s') ∧
      Consumed numbering 0x2c notes (ascii "5,ab\n6,cd") s' := by
  obtain ⟨response, s', hcmd⟩ := exists_cmd_two_notes
  refine ⟨response, s', hcmd, (consumed_iff getRelation_notesCatalog wf_emptyStore freshKeys_emptyStore hcmd).2 ?_⟩
  exact ⟨fun _ => by decide, by decide, fun h => absurd h (by decide)⟩

/-- The line behind a blank one is not stored. -/
theorem not_consumed_gap : ∃ response s',
    cmd numbering (ascii "notes") 0x2c (some (ascii "5,ab\n\n6,cd")) notesCatalog emptyStore = .ok (.ok, response, s') ∧
      ¬ Consumed numbering 0x2c notes (ascii "5,ab\n\n6,cd") s' := by
  have hrows : ∀ r ∈ [(decimal 0, [.integer 5, .varchar (ascii "ab")])], Fits notes r.2 :=
    forall_mem_singleton.2 (fits_note 5 0x61 0x62)
  have hlines : csvLines numbering 0x2c notes.toDesc (ascii "5,ab\n\n6,cd") =
      .ok ([(decimal 0, [.integer 5, .varchar (ascii "ab")])].map line) := rfl
  obtain ⟨response, s', hcmd⟩ := exists_cmd_notes hrows hlines
  refine ⟨response, s', hcmd, fun h => ?_⟩
  have hgap := (readsAll_of_consumed getRelation_notesCatalog wf_emptyStore freshKeys_emptyStore hcmd h).noGap
  exact absurd hgap (by decide)

end Load

end Dbms18
