import Dbms18.Realizer.HandleDiscipline

/-!
# Names too long for the catalog (`parser/scanner.ll`, `LevelStore::CreateRelation`)

The scanner takes a name of any length, and nothing after it asks for its length until the catalog's
encoders copy it into a tuple of fixed size. What is written stays inside the tuples exactly if the
lengths happen to fit (`execCreate_inBounds_iff`).
-/

namespace Dbms18

/-! ## Names -/

namespace Scanner

/-- `[A-Za-z]` -/
def isLetter (c : UInt8) : Bool := (0x41 ≤ c && c ≤ 0x5a) || (0x61 ≤ c && c ≤ 0x7a)

/-- `[A-Za-z0-9_]` -/
def isNameByte (c : UInt8) : Bool := isLetter c || (0x30 ≤ c && c ≤ 0x39) || c = 0x5f

/-- The rule of NAME, `[A-Za-z][A-Za-z0-9_]*`. (Keywords match an earlier rule.) -/
def isName : Bytes → Bool
  | [] => false
  | c :: cs => isLetter c && cs.all isNameByte

theorem isName_replicate (n : Nat) : isName (List.replicate (n + 1) 0x61) = true := by
  rw [List.replicate_succ, isName, Bool.and_eq_true, List.all_eq_true]
  refine ⟨rfl, fun c hc => ?_⟩
  obtain rfl := List.eq_of_mem_replicate hc
  rfl

end Scanner

/-- The types of the grammar's `data_type`, in which DATE is a VARCHAR. -/
def DataType.Declared (t : DataType) : Prop := t = .integer ∨ t = .float ∨ t = .varchar

/-! ## The relation of a statement -/

namespace CatalogStore

theorem columnAttribute_of_declared {col : ColumnSchema} (h : col.dataType.Declared) (i : Nat) :
    ∃ a, columnAttribute col i = .ok a ∧ a.name = col.name := by
  unfold columnAttribute
  rcases h with h | h | h <;> rw [h] <;> exact ⟨_, rfl, rfl⟩

theorem foldlM_addAttribute {cols : List ColumnSchema} (h : ∀ col ∈ cols, col.dataType.Declared) (k : Nat) (r : Relation) :
    ∃ r', (cols.zipIdx k).foldlM (fun r col => do return r.addAttribute (← columnAttribute col.1 col.2) true) r = .ok r' ∧
      r'.name = r.name ∧ r'.attributes.map Attribute.name = r.attributes.map Attribute.name ++ cols.map ColumnSchema.name := by
  induction cols generalizing k r with
  | nil => exact ⟨r, rfl, rfl, by simp⟩
  | cons col cols ih =>
    obtain ⟨hcol, h⟩ := List.forall_mem_cons.1 h
    obtain ⟨a, ha, haname⟩ := columnAttribute_of_declared hcol k
    obtain ⟨r', hr', hname, hattributes⟩ := ih h (k + 1) (r.addAttribute a true)
    refine ⟨r', ?_, hname.trans (Relation.name_addAttribute _ _ _), ?_⟩
    · rw [List.zipIdx_cons, List.foldlM_cons, ha]
      exact hr'
    · rw [hattributes]
      simp [Relation.addAttribute, haname]

theorem exists_schemaRelation {schema : TableSchema} (h : ∀ col ∈ schema.columnList, col.dataType.Declared)
    (id : RelationId) : ∃ r, schemaRelation schema id = .ok r ∧ r.name = schema.name ∧
      r.attributes.map Attribute.name = schema.columnList.map ColumnSchema.name :=
  foldlM_addAttribute h 0 { name := schema.name, id }

/-- What `CreateRelation` hands to the encoders. -/
def Encoded (s : CatalogStore) (schema : TableSchema) (draws : List RelationId) (r : Relation) : Prop :=
  ∃ id, s.catalog.genRelationID draws = .ok id ∧ schemaRelation schema id = .ok r

theorem Encoded.unique {s : CatalogStore} {schema : TableSchema} {draws : List RelationId} {r r' : Relation}
    (h : Encoded s schema draws r) (h' : Encoded s schema draws r') : r = r' := by
  obtain ⟨id, hid, hr⟩ := h
  obtain ⟨id', hid', hr'⟩ := h'
  obtain rfl := Except.ok.inj (hid.symm.trans hid')
  exact Except.ok.inj (hr.symm.trans hr')

end CatalogStore

namespace QueryRealizer

def createSchema (stmt : CreateStmt) : TableSchema := ⟨stmt.tableName, stmt.columnDefineList.map columnSchema⟩

theorem execCreate_eq_ok (server : Server) {stmt : CreateStmt} {q q' : QueryRealizer} {ok : Bool}
    (h : q.execCreate server.environment stmt = .ok (ok, q')) :
    ok = false ∧ 1 < stmt.columnDefineList.countP ColumnDefine.isPrimaryKey ∨
      ok = true ∧ ∃ r, CatalogStore.Encoded ⟨q.catalog, server.files⟩ (createSchema stmt) server.draws r ∧
        q'.catalog = (q.catalog.insertRelation r).1 := by
  rw [execCreate] at h
  split at h
  · next hkeys =>
    obtain ⟨rfl, -⟩ := Prod.mk.inj (Except.ok.inj h)
    exact .inl ⟨rfl, hkeys⟩
  · obtain ⟨⟨ok, catalog, storage⟩, hcreate, h⟩ := Res.bind_eq_ok.1 h
    obtain ⟨⟨store, ok'⟩, hrel, hcreate⟩ := Res.bind_eq_ok.1 hcreate
    obtain ⟨id, hid, hrel⟩ := Res.bind_eq_ok.1 hrel
    obtain ⟨r, hr, hrel⟩ := Res.bind_eq_ok.1 hrel
    obtain ⟨files, -, hrel⟩ := Res.bind_eq_ok.1 hrel
    cases hrel
    cases hcreate
    cases h
    exact .inr ⟨rfl, r, ⟨id, hid, hr⟩, rfl⟩

theorem execCreate_false (server : Server) {stmt : CreateStmt} {q q' : QueryRealizer}
    (h : q.execCreate server.environment stmt = .ok (false, q')) :
    1 < stmt.columnDefineList.countP ColumnDefine.isPrimaryKey := by
  rcases execCreate_eq_ok server h with ⟨-, hkeys⟩ | ⟨hok, -⟩
  · exact hkeys
  · cases hok

/-- A CREATE statement is rejected, or what it writes to the catalog stays inside the encoders' tuples. The scanner has
no rule for PRIMARY, so a statement with two keys is a tree of the grammar that no text gives. -/
theorem execCreate_inBounds_iff (server : Server) (q : QueryRealizer) (stmt : CreateStmt)
    (hfresh : ∃ id, q.catalog.genRelationID server.draws = .ok id)
    (htypes : ∀ column ∈ stmt.columnDefineList, column.columnType.Declared) :
    ((∃ q', q.execCreate server.environment stmt = .ok (false, q')) ∨
      ∀ r, CatalogStore.Encoded ⟨q.catalog, server.files⟩ (createSchema stmt) server.draws r →
        r.InBounds ∧ ∀ a ∈ r.attributes, a.InBounds) ↔
    1 < stmt.columnDefineList.countP ColumnDefine.isPrimaryKey ∨
      stmt.tableName.length ≤ 496 ∧ ∀ column ∈ stmt.columnDefineList, column.columnName.length ≤ 968 := by
  have htypes' : ∀ col ∈ (createSchema stmt).columnList, col.dataType.Declared := List.forall_mem_map.2 htypes
  have hnames : ∀ {r}, CatalogStore.Encoded ⟨q.catalog, server.files⟩ (createSchema stmt) server.draws r →
      ((r.InBounds ∧ ∀ a ∈ r.attributes, a.InBounds) ↔
        stmt.tableName.length ≤ 496 ∧ ∀ column ∈ stmt.columnDefineList, column.columnName.length ≤ 968) := by
    rintro r ⟨id, -, hr⟩
    obtain ⟨r', hr', hname, hattributes⟩ := CatalogStore.exists_schemaRelation htypes' id
    obtain rfl := Except.ok.inj (hr.symm.trans hr')
    have hcolumns : r.attributes.map Attribute.name = stmt.columnDefineList.map ColumnDefine.columnName := by
      rw [hattributes, createSchema, List.map_map]
      rfl
    have hlengths : (∀ name ∈ r.attributes.map Attribute.name, name.length ≤ 968) ↔
        ∀ name ∈ stmt.columnDefineList.map ColumnDefine.columnName, name.length ≤ 968 := by rw [hcolumns]
    rw [List.forall_mem_map, List.forall_mem_map] at hlengths
    simp only [Relation.inBounds_iff, Attribute.inBounds_iff, hname]
    exact and_congr_right fun _ => hlengths
  constructor
  · rintro (⟨q', hrejected⟩ | hbounds)
    · exact .inl (execCreate_false server hrejected)
    · obtain ⟨id, hid⟩ := hfresh
      obtain ⟨r, hr, -⟩ := CatalogStore.exists_schemaRelation htypes' id
      exact .inr ((hnames ⟨id, hid, hr⟩).1 (hbounds r ⟨id, hid, hr⟩))
  · rintro (hkeys | hlengths)
    · exact .inl ⟨_, if_pos hkeys⟩
    · exact .inr fun r hr => (hnames hr).2 hlengths

/-- `CREATE TABLE name (b INTEGER)` -/
def oneColumnTable (name : Bytes) : CreateStmt := ⟨name, [{ columnName := [0x62], columnType := .integer, dataLength := 8 }]⟩

def createServer : Server := { copyServer [] with draws := [5] }

theorem execCreate_inBounds_iff_oneColumnTable : (∃ id, Catalog.empty.genRelationID createServer.draws = .ok id) ∧
    ∀ r, CatalogStore.Encoded ⟨.empty, createServer.files⟩ (createSchema (oneColumnTable [0x61])) createServer.draws r →
      r.InBounds ∧ ∀ a ∈ r.attributes, a.InBounds := by
  have hbounds := (execCreate_inBounds_iff createServer (new .empty (.started fun _ => ∅)) (oneColumnTable [0x61])
    ⟨_, rfl⟩ (by simp [oneColumnTable, DataType.Declared])).2 (.inr (by decide))
  refine ⟨⟨_, rfl⟩, hbounds.resolve_left ?_⟩
  rintro ⟨q', h⟩
  exact absurd (execCreate_false createServer h) (by decide)

/-- A table whose name has 497 letters. -/
theorem not_inBounds_longName :
    Scanner.isName (List.replicate 497 0x61) = true ∧
    (¬ ∃ q', (new .empty (.started fun _ => ∅)).execCreate createServer.environment
      (oneColumnTable (List.replicate 497 0x61)) = .ok (false, q')) ∧
    ∃ r, CatalogStore.Encoded ⟨.empty, createServer.files⟩ (createSchema (oneColumnTable (List.replicate 497 0x61)))
      createServer.draws r ∧ ¬ r.InBounds := by
  refine ⟨Scanner.isName_replicate 496, ?_, ?_⟩
  · rintro ⟨q', h⟩
    exact absurd (execCreate_false createServer h) (by decide)
  · have htypes : ∀ col ∈ (createSchema (oneColumnTable (List.replicate 497 0x61))).columnList, col.dataType.Declared :=
      List.forall_mem_singleton.2 (.inl rfl)
    obtain ⟨r, hr, hname, -⟩ := CatalogStore.exists_schemaRelation htypes 5
    refine ⟨r, ⟨5, rfl, hr⟩, ?_⟩
    rw [Relation.inBounds_iff, hname, createSchema, oneColumnTable, List.length_replicate]
    decide

end QueryRealizer

end Dbms18
