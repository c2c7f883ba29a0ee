import Dbms18.Parser.ColumnDefine
import Dbms18.Realizer.CreateNames
import Dbms18.Storage.CatalogRestart

/-!
# The columns of a CREATE TABLE (`QueryRealizer::ExecCreate`, `LevelStore::CreateRelation`)

What the parser has made of a column definition goes into a `ColumnSchema` and from there into an
attribute. A length of VARCHAR or CHAR arrives if it is at least zero and fits in the signed half that the
parser packs it into (`lengthSurvives_iff`). The flag of a primary key does not arrive: `ExecCreate` puts
the schema of the column into the list and sets the flag of its own copy afterwards. What is left of it
is that two columns with the flag are rejected, and the flag is that of the last attribute only
(`keysKept_iff`). The scanner does not know PRIMARY, so no text comes even to that, and in the schema of
every table the flags are not set to anything (`not_keysKept_of_scanned`).
-/

namespace Dbms18

open List

/-! ## Attributes -/

def ColumnSchema.size (col : ColumnSchema) : UInt32 := if col.dataType = .varchar then col.length.toUInt32 else 8

namespace CatalogStore

theorem columnAttribute_eq_ok {col : ColumnSchema} {i : Nat} {a : Attribute} (h : columnAttribute col i = .ok a) :
    a.dataType = col.dataType ∧ a.maxLength = col.size := by
  unfold columnAttribute at h
  cases htype : col.dataType <;> rw [htype] at h <;> cases h <;> simp [ColumnSchema.size, htype]

theorem attributes_foldlM {cols : List ColumnSchema} {k : Nat} {r r' : Relation}
    (h : (cols.zipIdx k).foldlM (fun r col => do return r.addAttribute (← columnAttribute col.1 col.2) true) r = .ok r') :
    r'.attributes.map (fun a => (a.dataType, a.maxLength)) =
      r.attributes.map (fun a => (a.dataType, a.maxLength)) ++ cols.map fun col => (col.dataType, col.size) := by
  induction cols generalizing k r with
  | nil =>
    obtain rfl := Except.ok.inj h
    simp
  | cons col cols ih =>
    rw [zipIdx_cons, foldlM_cons] at h
    obtain ⟨r₁, hcol, h⟩ := Res.bind_eq_ok.1 h
    obtain ⟨a, ha, heq⟩ := Res.bind_eq_ok.1 hcol
    obtain rfl := Except.ok.inj heq
    obtain ⟨htype, hsize⟩ := columnAttribute_eq_ok ha
    rw [ih h]
    simp [Relation.addAttribute, htype, hsize]

theorem attributes_schemaRelation {schema : TableSchema} {id : RelationId} {r : Relation} (h : schemaRelation schema id = .ok r)
    {i : Nat} {col : ColumnSchema} (hcol : schema.columnList[i]? = some col) :
    ∃ a, r.attributes[i]? = some a ∧ a.dataType = col.dataType ∧ a.maxLength = col.size := by
  have hattributes := congrArg (·[i]?) (attributes_foldlM h)
  simp only [map_nil, nil_append, getElem?_map, hcol, Option.map_some] at hattributes
  obtain ⟨a, ha, heq⟩ := Option.map_eq_some_iff.1 hattributes
  exact ⟨a, ha, Prod.mk.inj heq⟩

end CatalogStore

/-! ## Lengths -/

namespace ColumnKind

def declaredLength : ColumnKind → Option Int32
  | varchar n => some n
  | char n => some n
  | _ => none

theorem length_of_declaredLength {kind : ColumnKind} {n : Int32} (hn : kind.declaredLength = some n) : kind.length = n := by
  cases kind <;> cases hn <;> rfl

end ColumnKind

namespace QueryRealizer

section Names

variable (toUpper : Bytes → Bytes)

/-- The columns with a declared length get attributes of type VARCHAR with that length, whatever else the
statement and the catalog hold, unless the statement is rejected; and if the name of the table is not
taken, it is their relation that is registered under it. -/
def AttributesMade (kind : ColumnKind) : Prop :=
  ∀ (server : Server) (q : QueryRealizer) (tableName : Bytes) (definitions : List CreateDefinition) (stmt : CreateStmt)
    (i : Nat) (d : CreateDefinition) (n : Int32), (∃ id, q.catalog.genRelationID server.draws = .ok id) →
    createTable toUpper tableName definitions = .ok stmt → definitions[i]? = some d → d.kind = kind →
    kind.declaredLength = some n →
    (∃ q', q.execCreate server.environment stmt = .ok (false, q')) ∨
      ∃ r a, CatalogStore.Encoded ⟨q.catalog, server.files⟩ (createSchema stmt) server.draws r ∧
        r.attributes[i]? = some a ∧ a.dataType = .varchar ∧ (a.maxLength.toNat : Int) = n.toInt ∧
        ∀ q', q.execCreate server.environment stmt = .ok (true, q') → q.catalog.nameRelMap stmt.tableName = none →
          q'.catalog.getRelation stmt.tableName = some r

/-- The type and the length of a column survive the packing, and so does a declared length the creation of
the attribute. -/
structure LengthSurvives (kind : ColumnKind) : Prop where
  low : (lowInt16 kind.packed).toInt = kind.dataType.code
  high : (highInt16 kind.packed).toInt = kind.length.toInt
  attributes : AttributesMade toUpper kind

end Names

theorem toInt_toInt16_eq_iff (n : Int32) : n.toInt16.toInt = n.toInt ↔ -2 ^ 15 ≤ n.toInt ∧ n.toInt < 2 ^ 15 := by
  rw [Int32.toInt_toInt16]
  constructor
  · intro heq
    have hle := Int.le_bmod (x := n.toInt) (m := 2 ^ 16) (by decide)
    have hlt := Int.bmod_lt (x := n.toInt) (m := 2 ^ 16) (by decide)
    omega
  · rintro ⟨hle, hlt⟩
    exact Int.bmod_eq_of_le (by omega) (by omega)

theorem toInt32_toInt16_of_fits {n : Int32} (h : -2 ^ 15 ≤ n.toInt ∧ n.toInt < 2 ^ 15) : n.toInt16.toInt32 = n := by
  rw [← Int32.toInt_inj, Int16.toInt_toInt32, (toInt_toInt16_eq_iff n).2 h]

theorem toNat_toUInt32_eq_iff (n : Int32) : (n.toUInt32.toNat : Int) = n.toInt ↔ 0 ≤ n.toInt := by
  have hnat : n.toUInt32.toNat = n.toBitVec.toNat := rfl
  have hint : n.toInt = n.toBitVec.toInt := rfl
  rw [hnat, hint, BitVec.toInt_eq_toNat_cond]
  split <;> omega

section Names

variable {toUpper : Bytes → Bytes}

theorem size_parsed {d : CreateDefinition} {n : Int32} (hn : d.kind.declaredLength = some n) :
    (columnSchema (d.parsed toUpper)).dataType = .varchar ∧
      (columnSchema (d.parsed toUpper)).size = n.toInt16.toInt32.toUInt32 := by
  obtain ⟨name, kind, atts⟩ := d
  cases kind <;> cases hn <;> exact ⟨rfl, rfl⟩

variable {stmt : CreateStmt}

theorem columnList_createTable {tableName : Bytes} {definitions : List CreateDefinition} {i : Nat}
    {d : CreateDefinition} (hstmt : createTable toUpper tableName definitions = .ok stmt) (hd : definitions[i]? = some d) :
    (createSchema stmt).columnList[i]? = some (columnSchema (d.parsed toUpper)) := by
  rw [createTable_eq] at hstmt
  obtain rfl := Except.ok.inj hstmt
  simp [createSchema, hd]

theorem declared_createTable {tableName : Bytes} {definitions : List CreateDefinition}
    (hstmt : createTable toUpper tableName definitions = .ok stmt) :
    ∀ col ∈ (createSchema stmt).columnList, col.dataType.Declared := by
  rw [createTable_eq] at hstmt
  obtain rfl := Except.ok.inj hstmt
  rw [createSchema, map_map]
  refine forall_mem_map.2 fun d _ => ?_
  obtain ⟨name, kind, atts⟩ := d
  cases kind <;> simp [columnSchema, CreateDefinition.parsed, ColumnKind.dataType, DataType.Declared]

theorem getRelation_of_execCreate {server : Server} {q q' : QueryRealizer} {r : Relation}
    (hr : CatalogStore.Encoded ⟨q.catalog, server.files⟩ (createSchema stmt) server.draws r)
    (h : q.execCreate server.environment stmt = .ok (true, q')) (hfree : q.catalog.nameRelMap stmt.tableName = none) :
    q'.catalog.getRelation stmt.tableName = some r := by
  rcases execCreate_eq_ok server h with ⟨hfalse, -⟩ | ⟨-, r', hr', hcatalog⟩
  · cases hfalse
  · obtain rfl := hr.unique hr'
    obtain ⟨id, hid, hr⟩ := hr
    obtain ⟨hname, hid'⟩ := CatalogStore.schemaRelation_keys hr
    have hfree' : q.catalog.nameRelMap r.name = none := hname ▸ hfree
    have hfresh : q.catalog.idRelMap r.id = none := hid' ▸ CatalogStore.genRelationID_fresh hid
    have hname' : stmt.tableName = r.name := hname.symm
    rw [hcatalog, Catalog.insertRelation_of_fresh hfree' hfresh, Catalog.getRelation, hname']
    simp

variable {kind : ColumnKind}

theorem attributesMade_of_fits (hle : 0 ≤ kind.length.toInt) (hlt : kind.length.toInt < 2 ^ 15) :
    AttributesMade toUpper kind := by
  rintro server q tableName definitions stmt i d n ⟨id, hid⟩ hstmt hd rfl hn
  obtain ⟨r, hr, -⟩ := CatalogStore.exists_schemaRelation (declared_createTable hstmt) id
  obtain ⟨a, ha, htype, hsize⟩ := CatalogStore.attributes_schemaRelation hr (columnList_createTable hstmt hd)
  obtain ⟨htype', hsize'⟩ := size_parsed hn
  rw [ColumnKind.length_of_declaredLength hn] at hle hlt
  have hencoded : CatalogStore.Encoded ⟨q.catalog, server.files⟩ (createSchema stmt) server.draws r := ⟨id, hid, hr⟩
  refine .inr ⟨r, a, hencoded, ha, htype.trans htype', ?_, fun q' => getRelation_of_execCreate hencoded⟩
  rw [hsize, hsize', toInt32_toInt16_of_fits ⟨by omega, hlt⟩, toNat_toUInt32_eq_iff]
  exact hle

/-- `CREATE TABLE t (a kind)` -/
theorem createTable_one (kind : ColumnKind) : createTable toUpper [0x74] [⟨[0x61], kind, []⟩] =
    .ok ⟨toUpper [0x74], [CreateDefinition.parsed toUpper ⟨[0x61], kind, []⟩]⟩ := createTable_eq _ _ _

theorem AttributesMade.attribute {n : Int32} (h : AttributesMade toUpper kind) (hn : kind.declaredLength = some n) :
    (n.toInt16.toInt32.toUInt32.toNat : Int) = n.toInt := by
  rcases h createServer (new .empty (.started fun _ => ∅)) [0x74] [⟨[0x61], kind, []⟩] _ 0 _ n ⟨5, rfl⟩
    (createTable_one kind) rfl rfl hn with ⟨q', hrejected⟩ | ⟨r, a, ⟨id, -, hr⟩, ha, -, hlength, -⟩
  · have hkeys := execCreate_false createServer hrejected
    simp [CreateDefinition.parsed] at hkeys
  · obtain ⟨a', ha', -, hsize⟩ :=
      CatalogStore.attributes_schemaRelation hr (columnList_createTable (i := 0) (createTable_one kind) rfl)
    obtain rfl := Option.some.inj (ha.symm.trans ha')
    rwa [hsize, (size_parsed hn).2] at hlength

theorem LengthSurvives.fits (h : LengthSurvives toUpper kind) :
    0 ≤ kind.length.toInt ∧ kind.length.toInt < 2 ^ 15 := by
  have hhigh := h.high
  rw [kind.high_packed, toInt_toInt16_eq_iff] at hhigh
  cases hn : kind.declaredLength with
  | none => cases kind <;> cases hn <;> decide
  | some n =>
    have hattribute := h.attributes.attribute hn
    rw [ColumnKind.length_of_declaredLength hn] at hhigh ⊢
    rw [toInt32_toInt16_of_fits hhigh, toNat_toUInt32_eq_iff] at hattribute
    exact ⟨hattribute, hhigh.2⟩

variable (toUpper) in
theorem lengthSurvives_iff (kind : ColumnKind) :
    LengthSurvives toUpper kind ↔ 0 ≤ kind.length.toInt ∧ kind.length.toInt < 2 ^ 15 := by
  refine ⟨LengthSurvives.fits, fun ⟨hle, hlt⟩ => ⟨kind.low_packed, ?_, attributesMade_of_fits hle hlt⟩⟩
  rw [kind.high_packed, toInt_toInt16_eq_iff]
  omega

end Names

/-- `VARCHAR(40000)` is packed as a negative length, and makes an attribute of the length 4294941760. -/
theorem not_lengthSurvives_varchar : (highInt16 (ColumnKind.varchar 40000).packed).toInt = -25536 ∧
    (∃ stmt r a, createTable ParserContext.classicUpper (ascii "t") [⟨ascii "a", .varchar 40000, []⟩] = .ok stmt ∧
      CatalogStore.Encoded ⟨.empty, createServer.files⟩ (createSchema stmt) createServer.draws r ∧
      r.attributes = [a] ∧ a.dataType = .varchar ∧ a.maxLength = 4294941760) ∧
    ¬ LengthSurvives ParserContext.classicUpper (.varchar 40000) := by
  refine ⟨by decide, ⟨_, _, _, createTable_eq _ _ _, ⟨5, rfl, rfl⟩, rfl, rfl, by decide⟩, fun h => ?_⟩
  exact absurd h.fits.2 (by decide)

/-! ## Primary keys -/

/-- `ColumnSchema` with its flag, or `none` while that is not set. -/
structure KeyedSchema where
  schema : ColumnSchema
  isPrimaryKey : Option Bool
deriving DecidableEq

/-- The loop of `ExecCreate`, with the number of keys and the list so far; `none` is the return with an
error. -/
def createColumns : List ColumnDefine → Nat → List KeyedSchema → Option (List KeyedSchema)
  | [], _, columnList => some columnList
  | column :: columns, n, columnList =>
    -- the flag is set after the schema has been copied into the list
    let columnList := columnList ++ [⟨columnSchema column, none⟩]
    let n := if column.isPrimaryKey then n + 1 else n
    if n > 1 then none else createColumns columns n columnList

theorem createColumns_eq (columns : List ColumnDefine) {n : Nat} (hn : n ≤ 1) (columnList : List KeyedSchema) :
    createColumns columns n columnList = if n + columns.countP ColumnDefine.isPrimaryKey ≤ 1 then
      some (columnList ++ columns.map fun column => ⟨columnSchema column, none⟩) else none := by
  induction columns generalizing n columnList with
  | nil => simp [createColumns, hn]
  | cons column columns ih =>
    rw [createColumns, countP_cons]
    by_cases hkey : column.isPrimaryKey = true
    · simp only [hkey, if_true]
      split
      · rw [if_neg (by omega)]
      · rw [ih (by omega), append_assoc, Nat.add_assoc, Nat.add_comm 1]
        rfl
    · simp only [hkey, if_false, Nat.add_zero, Bool.false_eq_true]
      rw [if_neg (by omega), ih hn, append_assoc]
      rfl

theorem execCreate_of_rejected {stmt : CreateStmt} (h : createColumns stmt.columnDefineList 0 [] = none) (env : Environment)
    (q : QueryRealizer) : q.execCreate env stmt =
      .ok (false, { q with message := ascii "relation " ++ stmt.tableName ++ ascii " cannot have multiple keys." }) := by
  rw [createColumns_eq _ (Nat.zero_le 1), Nat.zero_add, ite_eq_right_iff] at h
  exact if_pos (Nat.not_le.1 fun hle => Option.some_ne_none _ (h hle))

theorem execCreate_of_columns {stmt : CreateStmt} {columnList : List KeyedSchema}
    (h : createColumns stmt.columnDefineList 0 [] = some columnList) (env : Environment) (q : QueryRealizer) :
    q.execCreate env stmt =
      (fun r => (r.1, { q with
        catalog := r.2.1
        storage := r.2.2
        message := ascii "relation " ++ stmt.tableName ++ (if r.1 then ascii " created." else ascii " create failed.") })) <$>
        env.createRelation ⟨stmt.tableName, columnList.map KeyedSchema.schema⟩ q.catalog q.storage := by
  rw [createColumns_eq _ (Nat.zero_le 1), Nat.zero_add, Option.ite_none_right_eq_some, nil_append] at h
  obtain ⟨hkeys, heq⟩ := h
  obtain rfl := Option.some.inj heq
  rw [execCreate, if_neg (by omega), map_map]
  rfl

def hasKey (d : CreateDefinition) : Bool := .primaryKey ∈ d.atts

section Names

variable (toUpper : Bytes → Bytes)

/-- The flags of the columns that reach `CreateRelation` say which definitions have PRIMARY KEY among their
attributes, and a statement with two of these is rejected and changes nothing. -/
structure KeysKept (tableName : Bytes) (definitions : List CreateDefinition) (stmt : CreateStmt) : Prop where
  parsed : createTable toUpper tableName definitions = .ok stmt
  flags : ∀ columnList, createColumns stmt.columnDefineList 0 [] = some columnList →
    columnList.map KeyedSchema.isPrimaryKey = definitions.map fun d => some (hasKey d)
  rejected : 2 ≤ definitions.countP hasKey → ∀ (env : Environment) (q : QueryRealizer), ∃ q',
    q.execCreate env stmt = .ok (false, q') ∧ q'.catalog = q.catalog ∧ q'.storage = q.storage

theorem countP_parsed (definitions : List CreateDefinition) :
    (definitions.map (CreateDefinition.parsed toUpper)).countP ColumnDefine.isPrimaryKey =
      definitions.countP fun d => d.atts.getLast? = some .primaryKey := countP_map

variable {toUpper}

theorem KeysKept.countP {tableName : Bytes} {definitions : List CreateDefinition} {stmt : CreateStmt}
    (h : KeysKept toUpper tableName definitions stmt) :
    definitions = [] ∨ 2 ≤ definitions.countP fun d => d.atts.getLast? = some .primaryKey := by
  have hstmt := h.parsed
  rw [createTable_eq] at hstmt
  obtain rfl := Except.ok.inj hstmt
  rw [← countP_parsed toUpper]
  by_contra hnot
  obtain ⟨hne, hlt⟩ := not_or.1 hnot
  have hkeys : 0 + (definitions.map (CreateDefinition.parsed toUpper)).countP ColumnDefine.isPrimaryKey ≤ 1 := by omega
  have hflags := h.flags _ ((createColumns_eq _ (Nat.zero_le 1) []).trans (if_pos hkeys))
  obtain ⟨d, ds, rfl⟩ := exists_cons_of_ne_nil hne
  cases hflags

theorem keysKept_iff {tableName : Bytes} {definitions : List CreateDefinition} {stmt : CreateStmt}
    (hstmt : createTable toUpper tableName definitions = .ok stmt) : KeysKept toUpper tableName definitions stmt ↔
      definitions = [] ∨ 2 ≤ definitions.countP fun d => d.atts.getLast? = some .primaryKey := by
  refine ⟨KeysKept.countP, fun h => ⟨hstmt, ?_, ?_⟩⟩
  all_goals
    rw [createTable_eq] at hstmt
    obtain rfl := Except.ok.inj hstmt
  · rintro columnList hcolumns
    rw [createColumns_eq _ (Nat.zero_le 1), Nat.zero_add, Option.ite_none_right_eq_some, countP_parsed] at hcolumns
    rcases h with rfl | htwo
    · obtain rfl := Option.some.inj hcolumns.2
      rfl
    · omega
  · intro htwo env q
    rcases h with rfl | hlast
    · cases htwo
    · refine ⟨_, execCreate_of_rejected ?_ env q, rfl, rfl⟩
      rw [createColumns_eq _ (Nat.zero_le 1), if_neg]
      rw [Nat.zero_add, countP_parsed]
      omega

/-- No text of a CREATE TABLE statement gives a schema whose flags say which columns are keys. -/
theorem not_keysKept_of_scanned {tableName : Bytes} {definitions : List CreateDefinition} {stmt : CreateStmt}
    (hstmt : createTable toUpper tableName definitions = .ok stmt) (hne : definitions ≠ [])
    (hscanned : ∀ d ∈ definitions, d.scanned = true) : ¬ KeysKept toUpper tableName definitions stmt := by
  rw [keysKept_iff hstmt]
  have hnone : definitions.countP (fun d => d.atts.getLast? = some .primaryKey) = 0 := by
    refine countP_eq_zero.2 fun d hd hlast => ?_
    exact d.not_primaryKey_of_scanned (hscanned d hd) (mem_of_getLast? (of_decide_eq_true hlast))
  rw [hnone]
  rintro (hnil | htwo)
  · exact hne hnil
  · cases htwo

end Names

theorem not_keysKept_of_scanned_two :
    createTable ParserContext.classicUpper (ascii "t") [⟨ascii "a", .integer, []⟩,
      ⟨ascii "b", .varchar 5, [.notNull, .uniqueKey]⟩] =
      .ok ⟨ascii "T", [⟨ascii "A", .integer, 8, false⟩, ⟨ascii "B", .varchar, 5, false⟩]⟩ ∧
    ¬ KeysKept ParserContext.classicUpper (ascii "t") [⟨ascii "a", .integer, []⟩,
      ⟨ascii "b", .varchar 5, [.notNull, .uniqueKey]⟩]
      ⟨ascii "T", [⟨ascii "A", .integer, 8, false⟩, ⟨ascii "B", .varchar, 5, false⟩]⟩ := by
  have hstmt : createTable ParserContext.classicUpper (ascii "t") [⟨ascii "a", .integer, []⟩,
      ⟨ascii "b", .varchar 5, [.notNull, .uniqueKey]⟩] =
      .ok ⟨ascii "T", [⟨ascii "A", .integer, 8, false⟩, ⟨ascii "B", .varchar, 5, false⟩]⟩ := createTable_eq _ _ _
  exact ⟨hstmt, not_keysKept_of_scanned hstmt (by decide) (by decide)⟩

/-- `CREATE TABLE t (a INTEGER)`: the flag of the only column is not set when the schema reaches `CreateRelation`. -/
theorem not_keysKept_one : ∃ stmt, createTable ParserContext.classicUpper (ascii "t") [⟨ascii "a", .integer, []⟩] = .ok stmt ∧
    createColumns stmt.columnDefineList 0 [] = some [⟨⟨ascii "A", .integer, 8, false⟩, none⟩] ∧
    ¬ KeysKept ParserContext.classicUpper (ascii "t") [⟨ascii "a", .integer, []⟩] stmt := by
  refine ⟨_, createTable_eq _ _ _, by decide, fun h => ?_⟩
  exact absurd h.countP (by decide)

end QueryRealizer

end Dbms18
