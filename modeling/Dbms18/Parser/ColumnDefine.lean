import Dbms18.Parser.ParserContext

/-!
# Column definitions (`create_definition` in `parser/parser.yy`, `ParserContext::NewColumnDefine`)

The grammar packs the type and the length of a column into one `int32_t`, two signed halves of 16 bits
(`include/common/define.h`), and `NewColumnDefine` takes it apart. The flag of a primary key is computed
by the actions of the attribute list, of which each one sets it anew.
-/

namespace Dbms18

/-! ## Types and lengths -/

/-- `LOW_INT16`. -/
def lowInt16 (l : Int32) : Int16 := (l &&& 0xffff).toInt16

/-- `HIGH_INT16`. -/
def highInt16 (l : Int32) : Int16 := (l >>> 16).toInt16

/-- `MAKE_INT32`. -/
def makeInt32 (high16 low16 : Int32) : Int32 := high16 <<< 16 ||| low16

/-- The productions of `data_type`; INTNUM carries an `int`. -/
inductive ColumnKind
  | integer
  | float
  | varchar (n : Int32)
  | char (n : Int32)
  | date
deriving DecidableEq

namespace ColumnKind

def dataType : ColumnKind → DataType
  | integer => .integer
  | float => .float
  | varchar _ => .varchar
  | char _ => .varchar
  | date => .varchar

def length : ColumnKind → Int32
  | integer => 8
  | float => 8
  | varchar n => n
  | char n => n
  | date => 32

def packed (kind : ColumnKind) : Int32 := makeInt32 kind.length (Int32.ofNat kind.dataType.code)

end ColumnKind

/-- `(DataType)` of a number. -/
def DataType.ofInt16 (n : Int16) : Option DataType :=
  [invalid, integer, float, date, varchar, boolean].find? fun d => (d.code : Int) = n.toInt

theorem highInt16_makeInt32 (n : Int32) {code : Nat} (hcode : code < 2 ^ 16) :
    highInt16 (makeInt32 n (Int32.ofNat code)) = n.toInt16 := by
  have hwide : (highInt16 (makeInt32 n (Int32.ofNat code))).toBitVec =
      ((n.toBitVec <<< 16 ||| BitVec.ofNat 32 code).sshiftRight 16).setWidth 16 :=
    BitVec.signExtend_eq_setWidth_of_le _ (by decide)
  have hwide' : n.toInt16.toBitVec = n.toBitVec.setWidth 16 := BitVec.signExtend_eq_setWidth_of_le _ (by decide)
  refine Int16.toBitVec.inj ?_
  rw [hwide, hwide']
  refine BitVec.eq_of_getLsbD_eq fun i hi => ?_
  have hbit : code.testBit (16 + i) = false :=
    Nat.testBit_lt_two_pow (hcode.trans_le (Nat.pow_le_pow_right (by decide) (Nat.le_add_right ..)))
  rw [BitVec.getLsbD_setWidth, BitVec.getLsbD_setWidth, BitVec.getLsbD_sshiftRight, if_pos (by omega), BitVec.getLsbD_or,
    BitVec.getLsbD_shiftLeft, BitVec.getLsbD_ofNat, hbit, Nat.add_sub_cancel_left]
  simp only [hi, show ¬ 32 ≤ i by omega, show 16 + i < 32 by omega, show ¬ 16 + i < 16 by omega, decide_true, decide_false,
    Bool.not_false, Bool.true_and, Bool.and_false, Bool.or_false]

theorem lowInt16_makeInt32 (n : Int32) {code : Nat} (hcode : code < 2 ^ 15) :
    (lowInt16 (makeInt32 n (Int32.ofNat code))).toInt = code := by
  have hwide : (lowInt16 (makeInt32 n (Int32.ofNat code))).toBitVec =
      ((n.toBitVec <<< 16 ||| BitVec.ofNat 32 code) &&& 0xffff#32).setWidth 16 :=
    BitVec.signExtend_eq_setWidth_of_le _ (by decide)
  have hlow : lowInt16 (makeInt32 n (Int32.ofNat code)) = Int16.ofNat code := by
    refine Int16.toBitVec.inj (BitVec.eq_of_getLsbD_eq fun i hi => ?_)
    rw [hwide]
    simpa [hi] using fun _ => BitVec.getElem_allOnes i hi
  rw [hlow, Int16.toInt_ofNat_of_lt hcode]

theorem ColumnKind.low_packed (kind : ColumnKind) : (lowInt16 kind.packed).toInt = kind.dataType.code :=
  lowInt16_makeInt32 kind.length (kind.dataType.code_lt.trans (by decide))

theorem ColumnKind.high_packed (kind : ColumnKind) : highInt16 kind.packed = kind.length.toInt16 :=
  highInt16_makeInt32 kind.length (kind.dataType.code_lt.trans (by decide))

theorem DataType.ofInt16_eq {n : Int16} {d : DataType} (h : n.toInt = d.code) : ofInt16 n = some d := by
  rw [ofInt16, h]
  cases d <;> rfl

/-! ## Attributes -/

/-- The productions of `column_atts`. The values of DEFAULT and COMMENT and the columns of UNIQUE are
not used. -/
inductive ColumnAtt
  | notNull
  | null
  | defaultValue
  | autoIncrement
  | unique
  | uniqueKey
  | primaryKey
  | key
  | comment
deriving DecidableEq

inductive AttWord
  | not
  | null
  | default
  | autoIncrement
  | unique
  | key
  | primary
  | comment
deriving DecidableEq

/-- The keywords that `scanner.ll` has a rule for. PRIMARY and AUTO_INCREMENT are none: the scanner makes NAMEs of them,
which the grammar does not take there. -/
def AttWord.hasRule : AttWord → Bool
  | primary => false
  | autoIncrement => false
  | _ => true

def ColumnAtt.words : ColumnAtt → List AttWord
  | notNull => [.not, .null]
  | null => [.null]
  | defaultValue => [.default]
  | autoIncrement => [.autoIncrement]
  | unique => [.unique]
  | uniqueKey => [.unique, .key]
  | primaryKey => [.primary, .key]
  | key => [.key]
  | comment => [.comment]

def ColumnAtt.scanned (att : ColumnAtt) : Bool := att.words.all AttWord.hasRule

/-- The action of an attribute, which does not look at the attributes before it. -/
def ColumnAtt.action (_flag : Int32) : ColumnAtt → Int32
  | primaryKey => 1
  | _ => 0

/-- `column_atts`. -/
def columnAtts (atts : List ColumnAtt) : Int32 := atts.foldl ColumnAtt.action 0

theorem columnAtts_concat (atts : List ColumnAtt) (att : ColumnAtt) : columnAtts (atts ++ [att]) = att.action 0 := by
  rw [columnAtts, List.foldl_append]
  rfl

theorem columnAtts_ne_zero_iff (atts : List ColumnAtt) : columnAtts atts ≠ 0 ↔ atts.getLast? = some .primaryKey := by
  induction atts using List.reverseRecOn with
  | nil => simp [columnAtts]
  | append_singleton atts att _ =>
    rw [columnAtts_concat, List.getLast?_concat, Option.some_inj]
    cases att <;> decide

/-! ## The definition -/

/-- `PRIMARY_KEY && flag` is true for every flag but zero. -/
def newColumnDefine (columnName : Bytes) (typeAndLength flag : Int32) : Res ColumnDefine := do
  let columnType ← Res.getD (DataType.ofInt16 (lowInt16 typeAndLength)) .invalidEnum
  return ⟨columnName, columnType, (highInt16 typeAndLength).toInt32, flag ≠ 0⟩

structure CreateDefinition where
  name : Bytes
  kind : ColumnKind
  atts : List ColumnAtt
deriving DecidableEq

namespace CreateDefinition

section Names

variable (toUpper : Bytes → Bytes)

/-- The action of `create_definition`; names are put into upper case by `boost::to_upper`. -/
def columnDefine (d : CreateDefinition) : Res ColumnDefine :=
  newColumnDefine (toUpper d.name) d.kind.packed (columnAtts d.atts)

/-- What becomes of a definition: the length keeps 16 bits, and the flag is that of the last attribute. -/
def parsed (d : CreateDefinition) : ColumnDefine where
  columnName := toUpper d.name
  columnType := d.kind.dataType
  dataLength := d.kind.length.toInt16.toInt32
  isPrimaryKey := d.atts.getLast? = some .primaryKey

theorem columnDefine_eq (d : CreateDefinition) : d.columnDefine toUpper = .ok (d.parsed toUpper) := by
  have hflag : decide (columnAtts d.atts ≠ 0) = decide (d.atts.getLast? = some .primaryKey) :=
    decide_eq_decide.2 (columnAtts_ne_zero_iff d.atts)
  rw [columnDefine, newColumnDefine, DataType.ofInt16_eq d.kind.low_packed, Res.getD_some, Res.ok_bind,
    d.kind.high_packed, hflag]
  rfl

end Names

end CreateDefinition

def CreateDefinition.scanned (d : CreateDefinition) : Bool := d.atts.all ColumnAtt.scanned

theorem CreateDefinition.not_primaryKey_of_scanned {d : CreateDefinition} (h : d.scanned = true) : .primaryKey ∉ d.atts := by
  intro hmem
  cases List.all_eq_true.1 h _ hmem

section Names

variable (toUpper : Bytes → Bytes)

/-- `CREATE TABLE table_name (create_col_list)`. -/
def createTable (tableName : Bytes) (definitions : List CreateDefinition) : Res CreateStmt := do
  let columns ← definitions.mapM (CreateDefinition.columnDefine toUpper)
  return ⟨toUpper tableName, columns⟩

theorem createTable_eq (tableName : Bytes) (definitions : List CreateDefinition) :
    createTable toUpper tableName definitions =
      .ok ⟨toUpper tableName, definitions.map (CreateDefinition.parsed toUpper)⟩ := by
  have hcolumns : definitions.mapM (CreateDefinition.columnDefine toUpper) =
      .ok (definitions.map (CreateDefinition.parsed toUpper)) := by
    induction definitions with
    | nil => rfl
    | cons d ds ih =>
      rw [List.mapM_cons, d.columnDefine_eq, Res.ok_bind, ih]
      rfl
  rw [createTable, hcolumns]
  rfl

end Names

end Dbms18
