import Mathlib.Data.List.TakeWhile
import Dbms18.Common.MiniCsv
import Dbms18.Realizer.Predicate

/-!
# Integer literals (`parser/scanner.ll`, `QueryRealizer::BuildValueExpression`)

From the token on an integer literal has 64 bits, but the rule of INTNUM reads it with `atoi`, which
has 32. So the value that a predicate compares with is the literal's only if it fits in those
(`literalKept_iff`).
-/

namespace Dbms18

namespace Scanner

def minus : UInt8 := 0x2d

/-- The rule of INTNUM, `-?[0-9]+`: the length of its match at the start of the text. -/
def matchIntnum (text : Bytes) : Option Nat :=
  let sign := if text.head? = some minus then 1 else 0
  let digits := (text.drop sign).takeWhile MiniCsv.isDigit
  if digits = [] then none else some (sign + digits.length)

/-- `E[-+]?[0-9]+`, in either case. -/
def startsExponent : Bytes → Bool
  | c :: d :: rest =>
    (c = 0x45 || c = 0x65) && (MiniCsv.isDigit d || ((d = 0x2b || d = minus) && rest.head?.any MiniCsv.isDigit))
  | _ => false

/-- What stands behind the digits makes the match of a rule of APPROXNUM longer: a point or an exponent. -/
def approximate (behind : Bytes) : Bool := behind.head? = some 0x2e || startsExponent behind

/-- `atoi` of digits that may have a sign, taken as the conversion of their number to an `int`. Out of the range of
`int` the language leaves the result open. The library truncates what `strtol` returns, and that is the number itself
only up to 64 bits: beyond these `strtol` saturates and this function does not. -/
def atoi (s : Bytes) : Int32 :=
  Int32.ofInt (if s.head? = some minus then -MiniCsv.ofDigits s.tail else MiniCsv.ofDigits s)

inductive NumberToken
  | intnum (intval : Int64)
  | approxnum
deriving DecidableEq

/-- The scanner at a number. There is no token if other rules apply. -/
def scanNumber (text : Bytes) : Option NumberToken :=
  (matchIntnum text).map fun n =>
    if approximate (text.drop n) then .approxnum else .intnum (atoi (text.take n)).toInt64

structure Numeral where
  negative : Bool
  digits : Bytes
  behind : Bytes
  nonempty : digits ≠ []
  isDigit : ∀ c ∈ digits, MiniCsv.isDigit c = true
  closed : ∀ c ∈ behind.head?, MiniCsv.isDigit c = false
  exact : approximate behind = false

namespace Numeral

def sign (l : Numeral) : Bytes := if l.negative then [minus] else []

def source (l : Numeral) : Bytes := l.sign ++ (l.digits ++ l.behind)

def value (l : Numeral) : Int := if l.negative then -MiniCsv.ofDigits l.digits else MiniCsv.ofDigits l.digits

end Numeral

/-! ## The token -/

theorem takeWhile_digits (l : Numeral) : (l.digits ++ l.behind).takeWhile MiniCsv.isDigit = l.digits := by
  rw [List.takeWhile_append_of_pos l.isDigit]
  cases hbehind : l.behind with
  | nil => simp
  | cons c cs =>
    have hc := l.closed c (by rw [hbehind]; rfl)
    rw [List.takeWhile_cons_of_neg (by simp [hc]), List.append_nil]

theorem head_digits (l : Numeral) : (l.digits ++ l.behind).head? ≠ some minus := by
  intro hminus
  obtain ⟨c, cs, hdigits⟩ := List.exists_cons_of_ne_nil l.nonempty
  have hc := l.isDigit c (hdigits ▸ List.mem_cons_self)
  rw [hdigits] at hminus
  obtain rfl := Option.some.inj hminus
  exact absurd hc (by decide)

theorem matchIntnum_source (l : Numeral) : matchIntnum l.source = some (l.sign.length + l.digits.length) := by
  rw [Numeral.source, Numeral.sign, matchIntnum]
  cases hnegative : l.negative with
  | true => simp [takeWhile_digits, l.nonempty]
  | false =>
    rw [if_neg Bool.false_ne_true, List.nil_append, if_neg (head_digits l), List.drop_zero, takeWhile_digits,
      if_neg l.nonempty]
    rfl

theorem atoi_lexeme (l : Numeral) : atoi (l.sign ++ l.digits) = Int32.ofInt l.value := by
  rw [Numeral.sign, Numeral.value, atoi]
  cases hnegative : l.negative with
  | true => simp
  | false =>
    have hhead : l.digits.head? ≠ some minus := by
      have := head_digits l
      rwa [List.head?_append_of_ne_nil _ l.nonempty] at this
    simp [hhead]

theorem scanNumber_source (l : Numeral) : scanNumber l.source = some (.intnum (Int32.ofInt l.value).toInt64) := by
  have hsource : l.source = (l.sign ++ l.digits) ++ l.behind := by rw [Numeral.source, List.append_assoc]
  have hlength : l.sign.length + l.digits.length = (l.sign ++ l.digits).length := List.length_append.symm
  rw [scanNumber, matchIntnum_source, Option.map_some, hlength, hsource, List.drop_left, List.take_left, l.exact,
    atoi_lexeme]
  rfl

theorem toInt_ofInt_eq_iff (value : Int) :
    (Int32.ofInt value).toInt64.toInt = value ↔ -2 ^ 31 ≤ value ∧ value < 2 ^ 31 := by
  have hsize : Int32.size = 2 ^ 32 := rfl
  rw [Int32.toInt_toInt64, Int32.toInt_ofInt, hsize]
  constructor
  · intro heq
    have hle := Int.le_bmod (x := value) (m := 2 ^ 32) (by decide)
    have hlt := Int.bmod_lt (x := value) (m := 2 ^ 32) (by decide)
    omega
  · rintro ⟨hle, hlt⟩
    exact Int.bmod_eq_of_le (by omega) (by omega)

end Scanner

/-! ## The predicate -/

/-- `ParserContext::NewConstValue(int64_t)`. -/
def newConstValue (intVal : Int64) : ConstValue := .integer intVal

namespace QueryRealizer

/-- `column = value` -/
def equalTo (ref : ColumnReference) (value : ConstValue) : ExpressionBase :=
  .operation .equal (.columnReference ref) (.constValue value)

/-- In every query, the predicate that compares an integer column with the constant is true on exactly the
rows in which the column has the value. -/
def SelectsEqual (const : ConstValue) (value : Int) : Prop :=
  ∀ (q : QueryRealizer) (tables : Scope) (ref : ColumnReference) (slot : SlotReference), q.Scoped tables →
    q.name2slot ref = some slot → slot.dataType = .integer →
    ∃ e, q.buildBooleanExpression (equalTo ref const) = .ok (some e) ∧
      ∀ row rows, tables.Shows row rows → slot.tupleIndex < rows.length →
        ∃ v : Int64, tables.env rows ref = some (.integer v) ∧ e.getValue row = .ok (decide (v.toInt = value))

theorem test_equal (v w : Int64) : OperatorType.equal.test (some (compare v w)) = decide (v.toInt = w.toInt) := by
  have hiff : compare v w = .eq ↔ v.toInt = w.toInt := by
    rw [Std.compare_eq_iff_eq, ← Int64.toInt_inj]
  simp [OperatorType.test, hiff]

theorem selectsEqual_newConstValue (w : Int64) : SelectsEqual (newConstValue w) w.toInt := by
  intro q tables ref slot hq hslot htype
  have hresolve := hq.slot ref slot hslot
  have htyped : (equalTo ref (newConstValue w)).WellTyped tables.typeOf := by
    refine ⟨.integer, rfl, ?_, rfl⟩
    simp [ExpressionBase.operandType, Scope.typeOf, hresolve, htype]
  have hcolumns : ∀ ref' ∈ (equalTo ref (newConstValue w)).columns, ref' = ref := by
    simp [equalTo, ExpressionBase.columns]
  obtain ⟨e, he, hvalue⟩ := buildBooleanExpression_scoped hq htyped fun ref' href =>
    ⟨slot, by rw [hcolumns ref' href, hslot]⟩
  refine ⟨e, he, fun row rows hshows hlt => ?_⟩
  obtain ⟨v, -, henv, hv, -⟩ := slot_getValue hshows hresolve hlt
  rw [htype] at hv
  cases v with
  | integer v =>
    refine ⟨v, henv, ?_⟩
    rw [hvalue row rows hshows fun ref' href slot' hslot' => ?_]
    · have hcompare : isCompareOperator .equal = true := rfl
      simp [ExpressionBase.holds, equalTo, hcompare, ExpressionBase.value, henv, newConstValue, Value.compare, test_equal]
    · rw [hcolumns ref' href, hresolve] at hslot'
      exact Option.some.inj hslot' ▸ hlt
  | float | date | varchar => cases hv

/-- The value of a literal reaches the token, the node and the executor's expression, and decides which
rows a comparison with it selects. -/
def LiteralKept (l : Scanner.Numeral) : Prop :=
  ∃ intval : Int64, Scanner.scanNumber l.source = some (.intnum intval) ∧ intval.toInt = l.value ∧
    (∀ q : QueryRealizer, q.buildValueExpression (.constValue (newConstValue intval)) =
      .ok (some (.integerConstValue intval))) ∧
    SelectsEqual (newConstValue intval) l.value

theorem LiteralKept.fits {l : Scanner.Numeral} (h : LiteralKept l) : -2 ^ 31 ≤ l.value ∧ l.value < 2 ^ 31 := by
  obtain ⟨intval, hscan, hvalue, -⟩ := h
  rw [Scanner.scanNumber_source, Option.some_inj, Scanner.NumberToken.intnum.injEq] at hscan
  rw [← hscan] at hvalue
  exact (Scanner.toInt_ofInt_eq_iff l.value).1 hvalue

theorem literalKept_iff (l : Scanner.Numeral) : LiteralKept l ↔ -2 ^ 31 ≤ l.value ∧ l.value < 2 ^ 31 := by
  refine ⟨LiteralKept.fits, fun h => ?_⟩
  have hvalue := (Scanner.toInt_ofInt_eq_iff l.value).2 h
  refine ⟨_, Scanner.scanNumber_source l, hvalue, fun q => rfl, ?_⟩
  have hselects := selectsEqual_newConstValue (Int32.ofInt l.value).toInt64
  rwa [hvalue] at hselects

/-- `4294967297`, and behind it a semicolon. -/
def largeNumeral : Scanner.Numeral where
  negative := false
  digits := ascii "4294967297"
  behind := ascii ";"
  nonempty := by decide
  isDigit := List.all_eq_true.1 (by decide)
  closed := by
    rintro c hc
    obtain rfl : 0x3b = c := Option.some.inj hc
    decide
  exact := by decide

/-- The literal `4294967297` is taken for 1: a comparison with it selects the rows that have 1. -/
theorem not_literalKept_largeNumeral : largeNumeral.value = 4294967297 ∧
    Scanner.scanNumber largeNumeral.source = some (.intnum 1) ∧ SelectsEqual (newConstValue 1) 1 ∧
    ¬ LiteralKept largeNumeral := by
  refine ⟨by decide, by decide, selectsEqual_newConstValue 1, fun h => ?_⟩
  exact absurd h.fits.2 (by decide)

end QueryRealizer

end Dbms18
