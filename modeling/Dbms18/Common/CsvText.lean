import Mathlib.Algebra.GroupWithZero.Nat
import Mathlib.Data.List.Chain
import Dbms18.Common.MiniCsv

/-!
# The text of a line, written and read (`mini::csv::ofstream`, `mini::csv::ifstream`)

A delimiter in a field is written as `$$`, and `$$` is read as a delimiter. The fields of a line come back
through this pair one by one (`fieldTexts_lineText`), and a field comes back as it was exactly if it has no
`$` before another `$` or a delimiter (`unescape_escape_eq_iff`).
-/

namespace Dbms18

open List

namespace MiniCsv

variable {field w src : Bytes} {b d : UInt8}

/-! ## Escape and unescape -/

/-- No `$` stands before another `$` or a delimiter. -/
def Plain (field : Bytes) : Prop := field.IsChain fun a b => a = 0x24 → b ≠ 0x24 ∧ b ≠ delimiter

instance (field : Bytes) : Decidable (Plain field) := inferInstanceAs (Decidable (List.IsChain _ _))

theorem escape_cons (b : UInt8) (field : Bytes) :
    escape (b :: field) = (if b = delimiter then [0x24, 0x24] else [b]) ++ escape field := rfl

theorem mem_escape (h : b ∈ escape field) : b ≠ delimiter ∧ (b ∈ field ∨ b = 0x24) := by
  obtain ⟨c, hc, hb⟩ := mem_flatMap.1 h
  split at hb
  · obtain rfl : b = 0x24 := by simpa [ascii] using hb
    exact ⟨by decide, .inr rfl⟩
  · next hne =>
    obtain rfl := mem_singleton.1 hb
    exact ⟨hne, .inl hc⟩

theorem unescape_cons_of_ne (hb : b ≠ 0x24) (src : Bytes) : unescape d (b :: src) = b :: unescape d src := by
  rw [unescape]
  rintro - rfl
  exact absurd rfl hb

theorem unescape_dollar (h : src.head? ≠ some 0x24) : unescape d (0x24 :: src) = 0x24 :: unescape d src := by
  rw [unescape]
  rintro src' - rfl
  exact h rfl

theorem head?_unescape (h : src.head? ≠ some 0x24) : (unescape d src).head? = src.head? := by
  cases src with
  | nil => rfl
  | cons b src =>
    rw [unescape_cons_of_ne fun hb => h (congrArg some hb)]
    rfl

theorem head?_escape_ne (h : ∀ b ∈ field.head?, b ≠ 0x24 ∧ b ≠ delimiter) : (escape field).head? ≠ some 0x24 := by
  cases field with
  | nil => nofun
  | cons b field =>
    obtain ⟨hdollar, hdelim⟩ := h b rfl
    rw [escape_cons, if_neg hdelim]
    exact fun heq => hdollar (Option.some.inj heq)

theorem unescape_escape (h : Plain field) : unescape delimiter (escape field) = field := by
  induction field with
  | nil => rfl
  | cons b field ih =>
    obtain ⟨hhead, htail⟩ := isChain_cons.1 h
    rw [escape_cons]
    split
    · next hb => rw [cons_append, singleton_append, unescape, ih htail, hb]
    · rw [singleton_append]
      by_cases hb : b = 0x24
      · subst hb
        rw [unescape_dollar (head?_escape_ne fun c hc => hhead c hc rfl), ih htail]
      · rw [unescape_cons_of_ne hb, ih htail]

theorem plain_unescape (h : delimiter ∉ w) : Plain (unescape delimiter w) := by
  fun_induction unescape delimiter w with
  | case1 src ih =>
    refine isChain_cons.2 ⟨fun b _ heq => absurd heq (by decide), ih fun hmem => h ?_⟩
    exact mem_cons_of_mem _ (mem_cons_of_mem _ hmem)
  | case2 b src hne ih =>
    rw [mem_cons, not_or] at h
    refine isChain_cons.2 ⟨?_, ih h.2⟩
    rintro c hc rfl
    have hhead : src.head? ≠ some 0x24 := by
      intro heq
      obtain ⟨src', rfl⟩ := head?_eq_some_iff.1 heq
      exact hne src' rfl rfl
    rw [head?_unescape hhead] at hc
    refine ⟨fun hc' => hhead (hc' ▸ hc), fun hc' => h.2 ?_⟩
    exact hc' ▸ mem_of_mem_head? hc
  | case3 => exact isChain_nil

theorem plain_unescape_escape (field : Bytes) : Plain (unescape delimiter (escape field)) :=
  plain_unescape fun h => (mem_escape h).1 rfl

theorem unescape_escape_eq_iff : unescape delimiter (escape field) = field ↔ Plain field :=
  ⟨fun h => h ▸ plain_unescape_escape field, unescape_escape⟩

/-! ## Fields and lines -/

def lineText : List Bytes → Bytes
  | [] => []
  | [field] => escape field
  | field :: fields => escape field ++ delimiter :: lineText fields

theorem lineText_cons (field : Bytes) (fields : List Bytes) :
    lineText (field :: fields) = escape field ++ if fields = [] then [] else delimiter :: lineText fields := by
  cases fields with
  | nil => simp [lineText]
  | cons => rfl

def fileText (lines : List (List Bytes)) : Bytes := lines.flatMap fun fields => lineText fields ++ [newline]

theorem out_foldl_put (fields : List Bytes) (os : OutStream) : (fields.foldl OutStream.put os).out =
    os.out ++ if os.afterNewline then lineText fields else if fields = [] then [] else delimiter :: lineText fields := by
  induction fields generalizing os with
  | nil => simp [lineText]
  | cons field fields ih =>
    rw [foldl_cons, ih, lineText_cons]
    cases hafter : os.afterNewline <;> simp [OutStream.put, hafter]

def Clean (field : Bytes) : Prop := 0x0d ∉ field ∧ newline ∉ field

instance (field : Bytes) : Decidable (Clean field) := inferInstanceAs (Decidable (_ ∧ _))

theorem clean_escape (h : Clean field) : Clean (escape field) :=
  ⟨fun hmem => (mem_escape hmem).2.elim h.1 (by decide), fun hmem => (mem_escape hmem).2.elim h.2 (by decide)⟩

theorem newline_not_mem_lineText {fields : List Bytes} (h : ∀ field ∈ fields, Clean field) : newline ∉ lineText fields := by
  induction fields with
  | nil => simp [lineText]
  | cons field fields ih =>
    rw [forall_mem_cons] at h
    rw [lineText_cons, mem_append, not_or]
    refine ⟨(clean_escape h.1).2, ?_⟩
    split
    · exact not_mem_nil
    · rw [mem_cons, not_or]
      exact ⟨by decide, ih h.2⟩

theorem getLinesFrom_line {line : Bytes} (h : newline ∉ w) (bs : Bytes) :
    getLinesFrom line (w ++ newline :: bs) = (line ++ w) :: getLinesFrom [] bs := by
  induction w generalizing line with
  | nil => simp [getLinesFrom]
  | cons b w ih =>
    rw [mem_cons, not_or] at h
    rw [cons_append, getLinesFrom, if_neg fun heq => h.1 heq.symm, ih h.2]
    simp

theorem getLines_fileText {lines : List (List Bytes)} (h : ∀ fields ∈ lines, ∀ field ∈ fields, Clean field) :
    getLines (fileText lines) = lines.map lineText := by
  induction lines with
  | nil => rfl
  | cons fields lines ih =>
    rw [forall_mem_cons] at h
    have hline : getLinesFrom [] (lineText fields ++ newline :: fileText lines) = _ :=
      getLinesFrom_line (newline_not_mem_lineText h.1) (fileText lines)
    rw [fileText, flatMap_cons, append_assoc, getLines]
    exact hline.trans (congrArg (lineText fields :: ·) (ih h.2))

theorem delimited_append (hd : delimiter ∉ w) (hw : Clean w) (rest : Bytes) :
    delimited delimiter (w ++ delimiter :: rest) = (w, rest) ∧ delimited delimiter w = (w, []) := by
  induction w with
  | nil => exact ⟨by simp [delimited], rfl⟩
  | cons b w ih =>
    simp only [Clean, mem_cons, not_or] at hd hw
    obtain ⟨h₁, h₂⟩ := ih hd.2 ⟨hw.1.2, hw.2.2⟩
    have hb : ¬ (b = delimiter ∨ b = 0x0d ∨ b = newline) := by
      rintro (rfl | rfl | rfl)
      · exact hd.1 rfl
      · exact hw.1.1 rfl
      · exact hw.2.1 rfl
    exact ⟨by rw [cons_append, delimited, if_neg hb, h₁], by rw [delimited, if_neg hb, h₂]⟩

def fieldTexts (d : UInt8) : Nat → Bytes → List Bytes
  | 0, _ => []
  | n + 1, line => (getDelimitedStr d line).1 :: fieldTexts d n (getDelimitedStr d line).2

theorem fieldTexts_lineText {fields : List Bytes} (h : ∀ field ∈ fields, Clean field) :
    fieldTexts delimiter fields.length (lineText fields) = fields.map fun field => unescape delimiter (escape field) := by
  induction fields with
  | nil => rfl
  | cons field fields ih =>
    rw [forall_mem_cons] at h
    obtain ⟨h₁, h₂⟩ := delimited_append (fun hmem => (mem_escape hmem).1 rfl) (clean_escape h.1) (lineText fields)
    rw [length_cons, fieldTexts, lineText_cons, getDelimitedStr, map_cons]
    cases fields with
    | nil => rw [if_pos rfl, append_nil, h₂]; rfl
    | cons field' fields => rw [if_neg (by simp), h₁, ih h.2]

/-! ## Numbers -/

theorem toNat_of_isDigit (h : isDigit b = true) : 48 ≤ b.toNat ∧ b.toNat ≤ 57 := by
  simpa [isDigit, UInt8.le_iff_toNat_le] using h

theorem not_isSpace_of_isDigit (h : isDigit b = true) : isSpace b = false ∧ b ≠ 0x2d ∧ b ≠ 0x2b := by
  have hb := toNat_of_isDigit h
  refine ⟨?_, ?_, ?_⟩
  · simp only [isSpace, decide_eq_false_iff_not, UInt8.le_iff_toNat_le, ← UInt8.toNat_inj]
    simp
    omega
  all_goals
    rintro rfl
    revert hb
    decide

def digitsText (n : Nat) : Bytes := (Nat.toDigits 10 n).map fun c => c.toNat.toUInt8

theorem isDigit_digitsText (n : Nat) : ∀ b ∈ digitsText n, isDigit b = true := by
  intro b hb
  obtain ⟨c, hc, rfl⟩ := mem_map.1 hb
  have hdigit := isDigit_of_mem hc
  have hlt := toNat_lt_of_isDigit hdigit
  have hnat : c.toNat.toUInt8.toNat = c.toNat := Nat.mod_eq_of_lt hlt
  simp only [Char.isDigit, Bool.and_eq_true, decide_eq_true_eq, UInt32.le_iff_toNat_le] at hdigit
  simp only [isDigit, UInt8.le_iff_toNat_le, decide_eq_true_eq, hnat]
  exact hdigit

theorem ofDigits_digitsText (n : Nat) : ofDigits (digitsText n) = n := by
  have hfold : ∀ (cs : List Char) (acc : Nat), (∀ c ∈ cs, c.isDigit = true) →
      (cs.map fun c => c.toNat.toUInt8).foldl (fun n ch => 10 * n + (ch.toNat - 0x30)) acc = Nat.ofDigitChars 10 cs acc := by
    intro cs
    induction cs with
    | nil => exact fun _ _ => rfl
    | cons c cs ih =>
      intro acc h
      rw [forall_mem_cons] at h
      have hc : c.toNat.toUInt8.toNat = c.toNat := Nat.mod_eq_of_lt (toNat_lt_of_isDigit h.1)
      rw [map_cons, foldl_cons, ih _ h.2, hc]
      rfl
  exact (hfold _ 0 fun c hc => isDigit_of_mem hc).trans (Nat.ofDigitChars_toDigits (by decide) (by decide))

theorem decimal_eq (i : Int) :
    decimal i = if 0 ≤ i then digitsText i.toNat else 0x2d :: digitsText (-i).toNat := by
  rw [decimal, ascii, toList_toString]
  split <;> rfl

theorem exists_digitsText (n : Nat) : ∃ b bs, digitsText n = b :: bs ∧ isDigit b = true := by
  obtain ⟨b, bs, heq⟩ := exists_cons_of_ne_nil (l := digitsText n) (by simp [digitsText, Nat.toDigits_ne_nil])
  exact ⟨b, bs, heq, isDigit_digitsText n b (heq ▸ mem_cons_self)⟩

theorem takeWhile_digitsText (n : Nat) : (digitsText n).takeWhile isDigit = digitsText n := by
  have htake : (digitsText n ++ []).takeWhile isDigit = digitsText n ++ List.takeWhile isDigit [] :=
    takeWhile_append_of_pos (isDigit_digitsText n)
  rwa [takeWhile_nil, append_nil] at htake

theorem parseInteger_digitsText {n : Nat} (hn : (n : Int) < 2 ^ 63) :
    parseInteger (digitsText n) = some (Int64.ofInt n) := by
  obtain ⟨b, bs, heq, hb⟩ := exists_digitsText n
  obtain ⟨hspace, hminus, hplus⟩ := not_isSpace_of_isDigit hb
  have hdrop : (digitsText n).dropWhile isSpace = digitsText n := by
    rw [heq, dropWhile_cons_of_neg (by simp [hspace])]
  have hhead : (digitsText n).head? = some b := by rw [heq]; rfl
  simp only [parseInteger, hdrop, hhead, Option.some.injEq, hminus, hplus, or_self, if_false, takeWhile_digitsText,
    ofDigits_digitsText]
  exact if_pos ⟨by simp [heq], by omega, hn⟩

theorem parseInteger_minus_digitsText {n : Nat} (hn : -2 ^ 63 ≤ -(n : Int)) :
    parseInteger (0x2d :: digitsText n) = some (Int64.ofInt (-n)) := by
  obtain ⟨b, bs, heq, -⟩ := exists_digitsText n
  have hdrop : (0x2d :: digitsText n).dropWhile isSpace = 0x2d :: digitsText n :=
    dropWhile_cons_of_neg (by decide)
  simp only [parseInteger, hdrop, head?_cons, tail_cons, true_or, if_true, takeWhile_digitsText,
    ofDigits_digitsText]
  exact if_pos ⟨by simp [heq], hn, by omega⟩

theorem parseInteger_decimal (v : Int64) : parseInteger (decimal v.toInt) = some v := by
  have hle := v.le_toInt
  have hlt := v.toInt_lt
  conv_rhs => rw [← Int64.ofInt_toInt v]
  generalize v.toInt = i at hle hlt
  rw [decimal_eq]
  split
  · rw [parseInteger_digitsText (by omega), Int.toNat_of_nonneg (by omega)]
  · rw [parseInteger_minus_digitsText (by omega), Int.toNat_of_nonneg (by omega), Int.neg_neg]

/-! ## Bytes that are neither escaped nor a delimiter -/

theorem count_escape (hd : b ≠ delimiter) (hb : b ≠ 0x24) (field : Bytes) : (escape field).count b = field.count b := by
  induction field with
  | nil => rfl
  | cons c field ih =>
    rw [escape_cons, count_append, ih, count_cons]
    split
    · next hc => simp [hc, Ne.symm hb, Ne.symm hd]
    · rw [count_singleton, Nat.add_comm]

theorem count_unescape (hd : b ≠ delimiter) (hb : b ≠ 0x24) (src : Bytes) :
    (unescape delimiter src).count b = src.count b := by
  fun_induction unescape delimiter src with
  | case1 src ih => simp [ih, Ne.symm hd, Ne.symm hb]
  | case2 c src _ ih => simp [count_cons, ih]
  | case3 => rfl

theorem count_delimited (line : Bytes) :
    (delimited d line).1.count b + (delimited d line).2.count b ≤ line.count b := by
  induction line with
  | nil => simp [delimited]
  | cons ch line ih =>
    rw [delimited]
    split
    · simpa using count_le_count_cons
    · simp only [count_cons]
      omega

theorem count_fieldTexts (hd : b ≠ delimiter) (hb : b ≠ 0x24) (n : Nat) (line : Bytes) :
    ((fieldTexts delimiter n line).map (List.count b)).sum ≤ line.count b := by
  induction n generalizing line with
  | zero => exact Nat.zero_le _
  | succ n ih =>
    have hle := count_delimited (d := delimiter) (b := b) line
    have hrest := ih (delimited delimiter line).2
    simp only [fieldTexts, getDelimitedStr, map_cons, sum_cons, count_unescape hd hb]
    omega

theorem count_lineText (hd : b ≠ delimiter) (hb : b ≠ 0x24) (fields : List Bytes) :
    (lineText fields).count b = (fields.map (List.count b)).sum := by
  induction fields with
  | nil => rfl
  | cons field fields ih =>
    rw [lineText_cons, count_append, count_escape hd hb, map_cons, sum_cons]
    split
    · next hnil => simp [hnil]
    · rw [count_cons_of_ne (Ne.symm hd), ih]

end MiniCsv

end Dbms18
