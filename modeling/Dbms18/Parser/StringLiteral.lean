import Mathlib.Data.List.TakeWhile
import Dbms18.Lib.Text

/-!
# String literals (`parser/scanner.ll`)

The rule of STRING looks one character ahead with `input()` and puts it back with `unput()`, and then takes
the token's value from `yytext`: without its first character, and without its last two. After `unput()` the
lexeme is no longer terminated, so `yytext` may also be read as running on to the end of flex's buffer.
Either way two characters are too many or too few: the value is the literal's only if exactly one character
stands behind the literal in the buffer (`literalRead_iff`).
-/

namespace Dbms18

open List

namespace Scanner

def quote : UInt8 := 0x27

def newline : UInt8 := 0x0a

def backslash : UInt8 := 0x5c

/-- The rule `'[^'\n]*'`: the length of its match at the start of the text. -/
def matchString : Bytes → Option Nat
  | [] => none
  | c :: rest =>
    let body := rest.takeWhile fun c => c ≠ quote ∧ c ≠ newline
    if c = quote ∧ rest[body.length]? = some quote then some (body.length + 2) else none

/-- `(\\.|[^'\n])*`, on all of the text. -/
def lineBody : Bytes → Bool
  | [] => true
  | [c] => c ≠ quote ∧ c ≠ newline
  | c :: d :: cs => ((c ≠ quote ∧ c ≠ newline) && lineBody (d :: cs)) || ((c = backslash ∧ d ≠ newline) && lineBody cs)

/-- The rule `'(\\.|[^'\n])*$` of a literal that is not closed on its line. The newline behind it counts
when flex compares the lengths of matches. -/
def matchLine : Bytes → Option Nat
  | [] => none
  | c :: rest =>
    let line := rest.takeWhile (· ≠ newline)
    if c = quote ∧ rest[line.length]? = some newline ∧ lineBody line then some (line.length + 2) else none

/-- What `yytext` is after `unput()`: the lexeme, or the lexeme and the characters behind it that are in
the buffer. -/
inductive Yytext
  | lexeme
  | buffer (behind : Nat)
deriving DecidableEq

def Yytext.behind : Yytext → Bytes → Bytes
  | .lexeme, _ => []
  | .buffer n, text => text.take n

abbrev CString := { s : Bytes // 0 ∉ s }

def cString (s : Bytes) : CString :=
  ⟨s.takeWhile (· ≠ 0), fun h => by simpa using mem_takeWhile_imp h⟩

/-- `strdup(s + 1)`, with a zero byte written over the last but one of its characters. -/
def cut (s : CString) : CString :=
  ⟨(s.val.drop 1).take ((s.val.drop 1).length - 2), fun h => s.property (mem_of_mem_drop (mem_of_mem_take h))⟩

inductive ScanResult
  | string (strval : Option CString)
  | more
  | skipped

/-- The action of the rule of STRING. `strval` is what `yylval` holds before: the string of an earlier token, or
no string. -/
def stringAction (yytext : Yytext) (strval : Option CString) (lexeme text : Bytes) : ScanResult :=
  if text.head? = some quote then .more
  else
    let s := cString (lexeme ++ yytext.behind text)
    .string (if 2 < s.val.length then some (cut s) else strval)

/-- The scanner at a quote. The longest match wins, and of two equal ones that of the first rule. -/
def scanQuote (yytext : Yytext) (strval : Option CString) (text : Bytes) : ScanResult :=
  match matchString text with
  | none => .skipped
  | some n => if (matchLine text).any (n < ·) then .skipped else stringAction yytext strval (text.take n) (text.drop n)

/-- A string literal without quotes or newlines in it, and what stands behind it. -/
structure Literal where
  content : Bytes
  text : Bytes
  plain : ∀ c ∈ content, c ≠ quote ∧ c ≠ newline
  closed : text.head? ≠ some quote

def Literal.source (l : Literal) : Bytes := quote :: (l.content ++ quote :: l.text)

/-- The value of the token is what stands between the quotes. -/
def LiteralRead (yytext : Yytext) (strval : Option CString) (l : Literal) : Prop :=
  ∃ value, scanQuote yytext strval l.source = .string (some value) ∧ value.val = l.content

/-- The closing quote is taken for an escaped one: the literal ends in a backslash, and from there to the
end of the line every quote has a backslash before it. -/
def Literal.Unclosed (l : Literal) : Prop :=
  l.content.getLast? = some backslash ∧ ∃ line rest, l.text = line ++ newline :: rest ∧ newline ∉ line ∧ lineBody line

/-! ## The match -/

theorem matchString_source (l : Literal) : matchString l.source = some (l.content.length + 2) := by
  have hbody : (l.content ++ quote :: l.text).takeWhile (fun c => c ≠ quote ∧ c ≠ newline) = l.content := by
    rw [takeWhile_append_of_pos fun c hc => decide_eq_true (l.plain c hc), takeWhile_cons_of_neg (by simp),
      append_nil]
  rw [Literal.source, matchString, hbody, if_pos ⟨rfl, by simp⟩]

theorem lineBody_quote (l : Bytes) : lineBody (quote :: l) = false := by
  cases l <;> simp [lineBody, quote, backslash]

theorem lineBody_cons_cons {c d : UInt8} {cs : Bytes} : lineBody (c :: d :: cs) = true ↔
    (c ≠ quote ∧ c ≠ newline) ∧ lineBody (d :: cs) = true ∨ (c = backslash ∧ d ≠ newline) ∧ lineBody cs = true := by
  simp [lineBody]

theorem lineBody_literal (l : Bytes) : ∀ content : Bytes, (∀ c ∈ content, c ≠ quote ∧ c ≠ newline) →
    (lineBody (content ++ quote :: l) = true ↔ content.getLast? = some backslash ∧ lineBody l = true)
  | [], _ => by simp [lineBody_quote]
  | [c], _ => by
    have hne : quote ≠ newline := by decide
    simp [lineBody_cons_cons, lineBody_quote, hne]
  | c :: d :: cs, h => by
    have hfirst := lineBody_literal l (d :: cs) fun c hc => h c (mem_cons_of_mem _ hc)
    have hsecond := lineBody_literal l cs fun c hc => h c (mem_cons_of_mem _ (mem_cons_of_mem _ hc))
    rw [cons_append] at hfirst
    rw [cons_append, cons_append, lineBody_cons_cons, hfirst, hsecond, getLast?_cons_cons]
    constructor
    · rintro (⟨-, hlast⟩ | ⟨-, hlast, hl⟩)
      · exact hlast
      · rw [getLast?_cons, hlast]
        exact ⟨rfl, hl⟩
    · exact fun hlast => .inl ⟨h c mem_cons_self, hlast⟩

theorem matchLine_source (l : Literal) : (matchLine l.source).any (l.content.length + 2 < ·) = true ↔ l.Unclosed := by
  have hline : (l.content ++ quote :: l.text).takeWhile (· ≠ newline) = l.content ++
      quote :: l.text.takeWhile (· ≠ newline) := by
    rw [takeWhile_append_of_pos fun c hc => decide_eq_true (l.plain c hc).2, takeWhile_cons_of_pos (by decide)]
  have hbehind : (l.content ++ quote :: l.text)[(l.content ++ quote :: l.text.takeWhile (· ≠ newline)).length]? =
      l.text[(l.text.takeWhile (· ≠ newline)).length]? := by
    rw [length_append, getElem?_append_right (Nat.le_add_right _ _), Nat.add_sub_cancel_left, length_cons,
      getElem?_cons_succ]
  have hany : (matchLine l.source).any (l.content.length + 2 < ·) = true ↔
      l.text[(l.text.takeWhile (· ≠ newline)).length]? = some newline ∧
        lineBody (l.content ++ quote :: l.text.takeWhile (· ≠ newline)) = true := by
    rw [Literal.source, matchLine, hline, hbehind]
    simp only [true_and]
    split
    · next h => exact iff_of_true (by simp) h
    · next h => exact iff_of_false (by simp) h
  rw [hany, lineBody_literal _ _ l.plain]
  constructor
  · rintro ⟨hnewline, hlast, hbody⟩
    have hsplit := takeWhile_append_dropWhile (p := (· ≠ newline)) (l := l.text)
    have hdrop : (l.text.dropWhile (· ≠ newline)).head? = some newline := by
      have hat := congrArg (·[(l.text.takeWhile (· ≠ newline)).length]?) hsplit
      rw [getElem?_append_right (Nat.le_refl _), Nat.sub_self, ← head?_eq_getElem?, hnewline] at hat
      exact hat
    obtain ⟨rest, hrest⟩ := head?_eq_some_iff.1 hdrop
    refine ⟨hlast, _, rest, hrest ▸ hsplit.symm, fun hmem => ?_, hbody⟩
    simpa using mem_takeWhile_imp hmem
  · rintro ⟨hlast, line, rest, htext, hline, hbody⟩
    have htake : l.text.takeWhile (· ≠ newline) = line := by
      rw [htext, takeWhile_append_of_pos, takeWhile_cons_of_neg (by simp), append_nil]
      intro c hc
      refine decide_eq_true ?_
      rintro rfl
      exact hline hc
    rw [htake]
    exact ⟨by simp [htext], hlast, hbody⟩

/-! ## The value -/

theorem cString_append {s : Bytes} (hs : 0 ∉ s) (t : Bytes) : (cString (s ++ t)).val = s ++ (cString t).val :=
  takeWhile_append_of_pos fun c hc => by
    refine decide_eq_true ?_
    rintro rfl
    exact hs hc

theorem scanQuote_source (yytext : Yytext) (strval : Option CString) (l : Literal) (h : ¬ l.Unclosed) :
    scanQuote yytext strval l.source = .string
      (if 2 < (cString (quote :: (l.content ++ quote :: yytext.behind l.text))).val.length then
        some (cut (cString (quote :: (l.content ++ quote :: yytext.behind l.text)))) else strval) := by
  have htake : l.source.take (l.content.length + 2) = quote :: (l.content ++ [quote]) := by
    simp [Literal.source, take_append]
  have hdrop : l.source.drop (l.content.length + 2) = l.text := by
    simp [Literal.source, drop_append]
  rw [scanQuote, matchString_source]
  show (if _ then _ else _) = _
  rw [if_neg fun hany => h ((matchLine_source l).1 hany), stringAction, htake, hdrop, if_neg l.closed]
  simp

theorem cut_eq_iff {content t : Bytes} (hlen : 0 < content.length + t.length) :
    ((content ++ quote :: t).take ((content ++ quote :: t).length - 2) = content ↔ t.length = 1) := by
  have hcount : (content ++ quote :: t).length - 2 = content.length + t.length - 1 := by
    simp only [length_append, length_cons]
    omega
  rw [hcount]
  constructor
  · intro heq
    have hlength := congrArg List.length heq
    simp only [length_take, length_append, length_cons] at hlength
    omega
  · intro ht
    rw [ht, Nat.add_sub_cancel, take_left]

theorem LiteralRead.not_unclosed {yytext : Yytext} {strval : Option CString} {l : Literal} (h : LiteralRead yytext strval l) :
    ¬ l.Unclosed := by
  intro hopen
  obtain ⟨value, hscan, -⟩ := h
  rw [scanQuote, matchString_source] at hscan
  simp [(matchLine_source l).2 hopen] at hscan

/-- The value of a string literal is right exactly if, as `yytext` is read, one character stands behind the
literal before the end of the buffer or a zero byte; the value of an empty one with nothing behind it is
what `yylval` held before. -/
theorem literalRead_iff (yytext : Yytext) (strval : Option CString) (l : Literal) :
    LiteralRead yytext strval l ↔ ¬ l.Unclosed ∧ 0 ∉ l.content ∧
      ((cString (yytext.behind l.text)).val.length = 1 ∨
        l.content = [] ∧ (cString (yytext.behind l.text)).val = [] ∧ ∃ value, strval = some value ∧ value.val = []) := by
  by_cases hopen : l.Unclosed
  · exact iff_of_false (fun h => h.not_unclosed hopen) fun h => h.1 hopen
  by_cases hzero : 0 ∈ l.content
  · refine iff_of_false ?_ fun h => h.2.1 hzero
    rintro ⟨value, -, hvalue⟩
    exact value.property (hvalue ▸ hzero)
  have hlexeme : 0 ∉ quote :: (l.content ++ [quote]) := by
    simpa [quote] using hzero
  have hs : (cString (quote :: (l.content ++ quote :: yytext.behind l.text))).val =
      quote :: (l.content ++ quote :: (cString (yytext.behind l.text)).val) := by
    have happend := cString_append hlexeme (yytext.behind l.text)
    simpa using happend
  generalize (cString (yytext.behind l.text)).val = t at hs ⊢
  rw [LiteralRead, scanQuote_source yytext strval l hopen]
  simp only [hopen, hzero, not_false_eq_true, true_and]
  by_cases hlen : 0 < l.content.length + t.length
  · -- the value is cut from `yytext`
    rw [if_pos (by rw [hs]; simp; omega)]
    have hcut : (∃ value, ScanResult.string (some (cut (cString (quote :: (l.content ++ quote :: yytext.behind l.text))))) =
        .string (some value) ∧ value.val = l.content) ↔ t.length = 1 := by
      rw [← cut_eq_iff hlen]
      simp [cut, hs]
    rw [hcut, or_iff_left]
    rintro ⟨hcontent, ht, -⟩
    simp [hcontent, ht] at hlen
  · obtain ⟨hcontent, ht⟩ : l.content = [] ∧ t = [] := by
      simpa using hlen
    rw [if_neg (by rw [hs]; simp [hcontent, ht]), hcontent, ht]
    simp

/-- `'abc'`, and behind it a semicolon and the end of the line. -/
def abcLiteral : Literal := ⟨ascii "abc", ascii ";\n", by simp [ascii, quote, newline], by decide⟩

/-- One reading of `yytext` loses the last letter, the other keeps the quote. -/
theorem not_literalRead_abcLiteral : (∀ strval, ∃ value : CString, value.val = ascii "ab" ∧
      scanQuote .lexeme strval abcLiteral.source = .string (some value)) ∧
    (∀ strval, ∃ value : CString, value.val = ascii "abc'" ∧
      scanQuote (.buffer 2) strval abcLiteral.source = .string (some value)) ∧
    ∀ strval, ¬ LiteralRead .lexeme strval abcLiteral ∧ ¬ LiteralRead (.buffer 2) strval abcLiteral := by
  have hlexeme : ∀ strval, scanQuote .lexeme strval abcLiteral.source = .string (some (cut (cString (ascii "'abc'")))) :=
    fun _ => rfl
  have hbuffer : ∀ strval, scanQuote (.buffer 2) strval abcLiteral.source =
      .string (some (cut (cString (ascii "'abc';\n")))) := fun _ => rfl
  refine ⟨fun strval => ⟨_, rfl, hlexeme strval⟩, fun strval => ⟨_, rfl, hbuffer strval⟩, fun strval => ⟨?_, ?_⟩⟩
  · rintro ⟨value, hscan, hvalue⟩
    rw [hlexeme] at hscan
    cases hscan
    exact absurd hvalue (by decide)
  · rintro ⟨value, hscan, hvalue⟩
    rw [hbuffer] at hscan
    cases hscan
    exact absurd hvalue (by decide)

end Scanner

end Dbms18
