import Dbms18.Common.MiniCsv
import Dbms18.Lib.Lists

/-!
# Which lines of a file are read (`mini::csv::ifstream::read_line`)

`read_line` ends at the first blank line, a file of less than three bytes has no lines for it, and one byte
of a byte order mark at its place is enough to lose the first three bytes of the file. `ReadsAll` says for
which files it gives all lines that are not blank.
-/

namespace Dbms18

namespace MiniCsv

def Marked (content : Bytes) : Prop := [0xef, 0xbb, 0xbf] <+: content

instance (content : Bytes) : Decidable (Marked content) := inferInstanceAs (Decidable (_ <+: _))

def text (content : Bytes) : Bytes := if Marked content then content.drop 3 else content

def nonBlankLines (content : Bytes) : List Bytes := (getLines (text content)).filter (· ≠ [])

variable {content : Bytes} {texts : List Bytes}

theorem hasBom_of_marked (h : Marked content) : hasBom content = true := by
  obtain ⟨rest, rfl⟩ := h
  rfl

theorem text_of_not_hasBom (h : hasBom content = false) : text content = content :=
  if_neg fun hmarked => by simp [hasBom_of_marked hmarked] at h

theorem getLinesFrom_append (start line bs : Bytes) (hstart : start ≠ []) :
    ∃ l ls, getLinesFrom (start ++ line) bs = (start ++ l) :: ls ∧
      (getLinesFrom line bs = l :: ls ∨ getLinesFrom line bs = [] ∧ l = [] ∧ ls = []) := by
  induction bs generalizing line with
  | nil =>
    refine ⟨line, [], by simp [getLinesFrom, hstart], ?_⟩
    by_cases hline : line = []
    · exact .inr (by simp [getLinesFrom, hline])
    · exact .inl (by simp [getLinesFrom, hline])
  | cons b bs ih =>
    simp only [getLinesFrom]
    split
    · exact ⟨line, getLinesFrom [] bs, rfl, .inl rfl⟩
    · simpa using ih (line ++ [b])

theorem readLines_of_not_hasBom (hbom : hasBom content = false) :
    readLines content = .ok ((if content.length < 3 then [] else getLines content).takeWhile (· ≠ [])) := by
  simp [readLines, hbom]

theorem readLines_of_hasBom (hbom : hasBom content = true) (hread : readLines content = .ok texts) :
    ∃ l ls, getLines content = l :: ls ∧ 3 ≤ l.length ∧ 3 ≤ content.length ∧
      texts = (l.drop 3 :: ls).takeWhile (· ≠ []) := by
  simp only [readLines, hbom, if_true] at hread
  obtain ⟨_, hcheck, heq⟩ := Res.bind_eq_ok.1 hread
  have hlen := Res.check_eq_ok.1 hcheck
  obtain rfl := Except.ok.inj heq
  by_cases hshort : content.length < 3
  · simp [hshort] at hlen
  · rw [if_neg hshort] at hlen ⊢
    cases hlines : getLines content with
    | nil => simp [hlines] at hlen
    | cons l ls =>
      rw [hlines] at hlen
      exact ⟨l, ls, rfl, hlen, Nat.le_of_not_lt hshort, rfl⟩

theorem getLines_of_marked (h : Marked content) {l : Bytes} {ls : List Bytes} (hlines : getLines content = l :: ls) :
    getLines (text content) = l.drop 3 :: ls ∨ getLines (text content) = [] ∧ l.drop 3 = [] ∧ ls = [] := by
  obtain ⟨rest, rfl⟩ := h
  have htext : text ([0xef, 0xbb, 0xbf] ++ rest) = rest := if_pos (List.prefix_append _ _)
  obtain ⟨l', ls', heq, hrest⟩ := getLinesFrom_append [0xef, 0xbb, 0xbf] [] rest (by simp)
  have hfrom : getLines ([0xef, 0xbb, 0xbf] ++ rest) = getLinesFrom [0xef, 0xbb, 0xbf] rest := rfl
  obtain ⟨rfl, rfl⟩ := List.cons.inj (hlines.symm.trans (hfrom.trans heq))
  rw [htext]
  exact hrest

/-- No line that is not blank follows a blank one. -/
def NoGap (lines : List Bytes) : Prop := lines.Pairwise fun l l' => l' ≠ [] → l ≠ []

instance (lines : List Bytes) : Decidable (NoGap lines) := inferInstanceAs (Decidable (List.Pairwise _ _))

theorem noGap_iff {lines : List Bytes} :
    NoGap lines ↔ (lines.takeWhile (· ≠ [])).length = (lines.filter (· ≠ [])).length := by
  rw [length_takeWhile_eq_iff, NoGap]
  simp

/-- The ways to read a file: not at all, line by line behind a byte order mark that is there or not, and
without the first three bytes of its first line. -/
inductive Reading (content : Bytes) : List Bytes → Prop
  | short (hlen : content.length < 3) (hbom : hasBom content = false) : Reading content []
  | whole {lines : List Bytes} (hlen : 3 ≤ content.length) (hbom : hasBom content = true → Marked content)
      (hlines : nonBlankLines content = lines.filter (· ≠ [])) (hgap : NoGap (getLines (text content)) ↔ NoGap lines) :
      Reading content (lines.takeWhile (· ≠ []))
  | cut {l : Bytes} {ls : List Bytes} (hlen : 3 ≤ content.length) (hbom : hasBom content = true) (hmark : ¬ Marked content)
      (hl : 3 ≤ l.length) (hlines : getLines content = l :: ls) : Reading content ((l.drop 3 :: ls).takeWhile (· ≠ []))

theorem reading_of_readLines (hread : readLines content = .ok texts) : Reading content texts := by
  cases hbom : hasBom content with
  | false =>
    rw [readLines_of_not_hasBom hbom] at hread
    obtain rfl := Except.ok.inj hread
    have htext := text_of_not_hasBom hbom
    split
    · next hlen => exact .short hlen hbom
    · next hlen =>
      exact .whole (Nat.le_of_not_lt hlen) (by simp [hbom]) (by rw [nonBlankLines, htext]) (by rw [htext])
  | true =>
    obtain ⟨l, ls, hlines, hl, hlen, rfl⟩ := readLines_of_hasBom hbom hread
    by_cases hmark : Marked content
    · refine .whole hlen (fun _ => hmark) ?_ ?_
      all_goals
        rcases getLines_of_marked hmark hlines with heq | ⟨heq, hl', hls⟩
        · simp [nonBlankLines, heq]
        · simp [nonBlankLines, NoGap, heq, hl', hls]
    · exact .cut hlen hbom hmark hl hlines

theorem nonBlankLines_of_cut {l : Bytes} {ls : List Bytes} (hmark : ¬ Marked content) (hl : 3 ≤ l.length)
    (hlines : getLines content = l :: ls) : nonBlankLines content = l :: ls.filter (· ≠ []) := by
  have hne : l ≠ [] := by
    rintro rfl
    cases hl
  rw [nonBlankLines, text, if_neg hmark, hlines, List.filter_cons_of_pos (by simpa using hne)]

theorem length_le_of_reading (h : Reading content texts) : texts.length ≤ (nonBlankLines content).length := by
  cases h with
  | short => exact Nat.zero_le _
  | whole hlen hbom hlines hgap =>
    rw [hlines]
    exact (takeWhile_sublist_filter _ _).length_le
  | @cut l ls hlen hbom hmark hl hlines =>
    rw [nonBlankLines_of_cut hmark hl hlines]
    have hle := (takeWhile_sublist_filter (fun l : Bytes => decide (l ≠ [])) ls).length_le
    rw [List.takeWhile_cons]
    split
    · exact Nat.succ_le_succ hle
    · exact Nat.zero_le _

/-- Up to what `f` reads of a line, all lines are read that are not blank. -/
structure ReadsAll {γ : Type*} (f : Bytes → γ) (content : Bytes) : Prop where
  long : nonBlankLines content ≠ [] → 3 ≤ content.length
  noGap : NoGap (getLines (text content))
  mark : hasBom content = true → ¬ Marked content → ∀ l, (getLines content).head? = some l →
    l.drop 3 ≠ [] ∧ f (l.drop 3) = f l

variable {γ : Type*} {f : Bytes → γ}

theorem ReadsAll.map_eq (h : ReadsAll f content) (hread : Reading content texts) :
    (nonBlankLines content).map f = texts.map f := by
  cases hread with
  | short hlen hbom =>
    by_cases hnil : nonBlankLines content = []
    · rw [hnil]
    · exact absurd (h.long hnil) (Nat.not_le_of_lt hlen)
  | whole hlen hbom hlines hgap =>
    rw [hlines, takeWhile_eq_filter (length_takeWhile_eq_iff.1 (noGap_iff.1 (hgap.1 h.noGap)))]
  | @cut l ls hlen hbom hmark hl hlines =>
    obtain ⟨hne, hf⟩ := h.mark hbom hmark l (by rw [hlines]; rfl)
    have hgap := h.noGap
    rw [text, if_neg hmark, hlines, NoGap, List.pairwise_cons] at hgap
    rw [nonBlankLines_of_cut hmark hl hlines, List.takeWhile_cons_of_pos (by simpa using hne),
      takeWhile_eq_filter (length_takeWhile_eq_iff.1 (noGap_iff.1 hgap.2)), List.map_cons, List.map_cons, hf]

theorem readsAll_of_perm (hread : Reading content texts) (hperm : ((nonBlankLines content).map f).Perm (texts.map f)) :
    ReadsAll f content := by
  have hlength : texts.length = (nonBlankLines content).length := by simpa using hperm.length_eq.symm
  cases hread with
  | short hlen hbom =>
    have hnil : nonBlankLines content = [] := List.length_eq_zero_iff.1 hlength.symm
    refine ⟨fun hne => absurd hnil hne, ?_, by simp [hbom]⟩
    rw [noGap_iff]
    have hle := (takeWhile_sublist_filter (fun l : Bytes => decide (l ≠ [])) (getLines (text content))).length_le
    rw [nonBlankLines] at hnil
    rw [hnil] at hle ⊢
    exact Nat.eq_zero_of_le_zero hle
  | whole hlen hbom hlines hgap =>
    exact ⟨fun _ => hlen, hgap.2 (noGap_iff.2 (hlines ▸ hlength)), fun h hmark => absurd (hbom h) hmark⟩
  | @cut l ls hlen hbom hmark hl hlines =>
    rw [nonBlankLines_of_cut hmark hl hlines] at hlength hperm
    by_cases hne : l.drop 3 = []
    · simp [hne] at hlength
    rw [List.takeWhile_cons_of_pos (by simpa using hne)] at hlength hperm
    have hgap : NoGap ls := noGap_iff.2 (Nat.succ.inj hlength)
    rw [takeWhile_eq_filter (length_takeWhile_eq_iff.1 (noGap_iff.1 hgap)), List.map_cons, List.map_cons] at hperm
    refine ⟨fun _ => hlen, ?_, fun _ _ l' hl' => ?_⟩
    · rw [text, if_neg hmark, hlines]
      refine List.pairwise_cons.2 ⟨fun l' _ _ hnil => ?_, hgap⟩
      rw [hnil] at hl
      cases hl
    · rw [hlines] at hl'
      obtain rfl := Option.some.inj hl'
      have hhead : [f l] = [f (l.drop 3)] := List.perm_singleton.1 ((List.perm_append_right_iff _).1 hperm)
      exact ⟨hne, (List.cons.inj hhead).1.symm⟩

end MiniCsv

end Dbms18
