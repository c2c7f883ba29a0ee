import Mathlib.Data.List.Pairwise
import Dbms18.LevelDb.VersionSet

/-!
# What a compaction takes

In a level whose files are in order and apart, `FindFile` and the loop of `GetOverlappingInputs` find the files that meet
a range. In level 0 the range grows until the files that meet it lie inside it. The files that `PickCompaction` takes are
such that the files of both levels that stay behind do not meet those that are taken, but for files of the upper level
that only meet some of the lower one; and there is no gap between them: whatever meets the range from the first to the
last of them meets one of them (`exists_pickCompaction`).
-/

namespace Dbms18.LevelDb

open Res List Std Dbms18.Span

namespace InternalKey

theorem userKey_le_of_isLE {a b : InternalKey} (h : (compare a b).isLE = true) :
    (Ord.compare a.userKey b.userKey).isLE = true := by
  rcases Ordering.isLE_iff_eq_lt_or_eq_eq.1 h with h | h
  · exact userKey_le_of_lt h
  · rw [LawfulEqCmp.eq_of_compare h]
    exact ReflCmp.isLE_rfl

theorem lt_of_lt_seek {a : InternalKey} (ha : a.parse ≠ none) {k : Bytes}
    (h : compare a (.ofParsed ⟨k, kMaxSequenceNumber, kValueTypeForSeek⟩) = .lt) : Ord.compare a.userKey k = .lt := by
  rcases compare_eq_lt_iff.1 h with h | ⟨-, h⟩
  · rwa [userKey_ofParsed] at h
  · obtain ⟨ikey, hp⟩ := Option.ne_none_iff_exists'.1 ha
    have htag := tag_of_parse hp
    have hlt := a.tag_lt
    have hmax : kMaxSequenceNumber = 2 ^ 56 - 1 := by decide
    have htype : ikey.type.toNat ≤ 1 := by cases ikey.type <;> decide
    rw [tag_ofParsed (Nat.le_refl _)] at h
    dsimp only [kValueTypeForSeek, ValueType.toNat] at h
    omega

end InternalKey

namespace FileMetaData

variable {f : FileMetaData} {e : Entry}

theorem smallest_le (he : e ∈ f.entries) : (InternalKey.compare f.smallest e.1).isLE = true := by
  have hcut := cons_head_tail f.nonempty
  rw [← hcut] at he
  rcases mem_cons.1 he with rfl | he
  · exact ReflCmp.isLE_rfl
  · have horder := f.inOrder
    rw [← hcut] at horder
    exact Ordering.isLE_of_eq_lt ((pairwise_cons.1 horder).1 e he)

theorem le_largest (he : e ∈ f.entries) : (InternalKey.compare e.1 f.largest).isLE = true := by
  have hcut := dropLast_concat_getLast f.nonempty
  rw [← hcut] at he
  rcases mem_append.1 he with he | he
  · have horder := f.inOrder
    rw [← hcut] at horder
    exact Ordering.isLE_of_eq_lt ((pairwise_append.1 horder).2.2 e he _ (mem_singleton_self _))
  · rw [mem_singleton.1 he]
    exact ReflCmp.isLE_rfl

theorem holds_span (he : e ∈ f.entries) : f.span.Holds compare e.1.userKey :=
  ⟨InternalKey.userKey_le_of_isLE (smallest_le he), InternalKey.userKey_le_of_isLE (le_largest he)⟩

theorem nonempty_span (f : FileMetaData) : f.span.Nonempty compare :=
  InternalKey.userKey_le_of_isLE (smallest_le (getLast_mem f.nonempty))

theorem meets_of_userKey_eq {g : FileMetaData} {e' : Entry} (he : e ∈ f.entries) (he' : e' ∈ g.entries)
    (h : e.1.userKey = e'.1.userKey) : f.span.Meets compare g.span :=
  (holds_span he).meets (h ▸ holds_span he')

end FileMetaData

def Apart (f g : FileMetaData) : Prop := ¬ f.span.Meets compare g.span

instance : Symm Apart := ⟨fun _ _ h hmeets => h hmeets.symm⟩

/-- The files are in order, and no user key is in two of them. -/
def Separated (files : List FileMetaData) : Prop :=
  files.Pairwise fun f g => compare f.span.hi g.span.lo = .lt

instance (p q : Span Bytes) : Decidable (p.Meets compare q) := inferInstanceAs (Decidable (_ ∧ _))

variable {files : List FileMetaData} {f g : FileMetaData} {level : Nat} {v : Version} {r : Span Bytes}

theorem not_meets_of_lt {p q : Span Bytes} (h : compare p.hi q.lo = .lt) : ¬ p.Meets compare q :=
  not_meets_iff.2 (.inr h)

theorem Separated.pairwise_apart (h : Separated files) : files.Pairwise Apart := h.imp not_meets_of_lt

theorem Separated.apart (h : Separated files) (hf : f ∈ files) (hg : g ∈ files) (hne : f ≠ g) : Apart f g :=
  h.pairwise_apart.forall hf hg hne

/-! ## Overlaps -/

section Overlaps

variable {key : InternalKey}

theorem findFileFrom_spec (hmono : ∀ {i j : Nat} {f g : FileMetaData}, i ≤ j → files[i]? = some f → files[j]? = some g →
      InternalKey.compare g.largest key = .lt → InternalKey.compare f.largest key = .lt)
    {left right : Nat} (hle : left ≤ right) (hright : right ≤ files.length)
    (hL : ∀ j f, j < left → files[j]? = some f → InternalKey.compare f.largest key = .lt)
    (hR : ∀ j f, right ≤ j → files[j]? = some f → InternalKey.compare f.largest key ≠ .lt) :
    (∀ j f, j < findFileFrom files key left right → files[j]? = some f → InternalKey.compare f.largest key = .lt) ∧
      ∀ j f, findFileFrom files key left right ≤ j → files[j]? = some f → InternalKey.compare f.largest key ≠ .lt := by
  fun_induction findFileFrom files key left right with
  | case1 left right hlt mid hmid ih =>
    obtain ⟨g, hg, hlt'⟩ := (Option.any_eq_true _ _).1 hmid
    refine ih (by omega) hright (fun j f hj hf => ?_) hR
    exact hmono (Nat.le_of_lt_succ hj) hf hg (of_decide_eq_true hlt')
  | case2 left right hlt mid hmid ih =>
    have hlen : mid < files.length := by omega
    have hget : files[mid]? = some files[mid] := getElem?_eq_getElem hlen
    refine ih (by omega) (by omega) hL fun j f hj hf hlt' => hmid ?_
    rw [hget, Option.any_some]
    exact decide_eq_true (hmono hj hget hf hlt')
  | case3 left right hlt =>
    obtain rfl : left = right := by omega
    exact ⟨hL, hR⟩

theorem Separated.largest_mono (h : Separated files) {i j : Nat} (hij : i ≤ j) (hf : files[i]? = some f)
    (hg : files[j]? = some g) (hlt : InternalKey.compare g.largest key = .lt) :
    InternalKey.compare f.largest key = .lt := by
  rcases Nat.lt_or_eq_of_le hij with hij | rfl
  · obtain ⟨hi, rfl⟩ := List.getElem?_eq_some_iff.1 hf
    obtain ⟨hj, rfl⟩ := List.getElem?_eq_some_iff.1 hg
    have hbefore := pairwise_iff_getElem.1 h i j hi hj hij
    refine TransCmp.lt_trans (InternalKey.compare_eq_lt_iff.2 (.inl ?_)) hlt
    exact TransCmp.lt_of_lt_of_isLE hbefore (FileMetaData.nonempty_span _)
  · obtain rfl := Option.some.inj (hf.symm.trans hg)
    exact hlt

theorem not_meets_of_someFileOverlapsRange (hsep : Separated files) (hparse : ∀ f ∈ files, f.largest.parse ≠ none)
    (h : someFileOverlapsRange true files (some r.lo) (some r.hi) = false) (hf : f ∈ files) :
    ¬ f.span.Meets compare r := by
  obtain ⟨j, hj⟩ := mem_iff_getElem?.1 hf
  let key := InternalKey.ofParsed ⟨r.lo, kMaxSequenceNumber, kValueTypeForSeek⟩
  have hspec := @findFileFrom_spec files key (fun {_ _ _ _} => hsep.largest_mono) _ _ (Nat.zero_le _) (Nat.le_refl _)
    (fun j f hj _ => absurd hj (Nat.not_lt_zero _)) fun j f hj hf => by
      rw [getElem?_eq_none hj] at hf
      cases hf
  change (files[findFile files key]?.any fun f => !beforeFile (some r.hi) f) = false at h
  by_cases hlt : j < findFile files key
  · -- the file ends before the range
    have hbefore := InternalKey.lt_of_lt_seek (hparse f hf) (hspec.1 j f hlt hj)
    exact not_meets_of_lt hbefore
  · -- the range ends before the first file that does not
    have hlen : findFile files key < files.length :=
      (Nat.le_of_not_lt hlt).trans_lt (List.getElem?_eq_some_iff.1 hj).1
    obtain ⟨g, hg⟩ : ∃ g, files[findFile files key]? = some g := ⟨_, getElem?_eq_getElem hlen⟩
    rw [hg, Option.any_some, Bool.not_eq_false', beforeFile, Option.any_some, decide_eq_true_eq] at h
    refine fun hmeets => not_meets_of_lt ?_ hmeets.symm
    rcases Nat.lt_or_eq_of_le (Nat.le_of_not_lt hlt) with hlt | heq
    · obtain ⟨hj', rfl⟩ := List.getElem?_eq_some_iff.1 hj
      obtain ⟨_, rfl⟩ := List.getElem?_eq_some_iff.1 hg
      have hbetween := pairwise_iff_getElem.1 hsep _ j hlen hj' hlt
      exact TransCmp.lt_trans (TransCmp.lt_of_lt_of_isLE h (FileMetaData.nonempty_span _)) hbetween
    · rw [heq, hj] at hg
      rwa [← Option.some.inj hg] at h

theorem not_meets_of_overlapInLevel (hsep : level ≠ 0 → Separated (v.files level))
    (hparse : ∀ f ∈ v.files level, f.largest.parse ≠ none)
    (h : v.overlapInLevel level (some r.lo) (some r.hi) = false) (hf : f ∈ v.files level) :
    ¬ f.span.Meets compare r := by
  rw [Version.overlapInLevel] at h
  by_cases hlevel : level = 0
  · rw [hlevel] at h hf
    have hnot := any_eq_false.1 h f hf
    rw [Bool.not_eq_true, Bool.not_eq_false', Bool.or_eq_true] at hnot
    rcases hnot with hafter | hbefore
    · rw [afterFile, Option.any_some, decide_eq_true_eq] at hafter
      exact not_meets_of_lt (OrientedCmp.gt_iff_lt.1 hafter)
    · rw [beforeFile, Option.any_some, decide_eq_true_eq] at hbefore
      exact fun hmeets => not_meets_of_lt hbefore hmeets.symm
  · rw [decide_eq_true (Nat.pos_of_ne_zero hlevel)] at h
    exact not_meets_of_someFileOverlapsRange (hsep hlevel) hparse h hf

end Overlaps

/-- What `GetOverlappingInputs` returns for the range `r`: the files that meet `r'`. In level 0 this is a longer range, as
far as files reach from `r`, and the files lie inside it. -/
structure Overlapping (level : Nat) (files : List FileMetaData) (r r' : Span Bytes) (inputs : List FileMetaData) : Prop where
  within : r.Within compare r'
  inputs_eq : inputs = files.filter fun f => f.span.Meets compare r'
  covers : Covers compare (r :: inputs.map FileMetaData.span) r'
  closed : level = 0 → ∀ f ∈ inputs, f.span.Within compare r'
  same : level ≠ 0 → r' = r

theorem meets_iff_not {b e : Bytes} :
    f.span.Meets compare ⟨b, e⟩ ↔ ¬ compare f.largest.userKey b = .lt ∧ ¬ compare f.smallest.userKey e = .gt := by
  rw [and_comm, ← not_iff_not, not_meets_iff, not_and_or, not_not, not_not, OrientedCmp.gt_iff_lt]
  rfl

theorem covers_restart {p q : Span Bytes} (hcovers : Covers compare
      (r :: (files.filter fun f => f.span.Meets compare p).map FileMetaData.span) p) (hpq : p.Within compare q)
    (hf : f ∈ files) (hmeets : f.span.Meets compare p) (hlo : (compare p.lo q.lo).isLE = true ∨ f.span.lo = q.lo)
    (hhi : (compare q.hi p.hi).isLE = true ∨ f.span.hi = q.hi) :
    Covers compare (r :: (files.filter fun f => f.span.Meets compare q).map FileMetaData.span) q := by
  have hmem : f.span ∈ r :: (files.filter fun f => f.span.Meets compare q).map FileMetaData.span :=
    mem_cons_of_mem _ (mem_map_of_mem (mem_filter.2 ⟨hf, decide_eq_true (hmeets.of_within hpq)⟩))
  refine (hcovers.mono fun x hx => ?_).extend ?_ ?_
  · rcases mem_cons.1 hx with rfl | hx
    · exact mem_cons_self
    · obtain ⟨g, hg, rfl⟩ := mem_map.1 hx
      obtain ⟨hg, hgp⟩ := mem_filter.1 hg
      exact mem_cons_of_mem _ (mem_map_of_mem (mem_filter.2
        ⟨hg, decide_eq_true ((of_decide_eq_true hgp).of_within hpq)⟩))
  · refine hlo.imp_right fun heq => ⟨f.span, hmem, hmeets, ?_⟩
    rw [heq]
    exact ReflCmp.isLE_rfl
  · refine hhi.imp_right fun heq => ⟨f.span, hmem, hmeets, ?_⟩
    rw [heq]
    exact ReflCmp.isLE_rfl

theorem filter_take_succ {i : Nat} {p : FileMetaData → Bool} (hf : files[i]? = some f) :
    (files.take (i + 1)).filter p = (files.take i).filter p ++ if p f then [f] else [] := by
  rw [take_add_one, hf, Option.toList_some, filter_append, filter_singleton]
  cases p f <;> rfl

variable {inputs : List FileMetaData}

theorem overlapping_overlappingFrom {i : Nat} {b e : Bytes} (hr : r.Within compare ⟨b, e⟩)
    (hcovers : Covers compare (r :: (files.filter fun f => f.span.Meets compare ⟨b, e⟩).map FileMetaData.span) ⟨b, e⟩)
    (hinputs : inputs = (files.take i).filter fun f => f.span.Meets compare ⟨b, e⟩)
    (hclosed : level = 0 → ∀ f ∈ inputs, f.span.Within compare ⟨b, e⟩) (hsame : level ≠ 0 → ⟨b, e⟩ = r) :
    ∃ r', Overlapping level files r r' (overlappingFrom level files i (some b) (some e) inputs) := by
  generalize hub : some b = ub
  generalize hue : some e = ue
  fun_induction overlappingFrom level files i ub ue inputs generalizing b e with
  | case1 i ub ue inputs hnone =>
    have hlen : files.length ≤ i := by
      rw [← List.getElem?_eq_none_iff]
      exact hnone
    rw [take_of_length_le hlen] at hinputs
    exact ⟨⟨b, e⟩, hr, hinputs, hinputs ▸ hcovers, hclosed, hsame⟩
  | case2 i ub ue inputs f hf hbefore ih =>
    subst hub hue
    rw [Option.any_some, decide_eq_true_eq] at hbefore
    refine ih hr hcovers ?_ hclosed hsame rfl rfl
    rw [filter_take_succ hf, if_neg, append_nil, hinputs]
    rw [decide_eq_true_eq, meets_iff_not]
    exact fun h => h.1 hbefore
  | case3 i ub ue inputs f hf hbefore hafter ih =>
    subst hub hue
    rw [Option.any_some, decide_eq_true_eq] at hafter
    refine ih hr hcovers ?_ hclosed hsame rfl rfl
    rw [filter_take_succ hf, if_neg, append_nil, hinputs]
    rw [decide_eq_true_eq, meets_iff_not]
    exact fun h => h.2 hafter
  | case4 i ub ue inputs f hf hbefore hafter hbegin ih =>
    subst hub hue
    rw [Option.any_some, decide_eq_true_eq] at hbefore hafter hbegin
    have hlonger : Within compare ⟨b, e⟩ ⟨f.smallest.userKey, e⟩ := ⟨Ordering.isLE_of_eq_lt hbegin.2, ReflCmp.isLE_rfl⟩
    refine ih (hr.trans hlonger) ?_ rfl (fun _ _ hf => absurd hf not_mem_nil) (absurd hbegin.1) rfl rfl
    exact covers_restart hcovers hlonger (mem_of_getElem? hf) (meets_iff_not.2 ⟨hbefore, hafter⟩) (.inr rfl)
      (.inl ReflCmp.isLE_rfl)
  | case5 i ub ue inputs f hf hbefore hafter hbegin hend ih =>
    subst hub hue
    rw [Option.any_some, decide_eq_true_eq] at hbefore hafter hend
    have hlonger : Within compare ⟨b, e⟩ ⟨b, f.largest.userKey⟩ :=
      ⟨ReflCmp.isLE_rfl, Ordering.isLE_of_eq_lt (OrientedCmp.gt_iff_lt.1 hend.2)⟩
    refine ih (hr.trans hlonger) ?_ rfl (fun _ _ hf => absurd hf not_mem_nil) (absurd hend.1) rfl rfl
    exact covers_restart hcovers hlonger (mem_of_getElem? hf) (meets_iff_not.2 ⟨hbefore, hafter⟩)
      (.inl ReflCmp.isLE_rfl) (.inr rfl)
  | case6 i ub ue inputs f hf hbefore hafter hbegin hend ih =>
    subst hub hue
    rw [Option.any_some, decide_eq_true_eq] at hbefore hafter hbegin hend
    refine ih hr hcovers ?_ (fun hlevel g hg => ?_) hsame rfl rfl
    · rw [filter_take_succ hf, if_pos, hinputs]
      exact decide_eq_true (meets_iff_not.2 ⟨hbefore, hafter⟩)
    · rcases mem_append.1 hg with hg | hg
      · exact hclosed hlevel g hg
      · obtain rfl := mem_singleton.1 hg
        exact ⟨by_contra fun h => hbegin ⟨hlevel, OrientedCmp.lt_of_not_isLE h⟩,
          by_contra fun h => hend ⟨hlevel, OrientedCmp.gt_iff_lt.2 (OrientedCmp.lt_of_not_isLE h)⟩⟩

theorem overlapping_getOverlappingInputs (v : Version) (level : Nat) (begin end' : InternalKey) :
    ∃ r', Overlapping level (v.files level) ⟨begin.userKey, end'.userKey⟩ r'
      (v.getOverlappingInputs level (some begin) (some end')) :=
  overlapping_overlappingFrom (within_refl _) (covers_of_mem mem_cons_self) rfl
    (fun _ _ hf => absurd hf not_mem_nil) fun _ => rfl

theorem Overlapping.mem_of_meets {r' : Span Bytes}
    (h : Overlapping level files r r' inputs) (hf : f ∈ files) (hmeets : f.span.Meets compare r) : f ∈ inputs := by
  rw [h.inputs_eq]
  exact mem_filter.2 ⟨hf, decide_eq_true (hmeets.of_within h.within)⟩

theorem Overlapping.meets {r' : Span Bytes} (h : Overlapping level files r r' inputs)
    (hf : f ∈ inputs) : f.span.Meets compare r' := by
  rw [h.inputs_eq] at hf
  exact of_decide_eq_true (mem_filter.1 hf).2

theorem Overlapping.sublist {r' : Span Bytes} (h : Overlapping level files r r' inputs) :
    inputs.Sublist files := by
  rw [h.inputs_eq]
  exact filter_sublist

/-! ## Ranges -/

/-- `r` reaches from the first of the files to the last. -/
structure Hull (files : List FileMetaData) (r : Span Bytes) : Prop where
  within : ∀ f ∈ files, f.span.Within compare r
  lo : ∃ f ∈ files, f.span.lo = r.lo
  hi : ∃ f ∈ files, f.span.hi = r.hi

theorem hull_singleton (f : FileMetaData) : Hull [f] f.span := by
  refine ⟨fun g hg => ?_, ⟨f, mem_singleton_self f, rfl⟩, ⟨f, mem_singleton_self f, rfl⟩⟩
  rw [mem_singleton.1 hg]
  exact within_refl _

theorem Hull.extend {s l : InternalKey} (h : Hull files ⟨s.userKey, l.userKey⟩) (f : FileMetaData) :
    Hull (files ++ [f]) ⟨(if InternalKey.compare f.smallest s = .lt then f.smallest else s).userKey,
      (if InternalKey.compare f.largest l = .gt then f.largest else l).userKey⟩ := by
  have hlast : f ∈ files ++ [f] := mem_append_right _ (mem_singleton_self f)
  have hlonger : Within compare ⟨s.userKey, l.userKey⟩
      ⟨(if InternalKey.compare f.smallest s = .lt then f.smallest else s).userKey,
      (if InternalKey.compare f.largest l = .gt then f.largest else l).userKey⟩ := by
    constructor <;> dsimp only <;> split
    · exact InternalKey.userKey_le_of_lt ‹_›
    · exact ReflCmp.isLE_rfl
    · exact InternalKey.userKey_le_of_lt (OrientedCmp.gt_iff_lt.1 ‹_›)
    · exact ReflCmp.isLE_rfl
  refine ⟨fun g hg => ?_, ?_, ?_⟩
  · rcases mem_append.1 hg with hg | hg
    · exact (h.within g hg).trans hlonger
    · rw [mem_singleton.1 hg]
      constructor <;> dsimp only <;> split
      · exact ReflCmp.isLE_rfl
      · exact InternalKey.userKey_le_of_isLE (by_contra fun hle => absurd (OrientedCmp.lt_of_not_isLE hle) ‹_›)
      · exact ReflCmp.isLE_rfl
      · exact InternalKey.userKey_le_of_isLE
          (by_contra fun hle => absurd (OrientedCmp.gt_iff_lt.2 (OrientedCmp.lt_of_not_isLE hle)) ‹_›)
  · dsimp only
    split
    · exact ⟨f, hlast, rfl⟩
    · obtain ⟨g, hg, hlo⟩ := h.lo
      exact ⟨g, mem_append_left _ hg, hlo⟩
  · dsimp only
    split
    · exact ⟨f, hlast, rfl⟩
    · obtain ⟨g, hg, hhi⟩ := h.hi
      exact ⟨g, mem_append_left _ hg, hhi⟩

theorem hull_getRange (h : files ≠ []) :
    ∃ s l, getRange files = .ok (s, l) ∧ Hull files ⟨s.userKey, l.userKey⟩ := by
  obtain ⟨f, rest, rfl⟩ := exists_cons_of_ne_nil h
  have hfold : ∀ (done rest : List FileMetaData) (s l : InternalKey), Hull done ⟨s.userKey, l.userKey⟩ →
      ∃ s' l', rest.foldl (fun r f => (if InternalKey.compare f.smallest r.1 = .lt then f.smallest else r.1,
        if InternalKey.compare f.largest r.2 = .gt then f.largest else r.2)) (s, l) = (s', l') ∧
        Hull (done ++ rest) ⟨s'.userKey, l'.userKey⟩ := by
    intro done rest
    induction rest generalizing done with
    | nil => exact fun s l hdone => ⟨s, l, rfl, by rwa [append_nil]⟩
    | cons g rest ih =>
      intro s l hdone
      obtain ⟨s', l', heq, hhull⟩ := ih _ _ _ (hdone.extend g)
      exact ⟨s', l', heq, by rwa [append_assoc] at hhull⟩
  obtain ⟨s, l, heq, hhull⟩ := hfold [f] rest f.smallest f.largest (hull_singleton f)
  exact ⟨s, l, congrArg Except.ok heq, hhull⟩

section Hulls

variable {inputs : List FileMetaData} {r' : Span Bytes} {ps : List (Span Bytes)}

theorem Hull.ne_nil (h : Hull files r) : files ≠ [] := by
  obtain ⟨f, hf, -⟩ := h.lo
  exact ne_nil_of_mem hf

theorem Hull.meets (h : Hull files r) (hf : f ∈ files) : f.span.Meets compare r :=
  (FileMetaData.nonempty_span f).meets_self.of_within (h.within f hf)

theorem Hull.within_of_forall (h : Hull files r) (hfiles : ∀ f ∈ files, f.span.Within compare r') : r.Within compare r' := by
  obtain ⟨f, hf, hlo⟩ := h.lo
  obtain ⟨g, hg, hhi⟩ := h.hi
  exact ⟨hlo ▸ (hfiles f hf).1, hhi ▸ (hfiles g hg).2⟩

theorem Hull.covers (h : Hull files r) (hcovers : Covers compare ps r') (hps : ∀ f ∈ files, f.span ∈ ps)
    (hmeets : ∀ f ∈ files, f.span.Meets compare r') : Covers compare ps r := by
  obtain ⟨f, hf, hlo⟩ := h.lo
  obtain ⟨g, hg, hhi⟩ := h.hi
  refine hcovers.extend (.inr ⟨f.span, hps f hf, hmeets f hf, ?_⟩) (.inr ⟨g.span, hps g hg, hmeets g hg, ?_⟩)
  · rw [hlo]
    exact ReflCmp.isLE_rfl
  · rw [hhi]
    exact ReflCmp.isLE_rfl

end Hulls

/-! ## The inputs of a compaction -/

/-- The files that a compaction takes from a level and the next one. `r` is the range of the files of the level, and `all`
that of all the files. -/
structure Taken (v : Version) (level : Nat) (inputs0 inputs1 : List FileMetaData) (r all : Span Bytes) : Prop where
  sublist : inputs0.Sublist (v.files level)
  hull : Hull inputs0 r
  closed : level = 0 → ∀ f ∈ v.files level, f.span.Meets compare r → f ∈ inputs0
  inputs1_eq : inputs1 = (v.files (level + 1)).filter fun f => f.span.Meets compare r
  hull_all : Hull (inputs0 ++ inputs1) all
  covers : Covers compare ((inputs0 ++ inputs1).map FileMetaData.span) all

section Taken

variable {inputs0 inputs1 : List FileMetaData} {all : Span Bytes}

theorem taken_of_covers (hsub : inputs0.Sublist (v.files level)) (hhull : Hull inputs0 r)
    (hclosed : level = 0 → ∀ f ∈ v.files level, f.span.Meets compare r → f ∈ inputs0)
    (hinputs1 : inputs1 = (v.files (level + 1)).filter fun f => f.span.Meets compare r)
    (hall : Hull (inputs0 ++ inputs1) all) (hcovers : Covers compare ((inputs0 ++ inputs1).map FileMetaData.span) r) :
    Taken v level inputs0 inputs1 r all := by
  refine ⟨hsub, hhull, hclosed, hinputs1, hall, hall.covers hcovers (fun f => mem_map_of_mem) fun f hf => ?_⟩
  rcases mem_append.1 hf with hf | hf
  · exact hhull.meets hf
  · rw [hinputs1] at hf
    exact of_decide_eq_true (mem_filter.1 hf).2

theorem getOverlappingInputs_succ (v : Version) (level : Nat) (s l : InternalKey) :
    v.getOverlappingInputs (level + 1) (some s) (some l) =
      (v.files (level + 1)).filter fun f => f.span.Meets compare ⟨s.userKey, l.userKey⟩ := by
  obtain ⟨r', h⟩ := overlapping_getOverlappingInputs v (level + 1) s l
  rw [h.inputs_eq, h.same (Nat.succ_ne_zero level)]

theorem Taken.expanded (h : Taken v level inputs0 inputs1 r all) {expanded0 expanded1 : List FileMetaData}
    {r₀ r' all' : Span Bytes} (h₀ : Overlapping level (v.files level) all r₀ expanded0) (hr' : Hull expanded0 r')
    (hexpanded1 : expanded1 = (v.files (level + 1)).filter fun f => f.span.Meets compare r')
    (hall' : Hull (expanded0 ++ expanded1) all') : Taken v level expanded0 expanded1 r' all' := by
  have hsub0 : ∀ f ∈ inputs0, f ∈ expanded0 := fun f hf =>
    h₀.mem_of_meets (h.sublist.subset hf) (h.hull_all.meets (mem_append_left _ hf))
  have hsub1 : ∀ f ∈ inputs1, f ∈ expanded1 := by
    intro f hf
    rw [h.inputs1_eq] at hf
    obtain ⟨hf, hmeets⟩ := mem_filter.1 hf
    rw [hexpanded1]
    have hlonger := h.hull.within_of_forall fun f hf => hr'.within f (hsub0 f hf)
    exact mem_filter.2 ⟨hf, decide_eq_true ((of_decide_eq_true hmeets).of_within hlonger)⟩
  -- what covered the range before is among the files that are taken now
  have hcovers : Covers compare ((expanded0 ++ expanded1).map FileMetaData.span) r₀ := by
    refine h₀.covers.trans fun q hq => ?_
    rcases mem_cons.1 hq with rfl | hq
    · refine h.covers.mono fun q hq => ?_
      obtain ⟨f, hf, rfl⟩ := mem_map.1 hq
      refine mem_map_of_mem ?_
      rcases mem_append.1 hf with hf | hf
      · exact mem_append_left _ (hsub0 f hf)
      · exact mem_append_right _ (hsub1 f hf)
    · obtain ⟨f, hf, rfl⟩ := mem_map.1 hq
      exact covers_of_mem (mem_map_of_mem (mem_append_left _ hf))
  refine taken_of_covers h₀.sublist hr' (fun hlevel f hf hmeets => ?_) hexpanded1 hall' ?_
  · refine by_contra fun hnot => hnot ?_
    rw [h₀.inputs_eq]
    exact mem_filter.2 ⟨hf, decide_eq_true (hmeets.of_within (hr'.within_of_forall (h₀.closed hlevel)))⟩
  · exact hr'.covers hcovers (fun f hf => mem_map_of_mem (mem_append_left _ hf)) fun f => h₀.meets

theorem Taken.expandInputs (sizes : Sizes) (h : Taken v level inputs0 inputs1 r all) :
    ∃ inputs0' inputs1' r' all', v.expandInputs sizes level inputs0 inputs1 = .ok (inputs0', inputs1') ∧
      Taken v level inputs0' inputs1' r' all' := by
  obtain ⟨s, l, hrange, hhull⟩ := hull_getRange h.hull_all.ne_nil
  have h' : Taken v level inputs0 inputs1 r ⟨s.userKey, l.userKey⟩ :=
    ⟨h.sublist, h.hull, h.closed, h.inputs1_eq, hhull,
      hhull.covers h.covers (fun f => mem_map_of_mem) fun f hf => h.hull_all.meets hf⟩
  have hsame : ∃ inputs0' inputs1' r' all', (.ok (inputs0, inputs1) : Res _) = .ok (inputs0', inputs1') ∧
      Taken v level inputs0' inputs1' r' all' := ⟨_, _, _, _, rfl, h⟩
  rw [Version.expandInputs, getRange2, hrange, ok_bind]
  dsimp only
  split
  · exact hsame
  split
  · obtain ⟨r₀, h₀⟩ := overlapping_getOverlappingInputs v level s l
    have hne : v.getOverlappingInputs level (some s) (some l) ≠ [] := by
      obtain ⟨f, hf, -⟩ := h.hull.lo
      exact ne_nil_of_mem (h₀.mem_of_meets (h.sublist.subset hf) (hhull.meets (mem_append_left _ hf)))
    obtain ⟨s', l', hrange', hhull'⟩ := hull_getRange hne
    rw [hrange', ok_bind]
    dsimp only
    split
    · have hne' : v.getOverlappingInputs level (some s) (some l) ++
          v.getOverlappingInputs (level + 1) (some s') (some l') ≠ [] := fun hnil => hne (append_eq_nil_iff.1 hnil).1
      obtain ⟨s'', l'', -, hall⟩ := hull_getRange hne'
      exact ⟨_, _, _, _, rfl, h'.expanded h₀ hhull' (getOverlappingInputs_succ v level s' l') hall⟩
    · exact hsame
  · exact hsame

theorem exists_setupOtherInputs (sizes : Sizes) (hsub : inputs0.Sublist (v.files level)) (hhull : Hull inputs0 r)
    (hclosed : level = 0 → ∀ f ∈ v.files level, f.span.Meets compare r → f ∈ inputs0)
    (hcovers : Covers compare (inputs0.map FileMetaData.span) r) :
    ∃ c r' all, v.setupOtherInputs sizes level inputs0 = .ok c ∧ c.level = level ∧ c.inputVersion = v ∧
      Taken v level c.inputs0 c.inputs1 r' all := by
  obtain ⟨s, l, hrange, hhull'⟩ := hull_getRange hhull.ne_nil
  have hwithin := hhull'.within_of_forall hhull.within
  have hne : inputs0 ++ v.getOverlappingInputs (level + 1) (some s) (some l) ≠ [] :=
    fun hnil => hhull.ne_nil (append_eq_nil_iff.1 hnil).1
  obtain ⟨s', l', -, hall⟩ := hull_getRange hne
  have htaken : Taken v level inputs0 (v.getOverlappingInputs (level + 1) (some s) (some l)) ⟨s.userKey, l.userKey⟩
      ⟨s'.userKey, l'.userKey⟩ := by
    refine taken_of_covers hsub hhull' (fun hlevel f hf hmeets => hclosed hlevel f hf (hmeets.of_within hwithin))
      (getOverlappingInputs_succ v level s l) hall ((hcovers.of_within hwithin).mono fun q hq => ?_)
    obtain ⟨f, hf, rfl⟩ := mem_map.1 hq
    exact mem_map_of_mem (mem_append_left _ hf)
  obtain ⟨inputs0', inputs1', r', all', hexpand, htaken'⟩ := htaken.expandInputs sizes
  obtain ⟨s'', l'', hrange'', -⟩ := hull_getRange htaken'.hull_all.ne_nil
  rw [Version.setupOtherInputs, hrange, ok_bind]
  dsimp only
  rw [hexpand, ok_bind]
  dsimp only
  rw [getRange2, hrange'', ok_bind]
  exact ⟨_, r', all', rfl, rfl, rfl, htaken'⟩

/-- `PickCompaction`, whichever file of the level it begins with. -/
theorem exists_pickCompaction (sizes : Sizes) (hlevel : level + 1 < kNumLevels) (hf : f ∈ v.files level) :
    ∃ c r' all, v.pickCompaction sizes level f = .ok c ∧ c.level = level ∧ c.inputVersion = v ∧
      Taken v level c.inputs0 c.inputs1 r' all := by
  rw [Version.pickCompaction, check_of hlevel, ok_bind]
  split
  · next hzero =>
    subst hzero
    obtain ⟨s, l, hrange, hhull⟩ := hull_getRange (cons_ne_nil f [])
    obtain ⟨r₀, h₀⟩ := overlapping_getOverlappingInputs v 0 s l
    have hmem := h₀.mem_of_meets hf (hhull.meets (mem_singleton_self f))
    obtain ⟨s', l', -, hhull'⟩ := hull_getRange (ne_nil_of_mem hmem)
    rw [hrange, ok_bind]
    dsimp only
    rw [check_of (ne_nil_of_mem hmem), ok_bind]
    have hcovers : Covers compare ((v.getOverlappingInputs 0 (some s) (some l)).map FileMetaData.span) r₀ := by
      refine h₀.covers.trans fun q hq => ?_
      rcases mem_cons.1 hq with rfl | hq
      · -- the range of the first file
        exact (covers_of_mem (mem_map_of_mem hmem)).of_within
          (hhull.within_of_forall fun g hg => mem_singleton.1 hg ▸ within_refl _)
      · exact covers_of_mem hq
    refine exists_setupOtherInputs sizes h₀.sublist hhull' (fun _ g hg hmeets => ?_)
      (hhull'.covers hcovers (fun f => mem_map_of_mem) fun f => h₀.meets)
    rw [h₀.inputs_eq]
    exact mem_filter.2 ⟨hg, decide_eq_true (hmeets.of_within (hhull'.within_of_forall (h₀.closed rfl)))⟩
  · next hlevel' =>
    exact exists_setupOtherInputs sizes (singleton_sublist.2 hf) (hull_singleton f)
      (fun hzero => absurd hzero hlevel') (covers_of_mem (mem_singleton_self _))

end Taken

end Dbms18.LevelDb
