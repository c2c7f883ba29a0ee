import Dbms18.LevelDb.Overlaps

/-!
# What an edit makes of a version (`VersionSet::Builder` in `db/version_set.cc`)

`SaveTo` puts the files that are added between those of the base, in the order of their smallest keys, and leaves out
those that are deleted. Below level 0 it asserts that each file ends before the next begins: this holds if the files that
there are to be do not overlap (`exists_saveTo`).
-/

namespace Dbms18.LevelDb

open List Std Dbms18.Span

variable {f g : FileMetaData} {files added base : List FileMetaData} {level : Nat}

/-! ## The order of files -/

/-- The order that `BySmallestKey` is the strict part of. -/
def FileMetaData.order : FileMetaData → FileMetaData → Ordering :=
  compareLex (fun f g => InternalKey.compare f.smallest g.smallest) (compareOn FileMetaData.number)

instance : TransCmp FileMetaData.order :=
  have : TransCmp fun f g : FileMetaData => InternalKey.compare f.smallest g.smallest :=
    { eq_swap := OrientedCmp.eq_swap, isLE_trans := TransCmp.isLE_trans }
  inferInstanceAs (TransCmp (compareLex _ _))

theorem bySmallestKey_eq_false_iff : bySmallestKey g f = false ↔ (f.order g).isLE := by
  rw [show f.order g = _ from OrientedCmp.eq_swap, bySmallestKey, FileMetaData.order, compareLex, compareOn]
  cases InternalKey.compare g.smallest f.smallest <;> simp [Nat.isGE_compare]

theorem smallest_isLE (h : bySmallestKey g f = false) : (InternalKey.compare f.smallest g.smallest).isLE := by
  rw [bySmallestKey_eq_false_iff] at h
  exact Ordering.isLE_left_of_isLE_then h

theorem bySmallestKey_trans {h : FileMetaData} (hfg : bySmallestKey g f = false) (hgh : bySmallestKey h g = false) :
    bySmallestKey h f = false := by
  rw [bySmallestKey_eq_false_iff] at *
  exact TransCmp.isLE_trans hfg hgh

theorem bySmallestKey_total (f g : FileMetaData) : (!bySmallestKey g f || !bySmallestKey f g) = true := by
  simp only [Bool.or_eq_true, Bool.not_eq_true', bySmallestKey_eq_false_iff]
  exact or_iff_not_imp_left.2 fun h => Ordering.isLE_of_eq_lt (OrientedCmp.lt_of_not_isLE h)

def BySmallest (files : List FileMetaData) : Prop := files.Pairwise fun f g => bySmallestKey g f = false

theorem bySmallest_mergeSort (files : List FileMetaData) : BySmallest (files.mergeSort fun f g => !bySmallestKey g f) := by
  have htrans : ∀ f g h : FileMetaData, (!bySmallestKey g f) = true → (!bySmallestKey h g) = true →
      (!bySmallestKey h f) = true := by
    intro f g h hfg hgh
    simp only [Bool.not_eq_true'] at hfg hgh ⊢
    exact bySmallestKey_trans hfg hgh
  exact (pairwise_mergeSort htrans bySmallestKey_total files).imp fun h => by simpa using h

theorem bySmallestKey_of_span_lt (h : compare f.span.hi g.span.lo = .lt) : bySmallestKey g f = false := by
  have hlt : InternalKey.compare f.smallest g.smallest = .lt :=
    InternalKey.compare_eq_lt_iff.2 (.inl (TransCmp.lt_of_isLE_of_lt f.nonempty_span h))
  rw [bySmallestKey_eq_false_iff, FileMetaData.order, compareLex, hlt]
  rfl

theorem Separated.bySmallest (h : Separated files) : BySmallest files := h.imp bySmallestKey_of_span_lt

theorem BySmallest.separated (h : BySmallest files) (hapart : files.Pairwise Apart) : Separated files := by
  refine (h.and hapart).imp fun {f g} hfg => ?_
  obtain ⟨horder, hapart⟩ := hfg
  rcases not_meets_iff.1 hapart with hlt | hlt
  · have hle := InternalKey.userKey_le_of_isLE (smallest_isLE horder)
    exact absurd hle (OrientedCmp.not_isLE_of_lt (TransCmp.lt_of_isLE_of_lt g.nonempty_span hlt))
  · exact hlt

/-! ## Merging -/

theorem mergeFiles_perm : (mergeFiles added base).Perm (added ++ base) := by
  induction added generalizing base with
  | nil => exact .refl _
  | cons f added ih =>
    rw [mergeFiles, cons_append]
    refine perm_middle.trans (.cons f ?_)
    refine (List.Perm.append_left _ ih).trans ?_
    rw [← append_assoc]
    refine (perm_append_comm.append_right _).trans ?_
    rw [append_assoc, takeWhile_append_dropWhile]

theorem mem_dropWhile_of_bySmallest (hbase : BySmallest base) (hg : g ∈ base.dropWhile fun g => !bySmallestKey f g) :
    bySmallestKey g f = false := by
  have hhead := head?_dropWhile_not (fun g => !bySmallestKey f g) base
  have hsorted := hbase.sublist (dropWhile_sublist fun g => !bySmallestKey f g)
  cases hrest : base.dropWhile fun g => !bySmallestKey f g with
  | nil =>
    rw [hrest] at hg
    cases hg
  | cons h rest =>
    rw [hrest] at hg hhead hsorted
    have hfh : bySmallestKey h f = false := by
      have htotal := bySmallestKey_total f h
      simp at hhead
      simpa [hhead] using htotal
    rcases mem_cons.1 hg with rfl | hg
    · exact hfh
    · exact bySmallestKey_trans hfh ((pairwise_cons.1 hsorted).1 g hg)

theorem bySmallest_mergeFiles (hadded : BySmallest added) (hbase : BySmallest base) : BySmallest (mergeFiles added base) := by
  induction added generalizing base with
  | nil => exact hbase
  | cons f added ih =>
    obtain ⟨hfirst, hadded⟩ := pairwise_cons.1 hadded
    have hdrop := hbase.sublist (dropWhile_sublist fun g => !bySmallestKey f g)
    have hbehind : ∀ g ∈ mergeFiles added (base.dropWhile fun g => !bySmallestKey f g), bySmallestKey g f = false := by
      intro g hg
      rcases mem_append.1 (mergeFiles_perm.subset hg) with hg | hg
      · exact hfirst g hg
      · exact mem_dropWhile_of_bySmallest hbase hg
    have hcut : (base.takeWhile fun g => !bySmallestKey f g) ++ (base.dropWhile fun g => !bySmallestKey f g) = base :=
      takeWhile_append_dropWhile
    have hparts := hbase
    rw [← hcut, BySmallest, pairwise_append] at hparts
    obtain ⟨htake, -, hacross⟩ := hparts
    rw [mergeFiles, BySmallest, pairwise_append, pairwise_cons]
    refine ⟨htake, ⟨hbehind, ih hadded hdrop⟩, fun g hg h hh => ?_⟩
    have hgf : bySmallestKey f g = false := by simpa using mem_takeWhile_imp hg
    rcases mem_cons.1 hh with rfl | hh
    · exact hgf
    · exact bySmallestKey_trans hgf (hbehind h hh)

/-! ## Saving -/

theorem foldlM_maybeAddFile {deleted : List Nat} (done : List FileMetaData)
    (h : level ≠ 0 → Separated (done ++ files.filter fun f => f.number ∉ deleted)) :
    files.foldlM (maybeAddFile level deleted) done = .ok (done ++ files.filter fun f => f.number ∉ deleted) := by
  induction files generalizing done with
  | nil => exact congrArg Except.ok (append_nil _).symm
  | cons f files ih =>
    rw [foldlM_cons, maybeAddFile]
    by_cases hf : f.number ∈ deleted
    · rw [filter_cons_of_neg (by simpa using hf)] at h ⊢
      rw [if_pos hf]
      exact ih done h
    · have hcons := append_cons done f (files.filter fun f => f.number ∉ deleted)
      rw [filter_cons_of_pos (by simpa using hf), hcons] at h ⊢
      rw [if_neg hf, Res.check_of, Res.ok_bind]
      · exact ih _ h
      · refine (Nat.eq_zero_or_pos level).imp_right fun hpos last hlast => ?_
        have hsep := (pairwise_append.1 (pairwise_append.1 (h (Nat.ne_of_gt hpos))).1).2.2
        exact InternalKey.compare_eq_lt_iff.2 (.inl (hsep last (mem_of_getLast? hlast) f (mem_singleton_self f)))

namespace VersionEdit

variable {edit : VersionEdit} {v : Version}

def kept (edit : VersionEdit) (v : Version) (level : Nat) : List FileMetaData :=
  (v.files level).filter fun f => f.number ∉ edit.deleted level

theorem number_not_mem_deleted (hf : f ∈ edit.added level) : f.number ∉ edit.deleted level := fun hdeleted =>
  of_decide_eq_true (mem_filter.1 hdeleted).2 (mem_map_of_mem hf)

theorem exists_saveTo (hv : level ≠ 0 → Separated (v.files level))
    (hapart : level ≠ 0 → (edit.kept v level ++ edit.added level).Pairwise Apart) :
    ∃ files, edit.saveTo v level = .ok files ∧ files.Perm (edit.kept v level ++ edit.added level) ∧
      (level ≠ 0 → Separated files) := by
  have hsort := bySmallest_mergeSort (edit.added level)
  have hsortPerm := mergeSort_perm (edit.added level) fun f g => !bySmallestKey g f
  have hperm : ((mergeFiles ((edit.added level).mergeSort fun f g => !bySmallestKey g f) (v.files level)).filter
      fun f => f.number ∉ edit.deleted level).Perm (edit.kept v level ++ edit.added level) := by
    refine (mergeFiles_perm.filter _).trans ?_
    rw [filter_append, filter_eq_self.2 fun f hf => by
      simpa using number_not_mem_deleted (hsortPerm.subset hf)]
    exact perm_append_comm.trans (hsortPerm.append_left _)
  have hsep : level ≠ 0 → Separated ((mergeFiles ((edit.added level).mergeSort fun f g => !bySmallestKey g f)
      (v.files level)).filter fun f => f.number ∉ edit.deleted level) := by
    intro hlevel
    have hmerged := bySmallest_mergeFiles hsort (hv hlevel).bySmallest
    have hfiltered : BySmallest _ := hmerged.sublist (filter_sublist (p := fun f => f.number ∉ edit.deleted level))
    exact hfiltered.separated ((hperm.pairwise_iff fun h => symm h).2 (hapart hlevel))
  exact ⟨_, foldlM_maybeAddFile [] (by simpa using hsep), by simpa using hperm, by simpa using hsep⟩

end VersionEdit

/-! ## Levels -/

/-- An entry is newer than another one of its user key. -/
def Newer (a b : Entry) : Prop := a.1.userKey = b.1.userKey → InternalKey.compare a.1 b.1 = .lt

/-- Below level 0 files do not overlap; what is in a level is newer than what is in the levels below it; and no two files
have the same number. -/
structure Leveled (files : Nat → List FileMetaData) : Prop where
  apart : ∀ level ≠ 0, (files level).Pairwise Apart
  newer : ∀ {i j f g}, i < j → f ∈ files i → g ∈ files j → ∀ a ∈ f.entries, ∀ b ∈ g.entries, Newer a b
  empty : ∀ level, kNumLevels ≤ level → files level = []
  numbers : ∀ {i j f g}, f ∈ files i → g ∈ files j → f.number = g.number → i = j ∧ f = g
  nodup : ∀ level, (files level).Nodup

structure Version.Ok (v : Version) : Prop extends Leveled v.files where
  separated : ∀ level ≠ 0, Separated (v.files level)

theorem Version.ok_new : Version.new.Ok :=
  ⟨⟨fun _ _ => .nil, fun _ hf => absurd hf not_mem_nil, fun _ _ => rfl, fun hf => absurd hf not_mem_nil,
    fun _ => .nil⟩, fun _ _ => .nil⟩

theorem Leveled.of_perm {files files' : Nat → List FileMetaData} (h : Leveled files)
    (hperm : ∀ level, (files' level).Perm (files level)) : Leveled files' where
  apart level hlevel := ((hperm level).pairwise_iff fun h => symm h).2 (h.apart level hlevel)
  newer hij hf hg := h.newer hij ((hperm _).subset hf) ((hperm _).subset hg)
  empty level hlevel := perm_nil.1 (h.empty level hlevel ▸ hperm level)
  numbers hf hg := h.numbers ((hperm _).subset hf) ((hperm _).subset hg)
  nodup level := (hperm level).nodup_iff.2 (h.nodup level)

theorem exists_apply {edit : VersionEdit} {v : Version} (hv : v.Ok)
    (h : Leveled fun level => edit.kept v level ++ edit.added level) :
    ∃ v', edit.apply v = .ok v' ∧ v'.Ok ∧ ∀ level, (v'.files level).Perm (edit.kept v level ++ edit.added level) := by
  obtain ⟨levels, hlevels, hlength, hsaved⟩ := Res.exists_mapM_getElem? (f := edit.saveTo v) (l := List.range kNumLevels)
    (Q := fun level files => files.Perm (edit.kept v level ++ edit.added level) ∧ (level ≠ 0 → Separated files)) (by
      intro i level hlevel
      obtain ⟨hi, rfl⟩ := List.getElem?_eq_some_iff.1 hlevel
      rw [getElem_range]
      obtain ⟨files, hfiles, hrest⟩ := VersionEdit.exists_saveTo (hv.separated i) (h.apart i)
      exact ⟨files, hfiles, hrest⟩)
  have hget : ∀ level, (levels[level]?.getD []).Perm (edit.kept v level ++ edit.added level) ∧
      (level ≠ 0 → Separated (levels[level]?.getD [])) := by
    intro level
    cases hl : levels[level]? with
    | some files => exact hsaved level files hl
    | none =>
      rw [List.getElem?_eq_none_iff, hlength, length_range] at hl
      rw [h.empty level hl]
      exact ⟨.refl _, fun _ => .nil⟩
  refine ⟨⟨fun level => levels[level]?.getD []⟩, ?_, ⟨h.of_perm fun level => (hget level).1, fun level => (hget level).2⟩,
    fun level => (hget level).1⟩
  rw [VersionEdit.apply, hlevels]
  rfl

end Dbms18.LevelDb
