import Dbms18.LevelDb.Edits

/-!
# What becomes of the levels

A table that is made of a memtable is newer than all files, and goes to a level down to which nothing overlaps it. A
compaction puts its outputs into the next level instead of the files it took. Both keep the levels as they should be
(`Leveled`): the newer entries of a user key are in the upper levels.
-/

namespace Dbms18.LevelDb

open List Std Dbms18.Span

variable {v : Version} {f g : FileMetaData} {level : Nat}

/-! ## Files that are put into one level -/

section Put

variable {edit : VersionEdit} {p : Nat} {outs : List FileMetaData}
  (hadded : ∀ level, edit.added level = if level = p then outs else [])

include hadded

theorem VersionEdit.mem_added (h : g ∈ edit.added level) : level = p ∧ g ∈ outs := by
  rw [hadded] at h
  split at h
  · exact ⟨‹_›, h⟩
  · cases h

theorem Version.Ok.leveled_put (hv : v.Ok) (hp : p < kNumLevels) (houts : outs.Pairwise Apart)
    (hdistinct : outs.Pairwise fun o o' => o.number ≠ o'.number)
    (hnumber : ∀ i, ∀ g ∈ edit.kept v i, ∀ o ∈ outs, g.number ≠ o.number)
    (hapart : p ≠ 0 → ∀ g ∈ edit.kept v p, ∀ o ∈ outs, Apart g o)
    (habove : ∀ i < p, ∀ g ∈ edit.kept v i, ∀ o ∈ outs, ∀ a ∈ g.entries, ∀ b ∈ o.entries, Newer a b)
    (hbelow : ∀ i, p < i → ∀ g ∈ edit.kept v i, ∀ o ∈ outs, ∀ a ∈ o.entries, ∀ b ∈ g.entries, Newer a b) :
    Leveled fun level => edit.kept v level ++ edit.added level := by
  have hkept : ∀ {level f}, f ∈ edit.kept v level → f ∈ v.files level := fun hf => (mem_filter.1 hf).1
  constructor
  · intro level hlevel
    refine pairwise_append.2 ⟨(hv.apart level hlevel).sublist filter_sublist, ?_, fun g hg o ho => ?_⟩
    · rw [hadded]
      split
      · exact houts
      · exact .nil
    · obtain ⟨rfl, ho⟩ := VersionEdit.mem_added hadded ho
      exact hapart hlevel g hg o ho
  · intro i j g g' hij hg hg'
    rcases mem_append.1 hg with hg | hg <;> rcases mem_append.1 hg' with hg' | hg'
    · exact hv.newer hij (hkept hg) (hkept hg')
    · obtain ⟨rfl, ho⟩ := VersionEdit.mem_added hadded hg'
      exact habove i hij g hg g' ho
    · obtain ⟨rfl, ho⟩ := VersionEdit.mem_added hadded hg
      exact hbelow j hij g' hg' g ho
    · have hi := (VersionEdit.mem_added hadded hg).1
      exact absurd hij (hi ▸ (VersionEdit.mem_added hadded hg').1 ▸ Nat.lt_irrefl _)
  · intro level hlevel
    rw [VersionEdit.kept, hv.empty level hlevel, hadded, if_neg (Nat.ne_of_gt (hp.trans_le hlevel))]
    rfl
  · intro i j g g' hg hg' heq
    rcases mem_append.1 hg with hg | hg <;> rcases mem_append.1 hg' with hg' | hg'
    · exact hv.numbers (hkept hg) (hkept hg') heq
    · exact absurd heq (hnumber i g hg g' (VersionEdit.mem_added hadded hg').2)
    · exact absurd heq.symm (hnumber j g' hg' g (VersionEdit.mem_added hadded hg).2)
    · obtain ⟨rfl, ho⟩ := VersionEdit.mem_added hadded hg
      obtain ⟨rfl, ho'⟩ := VersionEdit.mem_added hadded hg'
      have : Symm fun o o' : FileMetaData => o.number ≠ o'.number := ⟨fun _ _ h => h.symm⟩
      exact ⟨rfl, by_contra fun hne => hdistinct.forall ho ho' hne heq⟩
  · intro level
    refine nodup_append.2 ⟨(hv.nodup level).sublist filter_sublist, ?_, fun g hg o ho heq => ?_⟩
    · rw [hadded]
      split
      · exact hdistinct.imp fun hne heq => hne (congrArg _ heq)
      · exact .nil
    · exact hnumber level g hg o (VersionEdit.mem_added hadded ho).2 (congrArg _ heq)

end Put

/-! ## Tables of memtables -/

theorem pushDown_spec (sizes : Sizes) {r : Span Bytes} {left level : Nat} :
    v.pushDown sizes r.lo r.hi left level ≤ level + left ∧ ∀ i, level < i → i ≤ v.pushDown sizes r.lo r.hi left level →
      v.overlapInLevel i (some r.lo) (some r.hi) = false := by
  induction left generalizing level with
  | zero => exact ⟨Nat.le_refl _, fun i hlt hle => absurd hlt (Nat.not_lt.2 hle)⟩
  | succ left ih =>
    rw [Version.pushDown]
    split
    · exact ⟨Nat.le_add_right .., fun i hlt hle => absurd hlt (Nat.not_lt.2 hle)⟩
    · next hoverlap =>
      split
      · exact ⟨Nat.le_add_right .., fun i hlt hle => absurd hlt (Nat.not_lt.2 hle)⟩
      · obtain ⟨hle, hno⟩ := @ih (level + 1)
        refine ⟨by omega, fun i hlt hi => ?_⟩
        rcases Nat.lt_or_eq_of_le hlt with hlt | rfl
        · exact hno i hlt hi
        · exact Bool.not_eq_true _ ▸ hoverlap

theorem pickLevel_spec (sizes : Sizes) (hv : v.Ok) (hparse : ∀ i, ∀ g ∈ v.files i, g.largest.parse ≠ none)
    (f : FileMetaData) : v.pickLevelForMemTableOutput sizes f.span.lo f.span.hi < kNumLevels ∧
      (v.pickLevelForMemTableOutput sizes f.span.lo f.span.hi ≠ 0 →
        ∀ i ≤ v.pickLevelForMemTableOutput sizes f.span.lo f.span.hi, ∀ g ∈ v.files i, Apart g f) := by
  unfold Version.pickLevelForMemTableOutput
  split
  · exact ⟨by decide, fun h => absurd rfl h⟩
  · next hzero =>
    obtain ⟨hle, hno⟩ := @pushDown_spec v sizes f.span kMaxMemCompactLevel 0
    have hlt : 0 + kMaxMemCompactLevel < kNumLevels := by decide
    refine ⟨hle.trans_lt hlt, fun _ i hi g hg => not_meets_of_overlapInLevel (hv.separated i) (hparse i) ?_ hg⟩
    rcases Nat.eq_zero_or_pos i with rfl | hpos
    · exact Bool.not_eq_true _ ▸ hzero
    · exact hno i hpos hi

theorem added_flushEdit {p : Nat} : (flushEdit p f).added level = if level = p then [f] else [] := by
  by_cases h : level = p
  · simp [flushEdit, VersionEdit.added, h]
  · simp [flushEdit, VersionEdit.added, h, Ne.symm h]

theorem kept_flushEdit {p : Nat} : (flushEdit p f).kept v level = v.files level := by
  simp [flushEdit, VersionEdit.kept, VersionEdit.deleted]

theorem leveled_flush (hv : v.Ok) {p : Nat} (hp : p < kNumLevels) (hapart : p ≠ 0 → ∀ i ≤ p, ∀ g ∈ v.files i, Apart g f)
    (hnewer : ∀ i, ∀ g ∈ v.files i, ∀ a ∈ f.entries, ∀ b ∈ g.entries, Newer a b)
    (hnumber : ∀ i, ∀ g ∈ v.files i, g.number ≠ f.number) :
    Leveled fun level => (flushEdit p f).kept v level ++ (flushEdit p f).added level := by
  refine hv.leveled_put (fun _ => added_flushEdit) hp (pairwise_singleton ..) (pairwise_singleton ..) ?_ ?_ ?_ ?_ <;>
    simp only [kept_flushEdit, mem_singleton, forall_eq]
  · exact hnumber
  · exact fun hlevel => hapart hlevel p (Nat.le_refl _)
  · exact fun i hi g hg a ha b hb huser => absurd (FileMetaData.meets_of_userKey_eq ha hb huser)
      (hapart (Nat.ne_of_gt (Nat.zero_lt_of_lt hi)) i (Nat.le_of_lt hi) g hg)
  · exact fun i _ => hnewer i

/-! ## Outputs of compactions -/

section Outputs

variable {c : Compaction} {outputs : List FileMetaData} {all : Span Bytes}

/-- The inputs of a compaction are files of the version, which may be a later one than that they were taken from. A file
of the version that is not an input does not overlap them if it is in the next level; it is newer if it is in the level of
the compaction; and if it is in a level below it either was there before or does not overlap them. -/
structure Chosen (v : Version) (c : Compaction) (all : Span Bytes) : Prop where
  level : c.level + 1 < kNumLevels
  nodup0 : c.inputs0.Nodup
  nodup1 : c.inputs1.Nodup
  subset0 : c.inputs0 ⊆ v.files c.level
  subset1 : c.inputs1 ⊆ v.files (c.level + 1)
  within : ∀ f ∈ c.inputs0 ++ c.inputs1, f.span.Within compare all
  covers : Covers compare ((c.inputs0 ++ c.inputs1).map FileMetaData.span) all
  newer : ∀ g ∈ v.files c.level, g ∉ c.inputs0 → ∀ f ∈ c.inputs0 ++ c.inputs1, ∀ a ∈ g.entries, ∀ b ∈ f.entries, Newer a b
  next : ∀ g ∈ v.files (c.level + 1), g ∉ c.inputs1 → ¬ g.span.Meets compare all
  below : ∀ i, c.level + 1 < i → ∀ g ∈ v.files i, g ∈ c.inputVersion.files i ∨ ¬ g.span.Meets compare all

/-- The outputs of a compaction may take the place of its inputs. -/
structure Replaces (v : Version) (c : Compaction) (all : Span Bytes) (outputs : List FileMetaData) : Prop
    extends Chosen v c all where
  apart : outputs.Pairwise Apart
  entries : ∀ o ∈ outputs, ∀ e ∈ o.entries, ∃ f ∈ c.inputs0 ++ c.inputs1, e ∈ f.entries
  distinct : outputs.Pairwise fun o o' => o.number ≠ o'.number
  numbers : ∀ o ∈ outputs, ∀ i, ∀ g ∈ v.files i, g.number = o.number → i = c.level ∧ g ∈ c.inputs0

theorem added_edit : (c.edit outputs).added level = if level = c.level + 1 then outputs else [] := by
  by_cases h : level = c.level + 1
  · simp [Compaction.edit, VersionEdit.added, h, filter_map, Function.comp_def]
  · simp [Compaction.edit, VersionEdit.added, h, Ne.symm h, filter_map, Function.comp_def]

def Compaction.taken (c : Compaction) (level : Nat) : List FileMetaData :=
  if level = c.level then c.inputs0 else if level = c.level + 1 then c.inputs1 else []

theorem Chosen.taken_subset (h : Chosen v c all) (level : Nat) : c.taken level ⊆ v.files level := by
  unfold Compaction.taken
  split
  · next heq => exact heq ▸ h.subset0
  split
  · next heq => exact heq ▸ h.subset1
  · exact nil_subset _

theorem Chosen.nodup_taken (h : Chosen v c all) (level : Nat) : (c.taken level).Nodup := by
  unfold Compaction.taken
  split
  · exact h.nodup0
  split
  · exact h.nodup1
  · exact .nil

section Replaces

variable (h : Replaces v c all outputs)

include h

theorem Replaces.span_within {o : FileMetaData} (ho : o ∈ outputs) :
    o.span.Within compare all := by
  obtain ⟨f, hf, hlo⟩ := h.entries o ho _ (head_mem o.nonempty)
  obtain ⟨g, hg, hhi⟩ := h.entries o ho _ (getLast_mem o.nonempty)
  exact ⟨((FileMetaData.holds_span hlo).of_within (h.within f hf)).1,
    ((FileMetaData.holds_span hhi).of_within (h.within g hg)).2⟩

theorem Replaces.mem_deleted_iff {n : Nat} :
    n ∈ (c.edit outputs).deleted level ↔ ∃ f ∈ c.taken level, f.number = n := by
  have hne : c.level + 1 ≠ c.level := Nat.succ_ne_self _
  rw [VersionEdit.deleted, mem_filter, added_edit, Compaction.edit, filter_append, map_append,
    mem_append, Compaction.taken]
  by_cases h0 : level = c.level
  · subst h0
    simp [filter_map, Function.comp_def]
  · by_cases h1 : level = c.level + 1
    · subst h1
      simp only [filter_map, Function.comp_def, hne, hne.symm, decide_false, decide_true, filter_false,
        filter_true, map_nil, map_map, not_mem_nil, false_or, if_false, if_true, mem_map,
        decide_eq_true_eq, not_exists, not_and]
      constructor
      · rintro ⟨hf, -⟩
        exact hf
      · rintro ⟨f, hf, rfl⟩
        refine ⟨⟨f, hf, rfl⟩, fun o ho heq => ?_⟩
        exact hne (h.numbers o ho (c.level + 1) f (h.subset1 hf) heq.symm).1
    · simp [filter_map, Function.comp_def, h0, h1, Ne.symm h0, Ne.symm h1]

theorem Replaces.mem_kept_iff (hv : v.Ok) :
    f ∈ (c.edit outputs).kept v level ↔ f ∈ v.files level ∧ f ∉ c.taken level := by
  rw [VersionEdit.kept, mem_filter, decide_eq_true_eq, h.mem_deleted_iff]
  refine and_congr_right fun hf => not_congr ⟨?_, fun hmem => ⟨f, hmem, rfl⟩⟩
  rintro ⟨g, hg, heq⟩
  rwa [← (hv.numbers (h.taken_subset level hg) hf heq).2]

theorem Replaces.files_perm (hv : v.Ok) (level : Nat) :
    (v.files level).Perm ((c.edit outputs).kept v level ++ c.taken level) := by
  have hnodup := hv.nodup level
  refine (perm_ext_iff_of_nodup hnodup ?_).2 fun f => ?_
  · refine nodup_append.2 ⟨hnodup.sublist filter_sublist, h.nodup_taken level, ?_⟩
    rintro f hf g hg rfl
    exact ((h.mem_kept_iff hv).1 hf).2 hg
  · rw [mem_append, h.mem_kept_iff hv]
    by_cases hmem : f ∈ c.taken level
    · simp [hmem, h.taken_subset level hmem]
    · simp [hmem]

theorem Replaces.newer_of_lt (hv : v.Ok) {o : FileMetaData} (ho : o ∈ outputs) {a b : Entry}
    (ha : a ∈ g.entries) (hb : b ∈ o.entries) :
    (level < c.level → g ∈ v.files level → Newer a b) ∧ (c.level + 1 < level → g ∈ v.files level → Newer b a) := by
  obtain ⟨f, hf, hb'⟩ := h.entries o ho b hb
  rcases mem_append.1 hf with hf | hf
  · have hf' := h.subset0 hf
    exact ⟨fun hlt hg => hv.newer hlt hg hf' a ha b hb', fun hlt hg => hv.newer (by omega) hf' hg b hb' a ha⟩
  · have hf' := h.subset1 hf
    exact ⟨fun hlt hg => hv.newer (by omega) hg hf' a ha b hb', fun hlt hg => hv.newer hlt hf' hg b hb' a ha⟩

theorem Replaces.number_ne (hv : v.Ok) {o : FileMetaData}
    (hg : g ∈ (c.edit outputs).kept v level) (ho : o ∈ outputs) : g.number ≠ o.number := by
  intro heq
  obtain ⟨hg, hnot⟩ := (h.mem_kept_iff hv).1 hg
  obtain ⟨rfl, hmem⟩ := h.numbers o ho level g hg heq
  rw [Compaction.taken, if_pos rfl] at hnot
  exact hnot hmem

theorem Replaces.leveled (hv : v.Ok) :
    Leveled fun level => (c.edit outputs).kept v level ++ (c.edit outputs).added level := by
  have hkept : ∀ {level f}, f ∈ (c.edit outputs).kept v level → f ∈ v.files level := fun hf => (mem_filter.1 hf).1
  refine hv.leveled_put (fun _ => added_edit) h.level h.apart h.distinct (fun _ _ hg _ ho => h.number_ne hv hg ho)
    (fun _ g hg o ho hmeets => ?_) (fun i hi g hg o ho a ha b hb => ?_) fun i hi g hg o ho a ha b hb =>
      (h.newer_of_lt hv ho hb ha).2 hi (hkept hg)
  · obtain ⟨hg, hnot⟩ := (h.mem_kept_iff hv).1 hg
    rw [Compaction.taken, if_neg (Nat.succ_ne_self _), if_pos rfl] at hnot
    exact h.next g hg hnot (hmeets.of_within (h.span_within ho))
  · rcases Nat.lt_or_eq_of_le (Nat.le_of_lt_succ hi) with hlt | rfl
    · exact (h.newer_of_lt hv ho ha hb).1 hlt (hkept hg)
    · obtain ⟨hg, hnot⟩ := (h.mem_kept_iff hv).1 hg
      rw [Compaction.taken, if_pos rfl] at hnot
      obtain ⟨f, hf, hb⟩ := h.entries o ho b hb
      exact h.newer g hg hnot f hf a ha b hb

end Replaces

/-! ## Compactions that are underway -/

variable {r : Span Bytes} {v' : Version}

theorem Taken.chosen (hv : v.Ok) (hlevel : c.level + 1 < kNumLevels) (hversion : c.inputVersion = v)
    (h : Taken v c.level c.inputs0 c.inputs1 r all) : Chosen v c all := by
  have hsub1 : c.inputs1.Sublist (v.files (c.level + 1)) := h.inputs1_eq ▸ filter_sublist
  have hmem1 : ∀ g ∈ v.files (c.level + 1), g.span.Meets compare r → g ∈ c.inputs1 := fun g hg hmeets => by
    rw [h.inputs1_eq]
    exact mem_filter.2 ⟨hg, decide_eq_true hmeets⟩
  refine ⟨hlevel, (hv.nodup _).sublist h.sublist, (hv.nodup _).sublist hsub1, h.sublist.subset, hsub1.subset,
    h.hull_all.within, h.covers, fun g hg hnot f hf a ha b hb huser => ?_, fun g hg hnot hmeets => ?_,
    fun i _ g hg => .inl (hversion ▸ hg)⟩
  · rcases mem_append.1 hf with hf | hf
    · -- in the level of the compaction other files have no key in common with its inputs
      have hmeets : g.span.Meets compare f.span := FileMetaData.meets_of_userKey_eq ha hb huser
      rcases Nat.eq_zero_or_pos c.level with hzero | hpos
      · exact absurd (h.closed hzero g hg (hmeets.of_within (h.hull.within f hf))) hnot
      · exact absurd hmeets ((hv.separated _ (Nat.ne_of_gt hpos)).apart hg (h.sublist.subset hf) (by rintro rfl; exact hnot hf))
    · exact hv.newer (Nat.lt_succ_self _) hg (hsub1.subset hf) a ha b hb huser
  · obtain ⟨p, hp, hmeets'⟩ := h.covers _ g.nonempty_span hmeets
    obtain ⟨f, hf, rfl⟩ := mem_map.1 hp
    rcases mem_append.1 hf with hf | hf
    · exact hnot (hmem1 g hg (hmeets'.of_within (h.hull.within f hf)))
    · exact (hv.separated _ (Nat.succ_ne_zero _)).apart hg (hsub1.subset hf) (by rintro rfl; exact hnot hf) hmeets'

theorem Chosen.not_meets (h : Chosen v c all) {p : Nat} (hapart : ∀ i ≤ p, ∀ g ∈ v.files i, Apart g f) (hp : c.level < p) :
    ¬ f.span.Meets compare all := by
  intro hmeets
  obtain ⟨q, hq, hmeets'⟩ := h.covers _ f.nonempty_span hmeets
  obtain ⟨g, hg, rfl⟩ := mem_map.1 hq
  rcases mem_append.1 hg with hg | hg
  · exact hapart c.level (Nat.le_of_lt hp) g (h.subset0 hg) hmeets'.symm
  · exact hapart (c.level + 1) hp g (h.subset1 hg) hmeets'.symm

theorem Chosen.flush (h : Chosen v c all) {p : Nat} (hapart : p ≠ 0 → ∀ i ≤ p, ∀ g ∈ v.files i, Apart g f)
    (hnewer : ∀ i, ∀ g ∈ v.files i, ∀ a ∈ f.entries, ∀ b ∈ g.entries, Newer a b)
    (hmem : ∀ i g, g ∈ v'.files i ↔ g ∈ v.files i ∨ i = p ∧ g = f) : Chosen v' c all := by
  have hinput : ∀ g ∈ c.inputs0 ++ c.inputs1, ∀ a ∈ f.entries, ∀ b ∈ g.entries, Newer a b := fun g hg =>
    (mem_append.1 hg).elim (fun hg => hnewer _ g (h.subset0 hg)) fun hg => hnewer _ g (h.subset1 hg)
  have hbelow : c.level < p → ¬ f.span.Meets compare all := fun hp =>
    h.not_meets (hapart (Nat.ne_of_gt (Nat.zero_lt_of_lt hp))) hp
  refine ⟨h.level, h.nodup0, h.nodup1, fun g hg => (hmem _ g).2 (.inl (h.subset0 hg)),
    fun g hg => (hmem _ g).2 (.inl (h.subset1 hg)), h.within, h.covers, fun g hg hnot g' hg' a ha b hb => ?_,
    fun g hg hnot => ?_, fun i hi g hg => ?_⟩
  · rcases (hmem _ g).1 hg with hg | ⟨-, rfl⟩
    · exact h.newer g hg hnot g' hg' a ha b hb
    · exact hinput g' hg' a ha b hb
  · rcases (hmem _ g).1 hg with hg | ⟨rfl, rfl⟩
    · exact h.next g hg hnot
    · exact hbelow (Nat.lt_succ_self _)
  · rcases (hmem _ g).1 hg with hg | ⟨rfl, rfl⟩
    · exact h.below i hi g hg
    · exact .inr (hbelow (by omega))

end Outputs

end Dbms18.LevelDb
