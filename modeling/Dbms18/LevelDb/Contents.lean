import Mathlib.Data.List.Perm.Basic
import Dbms18.Lib.Newest
import Dbms18.LevelDb.Levels

/-!
# What readers find in the levels

The tables that memtables were made into hold some entries; the levels hold some of them. A reader that sees all of them
finds in the levels what it would find in the tables (`Version.Keeps`): a table of a memtable is added to both, and a
compaction puts instead of entries only those that a reader can find (`Kept`).
-/

namespace Dbms18.LevelDb

open List Std Dbms18.Span Versions

/-- An entry comes before another one; of two with the same user key it is the newer one. -/
def Before (a b : Entry) : Prop := InternalKey.compare a.1 b.1 = .lt

theorem not_before_self (e : Entry) : ¬ Before e e := by
  have hself : InternalKey.compare e.1 e.1 = .eq := ReflCmp.compare_self
  rw [Before, hself]
  decide

theorem Before.asymm {a b : Entry} (h : Before a b) : ¬ Before b a := fun h' => not_before_self a (TransCmp.lt_trans h h')

theorem sees_iff {s : Nat} {k : Bytes} {e : Entry} (hparse : e.1.parse ≠ none) (hs : e.1.sequence ≤ s) :
    Sees (shows s) k e ↔ e.1.userKey = k := by
  obtain ⟨ikey, hp⟩ := Option.ne_none_iff_exists'.1 hparse
  obtain ⟨huser, hsequence⟩ := InternalKey.parse_eq_some hp
  constructor
  · rintro ⟨o, ho⟩
    exact userKey_of_shows ho
  · rintro rfl
    refine ⟨if ikey.type = .value then some e.2 else none, ?_⟩
    rw [shows_of_parse hp, if_pos (hsequence ▸ hs), huser]

/-! ## What a compaction keeps -/

def IsDeletion (e : Entry) : Prop := ∃ ikey, e.1.parse = some ikey ∧ ikey.type = .deletion

/-- Of the entries `A` a compaction keeps `W`: of each user key the newest, unless it is a deletion and nothing is below. -/
structure Kept (base : Bytes → Prop) (A W : List Entry) : Prop where
  sublist : W.Sublist A
  newest : ∀ e ∈ A, (∀ a ∈ A, a.1.userKey = e.1.userKey → a = e ∨ Before e a) →
    e ∈ W ∨ IsDeletion e ∧ base e.1.userKey ∧ ∀ w ∈ W, w.1.userKey ≠ e.1.userKey

structure KeptOnce (base : Bytes → Prop) (A W : List Entry) : Prop extends Kept base A W where
  single : W.Pairwise fun a b => a.1.userKey ≠ b.1.userKey

section Kept

variable {base : Bytes → Prop} {A W : List Entry} {e : Entry}

theorem keptOnce_nil : KeptOnce base [] [] := ⟨⟨.slnil, by simp⟩, .nil⟩

theorem kept_self (A : List Entry) : Kept base A A := ⟨.refl _, fun _ he _ => .inl he⟩

theorem KeptOnce.hide (h : KeptOnce base A W) {a : Entry} (ha : a ∈ A) (huser : a.1.userKey = e.1.userKey)
    (hbefore : Before a e) :
    KeptOnce base (A ++ [e]) W := by
  refine ⟨⟨h.sublist.trans (sublist_append_left ..), fun e' he' hnewest => ?_⟩, h.single⟩
  rcases mem_append.1 he' with he' | he'
  · exact h.newest e' he' fun a ha => hnewest a (mem_append_left _ ha)
  · obtain rfl := mem_singleton.1 he'
    rcases hnewest a (mem_append_left _ ha) huser with rfl | hlt
    · exact absurd hbefore (not_before_self a)
    · exact absurd hbefore hlt.asymm

theorem KeptOnce.drop (h : KeptOnce base A W) (hnew : ∀ a ∈ A, a.1.userKey ≠ e.1.userKey) (hdeletion : IsDeletion e)
    (hbase : base e.1.userKey) : KeptOnce base (A ++ [e]) W := by
  refine ⟨⟨h.sublist.trans (sublist_append_left ..), fun e' he' hnewest => ?_⟩, h.single⟩
  rcases mem_append.1 he' with he' | he'
  · exact h.newest e' he' fun a ha => hnewest a (mem_append_left _ ha)
  · obtain rfl := mem_singleton.1 he'
    exact .inr ⟨hdeletion, hbase, fun w hw => hnew w (h.sublist.subset hw)⟩

theorem KeptOnce.write (h : KeptOnce base A W) (hnew : ∀ a ∈ A, a.1.userKey ≠ e.1.userKey) :
    KeptOnce base (A ++ [e]) (W ++ [e]) := by
  refine ⟨⟨h.sublist.append (.refl _), fun e' he' hnewest => ?_⟩, ?_⟩
  · rcases mem_append.1 he' with hmem | he'
    · refine (h.newest e' hmem fun a ha => hnewest a (mem_append_left _ ha)).imp (mem_append_left _) ?_
      rintro ⟨hdeletion, hbase, hnone⟩
      refine ⟨hdeletion, hbase, fun w hw => ?_⟩
      rcases mem_append.1 hw with hw | hw
      · exact hnone w hw
      · obtain rfl := mem_singleton.1 hw
        exact (hnew e' hmem).symm
    · exact .inl (mem_append_right _ he')
  · refine pairwise_append.2 ⟨h.single, pairwise_singleton .., fun w hw e' he' => ?_⟩
    obtain rfl := mem_singleton.1 he'
    exact hnew w (h.sublist.subset hw)

end Kept

/-! ## The entries of the levels -/

def entriesOf (files : Nat → List FileMetaData) : List Entry :=
  (List.range kNumLevels).flatMap fun level => (files level).flatMap FileMetaData.entries

def Version.entries (v : Version) : List Entry := entriesOf v.files

section Entries

variable {files files' : Nat → List FileMetaData} {e : Entry}

theorem mem_entriesOf (hempty : ∀ level, kNumLevels ≤ level → files level = []) :
    e ∈ entriesOf files ↔ ∃ level, ∃ f ∈ files level, e ∈ f.entries := by
  simp only [entriesOf, mem_flatMap, mem_range]
  refine exists_congr fun level => and_iff_right_of_imp ?_
  rintro ⟨f, hf, -⟩
  by_contra hge
  rw [hempty level (Nat.le_of_not_lt hge)] at hf
  cases hf

theorem entriesOf_perm (h : ∀ level, (files' level).Perm (files level)) : (entriesOf files').Perm (entriesOf files) :=
  List.Perm.flatMap (.refl _) fun level _ => (h level).flatMap_right _

theorem entriesOf_append : (entriesOf fun level => files level ++ files' level).Perm (entriesOf files ++ entriesOf files') := by
  simp only [entriesOf, flatMap_append]
  exact (flatMap_append_perm ..).symm

theorem flatMap_ite {α β : Type} [DecidableEq α] {l : List α} {p : α} (hnodup : l.Nodup) (hp : p ∈ l) (x : List β) :
    l.flatMap (fun a => if a = p then x else []) = x := by
  induction l with
  | nil => cases hp
  | cons a l ih =>
    obtain ⟨hnot, hnodup⟩ := nodup_cons.1 hnodup
    rw [flatMap_cons]
    by_cases hap : a = p
    · have hrest : (l.flatMap fun a => if a = p then x else []) = [] :=
        flatMap_eq_nil_iff.2 fun b hb => if_neg (by rintro rfl; exact hnot (hap ▸ hb))
      rw [if_pos hap, hrest, append_nil]
    · rw [if_neg hap, nil_append, ih hnodup (mem_of_ne_of_mem (Ne.symm hap) hp)]

theorem entriesOf_level {p : Nat} (hp : p < kNumLevels) (fs : List FileMetaData) :
    (entriesOf fun level => if level = p then fs else []) = fs.flatMap FileMetaData.entries := by
  rw [entriesOf, ← flatMap_ite nodup_range (mem_range.2 hp) (fs.flatMap FileMetaData.entries)]
  refine flatMap_congr fun level _ => ?_
  split <;> rfl

theorem entriesOf_taken {c : Compaction} (hlevel : c.level + 1 < kNumLevels) :
    (entriesOf c.taken).Perm ((c.inputs0 ++ c.inputs1).flatMap FileMetaData.entries) := by
  have hsplit : c.taken = fun level =>
      (if level = c.level then c.inputs0 else []) ++ if level = c.level + 1 then c.inputs1 else [] := by
    funext level
    unfold Compaction.taken
    by_cases h0 : level = c.level
    · rw [if_pos h0, if_pos h0, if_neg (by omega), append_nil]
    · rw [if_neg h0, if_neg h0, nil_append]
  rw [hsplit, flatMap_append, ← entriesOf_level (Nat.lt_of_succ_lt hlevel), ← entriesOf_level hlevel]
  exact entriesOf_append

end Entries

/-! ## What is found -/

/-- The version holds some of the entries `T`, and a reader that sees all of them finds the same in it. -/
structure Version.Keeps (v : Version) (T : List Entry) : Prop where
  mem : ∀ e ∈ v.entries, e ∈ T
  distinct : v.entries.Pairwise fun a b => InternalKey.compare a.1 b.1 ≠ .eq
  finds : ∀ {s}, (∀ e ∈ T, e.1.sequence ≤ s) → ∀ {k o}, Finds (shows s) Before k T o → Finds (shows s) Before k v.entries o

section Keeps

variable {v v' : Version} {T A B C es : List Entry} {f : FileMetaData} {c : Compaction} {outputs : List FileMetaData}
  {all : Span Bytes}

theorem Version.keeps_new : Version.new.Keeps [] := ⟨by decide, by decide, fun _ => id⟩

theorem distinct_of_newer (h : ∀ a ∈ A, ∀ b ∈ B, Newer a b) :
    ∀ a ∈ A, ∀ b ∈ B, InternalKey.compare a.1 b.1 ≠ .eq := by
  intro a ha b hb heq
  have huser := congrArg InternalKey.userKey (LawfulEqCmp.eq_of_compare heq)
  rw [h a ha b hb huser] at heq
  cases heq

theorem pairwise_ne_perm {es es' : List Entry} (h : es.Perm es') :
    (es.Pairwise fun a b => InternalKey.compare a.1 b.1 ≠ .eq) ↔ es'.Pairwise fun a b => InternalKey.compare a.1 b.1 ≠ .eq :=
  h.pairwise_iff fun hab => by rwa [Ne, OrientedCmp.eq_comm]

theorem Version.Keeps.add (h : v.Keeps T) (hA : InOrder A) (hnewer : ∀ a ∈ A, ∀ b ∈ T, Newer a b)
    (hperm : v'.entries.Perm (A ++ v.entries)) : v'.Keeps (T ++ A) := by
  refine ⟨fun e he => ?_, ?_, fun {s} hs {k o} hfinds => ?_⟩
  · rcases mem_append.1 (hperm.subset he) with he | he
    · exact mem_append_right _ he
    · exact mem_append_left _ (h.mem e he)
  · refine (pairwise_ne_perm hperm).2 (pairwise_append.2 ⟨hA.imp fun hlt heq => ?_, h.distinct, fun a ha b hb => ?_⟩)
    · rw [hlt] at heq
      cases heq
    · exact distinct_of_newer hnewer a ha b (h.mem b hb)
  · have hmem : ∀ e, e ∈ A ++ T ↔ e ∈ T ++ A := fun e => by rw [mem_append, mem_append, or_comm]
    have hnew : ∀ a ∈ A, ∀ b ∈ T, Sees (shows s) k a → Sees (shows s) k b → Before a b := by
      rintro a ha b hb ⟨o, ho⟩ ⟨o', ho'⟩
      exact hnewer a ha b hb ((userKey_of_shows ho).trans (userKey_of_shows ho').symm)
    have happend := (hfinds.of_mem_iff hmem).append (fun _ _ => Before.asymm) hnew h.mem
      fun o => h.finds fun e he => hs e (mem_append_left _ he)
    exact happend.of_mem_iff fun e => hperm.mem_iff

theorem Version.Keeps.replace (h : v.Keeps T) (hparse : ∀ e ∈ T, e.1.parse ≠ none) {base : Bytes → Prop}
    (hperm : v.entries.Perm (A ++ B)) (hperm' : v'.entries.Perm (A ++ C)) (hB : es.Perm B) (hkept : Kept base es C)
    (hnewer : ∀ e ∈ B, base e.1.userKey → ∀ a ∈ A, a.1.userKey = e.1.userKey → Before a e) : v'.Keeps T := by
  have hCB : ∀ e ∈ C, e ∈ B := fun e he => hB.subset (hkept.sublist.subset he)
  have hmemA : ∀ e ∈ A, e ∈ T := fun e he => h.mem e (hperm.symm.subset (mem_append_left _ he))
  have hmemB : ∀ e ∈ B, e ∈ T := fun e he => h.mem e (hperm.symm.subset (mem_append_right _ he))
  refine ⟨fun e he => ?_, ?_, fun {s} hs {k o} hfinds => ?_⟩
  · exact (mem_append.1 (hperm'.subset he)).elim (hmemA e) fun he => hmemB e (hCB e he)
  · have hdistinct := (pairwise_ne_perm (hperm.trans (hB.symm.append_left A))).1 h.distinct
    exact (pairwise_ne_perm hperm').2 (hdistinct.sublist (hkept.sublist.append_left A))
  · have hsees : ∀ {e k}, e ∈ T → (Sees (shows s) k e ↔ e.1.userKey = k) := fun he => sees_iff (hparse _ he) (hs _ he)
    refine Finds.of_mem_iff ?_ fun e => hperm'.mem_iff
    refine Finds.replace (fun _ _ => Before.asymm) not_before_self hCB (fun e he => ?_)
      ((h.finds hs hfinds).of_mem_iff fun e => hperm.symm.mem_iff)
    have hek := (hsees (hmemB e he.mem)).1 he.sees
    refine (hkept.newest e (hB.symm.subset he.mem) fun a ha huser => ?_).imp_right ?_
    · exact he.newest a (hB.subset ha) ((hsees (hmemB a (hB.subset ha))).2 (huser.trans hek))
    · rintro ⟨⟨ikey, hp, htype⟩, hbase, hnone⟩
      obtain ⟨huser, hsequence⟩ := InternalKey.parse_eq_some hp
      refine ⟨?_, fun a ha hsee => ?_, fun c hc hsee => ?_⟩
      · rw [shows_of_parse hp, if_pos (hsequence ▸ hs e (hmemB e he.mem)), htype, huser, hek]
        rfl
      · exact hnewer e he.mem hbase a ha (((hsees (hmemA a ha)).1 hsee).trans hek.symm)
      · exact hnone c hc (((hsees (hmemB c (hCB c hc))).1 hsee).trans hek.symm)

theorem Version.Ok.mem_entries (hv : v.Ok) {level : Nat} {e : Entry} (hf : f ∈ v.files level) (he : e ∈ f.entries) :
    e ∈ v.entries :=
  (mem_entriesOf hv.empty).2 ⟨level, f, hf, he⟩

theorem exists_flush (sizes : Sizes) (hv : v.Ok) (h : v.Keeps T) (hparse : ∀ e ∈ T, e.1.parse ≠ none)
    (hnewer : ∀ a ∈ f.entries, ∀ b ∈ T, Newer a b) (hnumber : ∀ i, ∀ g ∈ v.files i, g.number ≠ f.number) :
    ∃ v', (flushEdit (v.pickLevelForMemTableOutput sizes f.span.lo f.span.hi) f).apply v = .ok v' ∧ v'.Ok ∧
      v'.Keeps (T ++ f.entries) ∧ (∀ i, ∀ g ∈ v'.files i, g ∈ v.files i ∨ g = f) ∧
      ∀ c all, Chosen v c all → Chosen v' c all := by
  have hmem : ∀ {i g}, g ∈ v.files i → ∀ e ∈ g.entries, e ∈ T := fun hg e he => h.mem e (hv.mem_entries hg he)
  obtain ⟨hp, hapart⟩ := pickLevel_spec sizes hv
    (fun i g hg => hparse _ (hmem hg (g.entries.getLast g.nonempty) (getLast_mem _))) f
  generalize v.pickLevelForMemTableOutput sizes f.span.lo f.span.hi = p at hp hapart ⊢
  have hnewer' : ∀ i, ∀ g ∈ v.files i, ∀ a ∈ f.entries, ∀ b ∈ g.entries, Newer a b :=
    fun i g hg a ha b hb => hnewer a ha b (hmem hg b hb)
  obtain ⟨v', hv', hok, hperm⟩ := exists_apply hv (leveled_flush hv hp hapart hnewer' hnumber)
  simp only [kept_flushEdit, added_flushEdit] at hperm
  have hmem' : ∀ i g, g ∈ v'.files i ↔ g ∈ v.files i ∨ i = p ∧ g = f := by
    intro i g
    rw [(hperm i).mem_iff, mem_append]
    split <;> simp [*]
  have hentries : v'.entries.Perm (f.entries ++ v.entries) := by
    refine ((entriesOf_perm hperm).trans entriesOf_append).trans (perm_append_comm.trans ?_)
    rw [entriesOf_level hp, flatMap_singleton]
    exact .refl _
  exact ⟨v', hv', hok, h.add f.inOrder hnewer hentries, fun i g hg => ((hmem' i g).1 hg).imp_right And.right,
    fun c all hchosen => hchosen.flush hapart hnewer' hmem'⟩

/-- No level below the next one has the key: what `IsBaseLevelForKey` finds out. -/
def Compaction.Base (c : Compaction) (k : Bytes) : Prop :=
  ∀ i, c.level + 1 < i → ∀ g ∈ c.inputVersion.files i, ¬ g.span.Holds compare k

theorem Chosen.newer_of_base (h : Chosen v c all) (hv : v.Ok) {e a : Entry} (hbase : c.Base e.1.userKey) {i : Nat}
    {g : FileMetaData} (hg : g ∈ v.files i) (hnot : g ∉ c.taken i) (hf : f ∈ c.inputs0 ++ c.inputs1) (ha : a ∈ g.entries)
    (he : e ∈ f.entries) (huser : a.1.userKey = e.1.userKey) : Before a e := by
  have hholds : g.span.Holds compare e.1.userKey := huser ▸ FileMetaData.holds_span ha
  have hmeets : g.span.Meets compare all :=
    hholds.meets ((FileMetaData.holds_span he).of_within (h.within f hf))
  unfold Compaction.taken at hnot
  rcases Nat.lt_trichotomy i c.level with hlt | rfl | hgt
  · rcases mem_append.1 hf with hf | hf
    · exact hv.newer hlt hg (h.subset0 hf) a ha e he huser
    · exact hv.newer (Nat.lt_succ_of_lt hlt) hg (h.subset1 hf) a ha e he huser
  · rw [if_pos rfl] at hnot
    exact h.newer g hg hnot f hf a ha e he huser
  · rw [if_neg (Nat.ne_of_gt hgt)] at hnot
    rcases Nat.lt_or_eq_of_le hgt with hgt | rfl
    · exact absurd hmeets ((h.below i hgt g hg).resolve_left fun hold => hbase i hgt g hold hholds)
    · rw [if_pos rfl] at hnot
      exact absurd hmeets (h.next g hg hnot)

theorem Replaces.entries_perm (h : Replaces v c all outputs) (hv : v.Ok) :
    v.entries.Perm (entriesOf ((c.edit outputs).kept v) ++ (c.inputs0 ++ c.inputs1).flatMap FileMetaData.entries) :=
  ((entriesOf_perm (h.files_perm hv)).trans entriesOf_append).trans ((entriesOf_taken h.level).append_left _)

theorem Chosen.entries (h : Chosen v c all) (hv : v.Ok) (hkeeps : v.Keeps T) :
    (∀ e ∈ (c.inputs0 ++ c.inputs1).flatMap FileMetaData.entries, e ∈ T) ∧
      ((c.inputs0 ++ c.inputs1).flatMap FileMetaData.entries).Pairwise fun a b => InternalKey.compare a.1 b.1 ≠ .eq := by
  have hreplaces : Replaces v c all [] := ⟨h, .nil, by simp, .nil, by simp⟩
  have hperm := hreplaces.entries_perm hv
  exact ⟨fun e he => hkeeps.mem e (hperm.symm.subset (mem_append_right _ he)),
    (pairwise_append.1 ((pairwise_ne_perm hperm).1 hkeeps.distinct)).2.1⟩

theorem exists_replace (hv : v.Ok) (h : v.Keeps T) (hparse : ∀ e ∈ T, e.1.parse ≠ none) (hreplaces : Replaces v c all outputs)
    (hes : es.Perm ((c.inputs0 ++ c.inputs1).flatMap FileMetaData.entries))
    (hkept : Kept c.Base es (outputs.flatMap FileMetaData.entries)) :
    ∃ v', (c.edit outputs).apply v = .ok v' ∧ v'.Ok ∧ v'.Keeps T ∧
      ∀ i, ∀ g ∈ v'.files i, g ∈ v.files i ∨ g ∈ outputs := by
  obtain ⟨v', hv', hok, hperm⟩ := exists_apply hv (hreplaces.leveled hv)
  have hentries' : v'.entries.Perm (entriesOf ((c.edit outputs).kept v) ++ outputs.flatMap FileMetaData.entries) := by
    refine (entriesOf_perm hperm).trans ?_
    simp only [added_edit]
    rw [← entriesOf_level hreplaces.level]
    exact entriesOf_append
  refine ⟨v', hv', hok, h.replace hparse (hreplaces.entries_perm hv) hentries' hes hkept fun e he hbase a ha huser => ?_,
    fun i g hg => ?_⟩
  · have hempty : ∀ i, kNumLevels ≤ i → (c.edit outputs).kept v i = [] := fun i hi => by
      rw [VersionEdit.kept, hv.empty i hi]
      rfl
    obtain ⟨i, g, hg, ha⟩ := (mem_entriesOf hempty).1 ha
    obtain ⟨f, hf, he⟩ := mem_flatMap.1 he
    obtain ⟨hg, hnot⟩ := (hreplaces.mem_kept_iff hv).1 hg
    exact hreplaces.newer_of_base hv hbase hg hnot hf ha he huser
  · rcases mem_append.1 ((hperm i).subset hg) with hg | hg
    · exact .inl (mem_filter.1 hg).1
    · exact .inr (VersionEdit.mem_added (fun _ => added_edit) hg).2

end Keeps

end Dbms18.LevelDb
