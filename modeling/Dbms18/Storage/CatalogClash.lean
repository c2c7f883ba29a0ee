import Dbms18.Storage.CatalogRestart

/-!
# Creating a relation under a name that is taken

`CreateRelation` writes the records first and drops the result of `InsertRelation`, so it always
returns true. As long as every call has a new name, the records on disk are those of the relations in
memory (`Recorded`) and a restart can read them. A call with a name that is taken is not refused, and
leaves records of a relation that memory does not have.
-/

namespace Dbms18

open Res List

namespace CatalogStore

variable {s₀ s s' : CatalogStore} {calls : List CreateCall} {call : CreateCall}

/-- The records on disk are those of the relations in memory. -/
structure Recorded (s : CatalogStore) : Prop where
  wf : s.catalog.Wf
  sysClass : ∀ value ∈ s.files.sysClass, ∃ r : Relation, r.record = .ok value
  keys : ((s.files.sysClass.map Catalog.relationOf).map fun r => (r.name, r.id)).Perm s.catalog.keys
  sysAttribute : ∀ value ∈ s.files.sysAttribute, ∃ a : Attribute, a.record = .ok value ∧
    ∃ n, (n, a.relationId) ∈ s.catalog.keys

theorem recorded_of_started (h : s.Started) : s.Recorded where
  wf := h.catalog.1
  sysClass := (plain_start h).sysClass
  keys := (plain_start h).keys
  sysAttribute value hmem := by
    obtain ⟨a, ha, hid⟩ := (initFiles_of_initDB h.1).sysAttribute value hmem
    refine ⟨a, ha, ?_⟩
    rcases hid with hid | hid
    · exact ⟨_, hid ▸ mem_sysKeys h mem_cons_self⟩
    · exact ⟨_, hid ▸ mem_sysKeys h (mem_cons_of_mem _ mem_cons_self)⟩

theorem Recorded.readSystemTable (hs : s.Recorded) {sysClass sysAttribute : List Bytes}
    (hpc : sysClass.Perm s.files.sysClass) (hpa : sysAttribute.Perm s.files.sysAttribute) :
    ∃ c, Catalog.empty.readSystemTable sysClass sysAttribute = .ok c ∧ Recorded ⟨c, s.files⟩ := by
  obtain ⟨c, hc, hwf, -, hck⟩ := readSystemTable_of_perm (Q := fun _ _ => True) hs.wf hs.sysClass hs.keys hpc
    (fun value hmem => by
      obtain ⟨a, ha, n, hmem⟩ := hs.sysAttribute value (hpa.mem_iff.1 hmem)
      obtain ⟨r, hr, -, hid⟩ := Catalog.mem_keys.1 hmem
      exact ⟨a, ha, trivial, r, hr, hid⟩)
  refine ⟨c, hc, hwf, hs.sysClass, hs.keys.trans hck.symm, fun value hmem => ?_⟩
  obtain ⟨a, ha, n, hn⟩ := hs.sysAttribute value hmem
  exact ⟨a, ha, n, hck.mem_iff.2 hn⟩

theorem schemaRelation_relationId {schema : TableSchema} {id : RelationId} {r : Relation}
    (h : schemaRelation schema id = .ok r) : ∀ a ∈ r.attributes, a.relationId = r.id := by
  refine foldlM_keeps (P := fun r : Relation => ∀ a ∈ r.attributes, a.relationId = r.id) (fun r col _ r' hr hr' => ?_)
    (by simp) h
  obtain ⟨a, -, hr'⟩ := bind_eq_ok.1 hr'
  obtain rfl := Except.ok.inj hr'
  intro b hb
  rw [Relation.id_addAttribute]
  rcases mem_append.1 hb with hb | hb
  · exact hr b hb
  · rw [mem_singleton.1 hb]

theorem Recorded.createRelation (hs : s.Recorded) (hfree : s.catalog.nameRelMap call.schema.name = none)
    (h : Prod.fst <$> s.createRelation call.schema call.draws = .ok s') : s'.Recorded := by
  obtain ⟨id, r, files, hid, hr, hfiles, rfl⟩ := createRelation_eq_ok h
  obtain ⟨value, values, hvalue, hvalues, rfl⟩ := writeRelMeta_eq_ok.1 hfiles
  obtain ⟨hname, hrid⟩ := schemaRelation_keys hr
  have hinsert := Catalog.insertRelation_of_fresh (hname ▸ hfree) (hrid ▸ genRelationID_fresh hid)
  have hkeys : (s.catalog.insertRelation r).1.keys = s.catalog.keys ++ [(r.name, r.id)] := by
    simp [hinsert, Catalog.keys]
  refine ⟨hs.wf.insertRelation r, fun v hv => ?_, ?_, fun v hv => ?_⟩
  · rcases mem_append.1 hv with hv | hv
    · exact hs.sysClass v hv
    · exact ⟨r, mem_singleton.1 hv ▸ hvalue⟩
  · simp only [map_append, hkeys, map_cons, map_nil, relationOf_record hvalue]
    exact hs.keys.append_right _
  · simp only [hkeys]
    rcases mem_append.1 hv with hv | hv
    · obtain ⟨a, ha, n, hn⟩ := hs.sysAttribute v hv
      exact ⟨a, ha, n, mem_append_left _ hn⟩
    · obtain ⟨a, ha, hrec⟩ := exists_of_mem_mapM hvalues hv
      refine ⟨a, hrec, r.name, mem_append_right _ ?_⟩
      rw [schemaRelation_relationId hr a ha]
      exact mem_cons_self

theorem mem_names_createRelation (h : Prod.fst <$> s.createRelation call.schema call.draws = .ok s')
    (hs : s.catalog.Wf) : ∃ r ∈ s'.catalog.allRelations, r.name = call.schema.name := by
  obtain ⟨id, r, files, hid, hr, -, rfl⟩ := createRelation_eq_ok h
  obtain ⟨hname, hrid⟩ := schemaRelation_keys hr
  by_cases hfree : s.catalog.nameRelMap r.name = none
  · refine ⟨r, ?_, hname⟩
    rw [Catalog.insertRelation_of_fresh hfree (hrid ▸ genRelationID_fresh hid)]
    exact mem_append_right _ mem_cons_self
  · obtain ⟨r', hr', heq⟩ : ∃ r' ∈ s.catalog.allRelations, r'.name = r.name := by
      simpa using mt hs.byName.eq_none_iff.2 hfree
    refine ⟨r', ?_, heq.trans hname⟩
    rcases s.catalog.allRelations_insertRelation r with heq | heq
    · exact heq ▸ hr'
    · exact heq ▸ mem_append_left _ hr'

theorem Recorded.running (hs : s.Recorded) : Running s s [] where
  wf := hs.wf
  keeps := prefix_refl _
  names _ hr := .inl hr
  sysAttribute value hmem :=
    let ⟨a, ha, _⟩ := hs.sysAttribute value hmem
    ⟨a, ha⟩

theorem Recorded.taken_iff (h₀ : s₀.Recorded) (hrun : s₀.run calls = .ok s) {n : Bytes} :
    s.catalog.nameRelMap n ≠ none ↔ n ∈ s₀.catalog.allRelations.map Relation.name ++ calls.map (·.schema.name) := by
  have hend := h₀.running.run hrun
  have htaken : s.catalog.nameRelMap n ≠ none ↔ ∃ r ∈ s.catalog.allRelations, r.name = n := by
    simp [hend.wf.byName.eq_none_iff]
  rw [htaken, mem_append, mem_map]
  constructor
  · rintro ⟨r, hr, rfl⟩
    exact (hend.names r hr).imp (fun hold => ⟨r, hold, rfl⟩) (fun hnew => by simpa using hnew)
  · rintro (⟨r, hr, rfl⟩ | hcall)
    · exact ⟨r, hend.keeps.subset hr, rfl⟩
    · obtain ⟨call, hmem, rfl⟩ := mem_map.1 hcall
      obtain ⟨pre, post, heq⟩ := append_of_mem hmem
      obtain ⟨s₁, h₁, h₂⟩ := run_append.1 (heq ▸ hrun)
      obtain ⟨s₂, hcreate, h₂⟩ := run_cons.1 h₂
      have hs₁ := h₀.running.run h₁
      have hs₂ := hs₁.createRelation hcreate
      obtain ⟨r, hr, hname⟩ := mem_names_createRelation hcreate hs₁.wf
      have hlater : Running s₂ s₂ [] := ⟨hs₂.wf, prefix_refl _, fun _ h => .inl h, hs₂.sysAttribute⟩
      exact ⟨r, (hlater.run h₂).keeps.subset hr, hname⟩

/-! ## Clashes -/

/-- If the name of the call is taken, the call returns false and changes nothing. -/
def AtomicAt (s : CatalogStore) (call : CreateCall) : Prop :=
  s.catalog.getRelation call.schema.name ≠ none → s.createRelation call.schema call.draws = .ok (s, false)

/-- Every call of the run is atomic where it is made, and the run's files can be read at a `Start`, in
whatever order the records come back. -/
def ClashSafe (s₀ s : CatalogStore) (calls : List CreateCall) : Prop :=
  (∀ pre call post, calls = pre ++ call :: post → ∀ s₁, s₀.run pre = .ok s₁ → s₁.AtomicAt call) ∧
    ∀ sysClass sysAttribute, sysClass.Perm s.files.sysClass → sysAttribute.Perm s.files.sysAttribute →
      ∃ c, Catalog.empty.readSystemTable sysClass sysAttribute = .ok c

theorem createRelation_ne_false {schema : TableSchema} {draws : List RelationId} :
    s.createRelation schema draws ≠ .ok (s', false) := by
  intro h
  obtain ⟨id, -, h⟩ := bind_eq_ok.1 h
  obtain ⟨r, -, h⟩ := bind_eq_ok.1 h
  obtain ⟨files, -, h⟩ := bind_eq_ok.1 h
  exact absurd (Prod.mk.inj (Except.ok.inj h)).2 (by decide)

theorem atomicAt_iff (hs : s.catalog.Wf) : s.AtomicAt call ↔ s.catalog.nameRelMap call.schema.name = none := by
  constructor
  · intro hatomic
    by_contra htaken
    refine createRelation_ne_false (hatomic fun hnone => htaken ?_)
    rw [hs.byName.eq_none_iff]
    intro r hr heq
    rw [hs.getRelation_eq_some.2 ⟨hr, heq⟩] at hnone
    cases hnone
  · intro hfree hfound
    exact absurd (by rw [Catalog.getRelation, hfree]; rfl) hfound

theorem Recorded.run (h₀ : s₀.Recorded) (hrun : s₀.run calls = .ok s)
    (hfree : ∀ pre call post, calls = pre ++ call :: post → ∀ s₁, s₀.run pre = .ok s₁ →
      s₁.catalog.nameRelMap call.schema.name = none) : s.Recorded := by
  induction calls generalizing s₀ with
  | nil =>
    obtain rfl := Except.ok.inj hrun
    exact h₀
  | cons call calls ih =>
    obtain ⟨s₁, h₁, hrun⟩ := run_cons.1 hrun
    refine ih (h₀.createRelation (hfree [] call calls rfl s₀ rfl) h₁) hrun fun pre call' post heq s₂ h₂ => ?_
    exact hfree (call :: pre) call' post (by rw [heq]; rfl) s₂ (run_cons.2 ⟨s₁, h₁, h₂⟩)

/-- A run is safe from clashes exactly when it has none: no call has the name of a relation that was
there before the run or of an earlier call. -/
theorem clashSafe_iff (h₀ : s₀.Recorded) (hrun : s₀.run calls = .ok s) :
    ClashSafe s₀ s calls ↔ (s₀.catalog.allRelations.map Relation.name ++ calls.map (·.schema.name)).Nodup := by
  rw [nodup_append_map_iff h₀.wf.byName.nodup]
  -- the state in which a call of the run is made exists, and there the name is free
  have hmade : ∀ pre call post, calls = pre ++ call :: post → ∃ s₁, s₀.run pre = .ok s₁ ∧
      (s₁.AtomicAt call ↔ call.schema.name ∉ s₀.catalog.allRelations.map Relation.name ++ pre.map (·.schema.name)) := by
    intro pre call post heq
    obtain ⟨s₁, h₁, -⟩ := run_append.1 (heq ▸ hrun)
    refine ⟨s₁, h₁, ?_⟩
    rw [atomicAt_iff (h₀.running.run h₁).wf, ← h₀.taken_iff h₁, not_not]
  constructor
  · rintro ⟨hatomic, -⟩ pre call post heq
    obtain ⟨s₁, h₁, hiff⟩ := hmade pre call post heq
    exact hiff.1 (hatomic pre call post heq s₁ h₁)
  · intro hnew
    have hatomic : ∀ pre call post, calls = pre ++ call :: post → ∀ s₁, s₀.run pre = .ok s₁ → s₁.AtomicAt call := by
      intro pre call post heq s₁ h₁
      obtain ⟨s₁', h₁', hiff⟩ := hmade pre call post heq
      obtain rfl := Except.ok.inj (h₁.symm.trans h₁')
      exact hiff.2 (hnew pre call post heq)
    have hs := h₀.run hrun fun pre call post heq s₁ h₁ =>
      (atomicAt_iff (h₀.running.run h₁).wf).1 (hatomic pre call post heq s₁ h₁)
    refine ⟨hatomic, fun sysClass sysAttribute hpc hpa => ?_⟩
    obtain ⟨c, hc, -⟩ := hs.readSystemTable hpc hpa
    exact ⟨c, hc⟩

def firstStart : Res CatalogStore := do
  let f ← initDB
  let c ← Catalog.empty.readSystemTable f.sysClass f.sysAttribute
  return ⟨c, f⟩

theorem started_of_firstStart (h : firstStart = .ok s) : s.Started := by
  obtain ⟨f, hf, h⟩ := bind_eq_ok.1 h
  obtain ⟨c, hc, h⟩ := bind_eq_ok.1 h
  obtain rfl := Except.ok.inj h
  exact ⟨hf, f.sysClass, f.sysAttribute, .refl _, .refl _, hc⟩

/-- `CREATE TABLE name (a INTEGER)`, where `rand` returns `id`. -/
def createOne (name : String) (id : RelationId) : CreateCall := ⟨⟨ascii name, [⟨ascii "a", .integer, 0, true⟩]⟩, [id]⟩

def ends (calls : List CreateCall) (f : CatalogStore → Bool) : Res Bool := do
  let s₀ ← firstStart
  let s ← s₀.run calls
  return f s

theorem exists_ends {f : CatalogStore → Bool} (h : ends calls f = .ok true) :
    ∃ s₀ s : CatalogStore, s₀.Started ∧ s₀.run calls = .ok s ∧ f s = true := by
  obtain ⟨s₀, h₀, h⟩ := bind_eq_ok.1 h
  obtain ⟨s, hrun, h⟩ := bind_eq_ok.1 h
  exact ⟨s₀, s, started_of_firstStart h₀, hrun, Except.ok.inj h⟩

set_option maxRecDepth 100000 in
theorem clashSafe_two_tables : ∃ s₀ s : CatalogStore, s₀.Started ∧ s₀.run [createOne "t" 2, createOne "u" 3] = .ok s ∧
    ClashSafe s₀ s [createOne "t" 2, createOne "u" 3] := by
  have hends : ends [createOne "t" 2, createOne "u" 3] (fun _ => true) = .ok true := by decide +kernel
  obtain ⟨s₀, s, h₀, hrun, -⟩ := exists_ends hends
  refine ⟨s₀, s, h₀, hrun, (clashSafe_iff (recorded_of_started h₀) hrun).2 ?_⟩
  have hnames : (s₀.catalog.allRelations.map Relation.name).Perm (sysKeys.map Prod.fst) := by
    simpa [Catalog.keys, Function.comp_def] using h₀.catalog.2.map Prod.fst
  exact (hnames.append_right _).nodup_iff.2 (by decide)

def assertsAtStart (s : CatalogStore) : Bool :=
  match Catalog.empty.readSystemTable s.files.sysClass s.files.sysAttribute with
  | .error .assertion => true
  | _ => false

theorem assertsAtStart_iff : s.assertsAtStart = true ↔
    Catalog.empty.readSystemTable s.files.sysClass s.files.sysAttribute = .error .assertion := by
  unfold assertsAtStart
  split <;> simp_all

set_option maxRecDepth 100000 in
/-- The same table twice: the second call is not refused, and the next `Start` fails an assertion. -/
theorem not_clashSafe_same_table : ∃ s₀ s : CatalogStore, s₀.Started ∧ s₀.run [createOne "t" 2, createOne "t" 3] = .ok s ∧
    ¬ ClashSafe s₀ s [createOne "t" 2, createOne "t" 3] ∧
    Catalog.empty.readSystemTable s.files.sysClass s.files.sysAttribute = .error .assertion := by
  have hends : ends [createOne "t" 2, createOne "t" 3] assertsAtStart = .ok true := by decide +kernel
  obtain ⟨s₀, s, h₀, hrun, hasserts⟩ := exists_ends hends
  have hfails := assertsAtStart_iff.1 hasserts
  refine ⟨s₀, s, h₀, hrun, fun hsafe => ?_, hfails⟩
  obtain ⟨c, hc⟩ := hsafe.2 _ _ (.refl _) (.refl _)
  rw [hfails] at hc
  cases hc

end CatalogStore

end Dbms18
