import Dbms18.Common.AttributeOrder
import Dbms18.Lib.Index
import Dbms18.Storage.Catalog

/-!
# What a restart makes of the catalog

A record of a relation decodes to its name and id, so as long as the names and ids in `sys_class` are
distinct all relations come back, whatever the order. Their attributes do not: the decoded attribute
id is at least `8 * 65536`, while the first attribute of a created relation has id 0. A created
relation is the same after a restart exactly when it has no columns, a name that fits its record, and
not the name of a catalog relation (`restarts_iff`).
-/

namespace Dbms18

open Res List

namespace Catalog

/-- The two maps find the relations of the list. -/
structure Wf (c : Catalog) : Prop where
  byName : Indexes c.nameRelMap c.allRelations Relation.name
  byId : Indexes c.idRelMap c.allRelations Relation.id

def keys (c : Catalog) : List (Bytes × RelationId) := c.allRelations.map fun r => (r.name, r.id)

variable {c c' : Catalog} {r : Relation} {n : Bytes} {d : RelationId} {value : Bytes}

theorem wf_empty : empty.Wf := ⟨.nil _, .nil _⟩

theorem mem_keys : (n, d) ∈ c.keys ↔ ∃ r ∈ c.allRelations, r.name = n ∧ r.id = d := by
  simp [keys]

theorem Wf.getRelation_eq_some (hc : c.Wf) : c.getRelation n = some r ↔ r ∈ c.allRelations ∧ r.name = n :=
  hc.byName.lookup_eq_some

theorem Wf.id_of_mem_keys (hc : c.Wf) (h : (n, d) ∈ c.keys) (hr : c.getRelation n = some r) : r.id = d := by
  obtain ⟨r', hr', hn, hd⟩ := mem_keys.1 h
  obtain rfl := Option.some.inj (hr.symm.trans (hc.getRelation_eq_some.2 ⟨hr', hn⟩))
  exact hd

theorem insertRelation_of_fresh (hn : c.nameRelMap r.name = none) (hd : c.idRelMap r.id = none) :
    (c.insertRelation r).1 = ⟨c.allRelations ++ [r], Function.update c.nameRelMap r.name (some c.allRelations.length),
      Function.update c.idRelMap r.id (some c.allRelations.length)⟩ := by
  simp [insertRelation, hn, hd]

theorem insertRelation_cases (c : Catalog) (r : Relation) :
    (c.insertRelation r).1 = c ∨ c.nameRelMap r.name = none ∧ c.idRelMap r.id = none := by
  unfold insertRelation
  split
  · exact .inl rfl
  · next h => exact .inr (by simpa using h)

theorem Wf.insertRelation (hc : c.Wf) (r : Relation) : (c.insertRelation r).1.Wf := by
  rcases c.insertRelation_cases r with heq | ⟨hn, hd⟩
  · rwa [heq]
  · rw [insertRelation_of_fresh hn hd]
    exact ⟨hc.byName.push hn, hc.byId.push hd⟩

theorem allRelations_insertRelation (c : Catalog) (r : Relation) :
    (c.insertRelation r).1.allRelations = c.allRelations ∨
      (c.insertRelation r).1.allRelations = c.allRelations ++ [r] := by
  rcases c.insertRelation_cases r with heq | ⟨hn, hd⟩
  · exact .inl (by rw [heq])
  · exact .inr (by rw [insertRelation_of_fresh hn hd])

theorem mem_addAttribute {a b : Attribute} (h : b ∈ (r.addAttribute a false).attributes) :
    b = { a with relationId := r.id } ∨ b ∈ r.attributes := by
  unfold Relation.addAttribute at h
  simp only [Bool.false_eq_true, if_false] at h
  split at h
  · exact .inl (by simpa using h)
  · exact Relation.mem_insertByIndex h

/-- Every attribute of every relation satisfies `Q`, which may depend on the relation's id. -/
def Attributes (Q : RelationId → Attribute → Prop) (c : Catalog) : Prop :=
  ∀ r ∈ c.allRelations, ∀ a ∈ r.attributes, Q r.id a

variable {Q : RelationId → Attribute → Prop}

theorem attributes_fromTuple {t : RawTuple} (h : Relation.fromTuple t = .ok r) : r.attributes = [] := by
  simp only [Relation.fromTuple, bind_eq_ok] at h
  obtain ⟨_, -, _, -, _, -, _, -, _, -, h⟩ := h
  rw [← Except.ok.inj h]

/-- What holds of the catalog at any point of `ReadSystemTable`, whatever has been read before. -/
structure Reading (Q : RelationId → Attribute → Prop) (keys : List (Bytes × RelationId)) (c : Catalog) : Prop where
  wf : c.Wf
  attributes : c.Attributes Q
  keys : keys <+: c.keys

variable {ks : List (Bytes × RelationId)}

theorem Reading.readRelation (hc : c.Reading Q ks) (h : c.readRelation value = .ok c') : c'.Reading Q ks := by
  obtain ⟨r, hr, h⟩ := bind_eq_ok.1 h
  obtain rfl := Except.ok.inj h
  refine ⟨hc.wf.insertRelation r, fun r' hr' a ha => ?_, ?_⟩
  · rcases c.allRelations_insertRelation r with heq | heq
    · rw [heq] at hr'
      exact hc.attributes r' hr' a ha
    · rw [heq, mem_append, mem_singleton] at hr'
      rcases hr' with hr' | rfl
      · exact hc.attributes r' hr' a ha
      · rw [attributes_fromTuple hr] at ha
        cases ha
  · unfold Catalog.keys
    rcases c.allRelations_insertRelation r with heq | heq
    · rw [heq]
      exact hc.keys
    · rw [heq, map_append]
      exact hc.keys.trans (prefix_append _ _)

theorem keys_modify (c : Catalog) (i : Nat) (a : Attribute) :
    ({ c with allRelations := c.allRelations.modify i fun r => r.addAttribute a false } : Catalog).keys = c.keys := by
  apply ext_getElem?
  intro j
  simp only [keys, getElem?_map, getElem?_modify]
  cases c.allRelations[j]? with
  | none => rfl
  | some r => by_cases hij : i = j <;> simp [hij]

theorem Reading.readAttribute (hc : c.Reading Q ks)
    (hQ : ∀ a, Attribute.fromTuple (Cells.ofBytes value) = .ok a → Q a.relationId a)
    (h : c.readAttribute value = .ok c') : c'.Reading Q ks ∧ c'.keys = c.keys := by
  obtain ⟨a, ha, h⟩ := bind_eq_ok.1 h
  obtain ⟨i, hi, h⟩ := bind_eq_ok.1 h
  obtain rfl := Except.ok.inj h
  have hkeys := c.keys_modify i a
  refine ⟨⟨⟨hc.wf.byName.modify _ (by simp) _, hc.wf.byId.modify _ (by simp) _⟩, fun r' hr' b hb => ?_, ?_⟩, hkeys⟩
  · -- the relation that gets the attribute is the one with the attribute's relation id
    obtain ⟨r, hr, hid⟩ := (hc.wf.byId _ _).1 (getD_eq_ok.1 hi)
    obtain ⟨j, hj⟩ := mem_iff_getElem?.1 hr'
    rw [getElem?_modify] at hj
    by_cases hij : i = j
    · subst hij
      obtain rfl : r.addAttribute a false = r' := by simpa [hr] using hj
      rcases mem_addAttribute hb with rfl | hb
      · rw [Relation.id_addAttribute, hid]
        exact hQ a ha
      · rw [Relation.id_addAttribute]
        exact hc.attributes r (mem_of_getElem? hr) b hb
    · have hj : c.allRelations[j]? = some r' := by simpa [hij] using hj
      exact hc.attributes r' (mem_of_getElem? hj) b hb
  · rw [hkeys]
    exact hc.keys

theorem Reading.readSystemTable {sysClass sysAttribute : List Bytes} (hc : c.Reading Q ks)
    (hQ : ∀ value ∈ sysAttribute, ∀ a, Attribute.fromTuple (Cells.ofBytes value) = .ok a → Q a.relationId a)
    (h : c.readSystemTable sysClass sysAttribute = .ok c') : c'.Reading Q ks := by
  obtain ⟨c₁, h₁, h⟩ := bind_eq_ok.1 h
  have hc₁ := foldlM_keeps (fun _ _ _ _ hc h => Reading.readRelation hc h) hc h₁
  exact foldlM_keeps (fun _ value hmem _ hc h => (Reading.readAttribute hc (hQ value hmem) h).1) hc₁ h

def relationOf (value : Bytes) : Relation :=
  match Relation.fromTuple (Cells.ofBytes value) with
  | .ok r => r
  | .error _ => {}

theorem relationOf_eq (h : Relation.fromTuple (Cells.ofBytes value) = .ok r) : relationOf value = r := by
  rw [relationOf, h]

theorem Wf.readRelations {sysClass : List Bytes} (hc : c.Wf)
    (hdecode : ∀ value ∈ sysClass, ∃ r, Relation.fromTuple (Cells.ofBytes value) = .ok r)
    (hnames : ((c.allRelations ++ sysClass.map relationOf).map Relation.name).Nodup)
    (hids : ((c.allRelations ++ sysClass.map relationOf).map Relation.id).Nodup) :
    ∃ c', sysClass.foldlM readRelation c = .ok c' ∧ c'.Wf ∧
      c'.allRelations = c.allRelations ++ sysClass.map relationOf := by
  induction sysClass generalizing c with
  | nil => exact ⟨c, rfl, hc, by simp⟩
  | cons value sysClass ih =>
    obtain ⟨r, hr⟩ := hdecode value mem_cons_self
    rw [map_cons, relationOf_eq hr] at hnames hids ⊢
    have hn := hc.byName.eq_none_of_nodup hnames
    have hd := hc.byId.eq_none_of_nodup hids
    rw [append_cons] at hnames hids ⊢
    have hall : (c.insertRelation r).1.allRelations = c.allRelations ++ [r] := by
      rw [insertRelation_of_fresh hn hd]
    obtain ⟨c', h', hc', hall'⟩ := ih (hc.insertRelation r)
      (fun value hmem => hdecode value (mem_cons_of_mem _ hmem)) (by rwa [hall]) (by rwa [hall])
    refine ⟨c', ?_, hc', by rw [hall', hall]⟩
    rw [foldlM_cons, show c.readRelation value = .ok (c.insertRelation r).1 by simp [readRelation, hr]]
    exact h'

theorem Reading.readAttributes {sysAttribute : List Bytes} (hc : c.Reading Q ks)
    (hdecode : ∀ value ∈ sysAttribute, ∃ a, Attribute.fromTuple (Cells.ofBytes value) = .ok a ∧
      Q a.relationId a ∧ ∃ n, (n, a.relationId) ∈ c.keys) :
    ∃ c', sysAttribute.foldlM Catalog.readAttribute c = .ok c' ∧ c'.Reading Q ks ∧ c'.keys = c.keys := by
  refine foldlM_exists (P := fun c' : Catalog => c'.Reading Q ks ∧ c'.keys = c.keys) (fun c₁ value hmem ⟨hc₁, hkeys⟩ => ?_)
    ⟨hc, rfl⟩
  obtain ⟨a, ha, hQ, n, hn⟩ := hdecode value hmem
  rw [← hkeys] at hn
  obtain ⟨r, hr, -, hid⟩ := mem_keys.1 hn
  obtain ⟨i, hi⟩ : ∃ i, c₁.idRelMap a.relationId = some i := by
    by_contra hnone
    refine hc₁.wf.byId.eq_none_iff.1 (Option.eq_none_iff_forall_ne_some.2 fun i hi => hnone ⟨i, hi⟩) r hr hid
  have hstep : c₁.readAttribute value =
      .ok { c₁ with allRelations := c₁.allRelations.modify i fun r => r.addAttribute a false } := by
    simp [Catalog.readAttribute, ha, hi]
  have hQ' : ∀ a', Attribute.fromTuple (Cells.ofBytes value) = .ok a' → Q a'.relationId a' := fun a' ha' => by
    obtain rfl := Except.ok.inj (ha.symm.trans ha')
    exact hQ
  obtain ⟨hr', hk'⟩ := hc₁.readAttribute hQ' hstep
  exact ⟨_, hstep, hr', hk'.trans hkeys⟩

end Catalog

namespace CatalogStore

structure CreateCall where
  schema : TableSchema
  draws : List RelationId

def run (s : CatalogStore) (calls : List CreateCall) : Res CatalogStore :=
  calls.foldlM (fun s call => Prod.fst <$> s.createRelation call.schema call.draws) s

/-- The store after the first `Start` on a new directory. -/
def Started (s : CatalogStore) : Prop :=
  initDB = .ok s.files ∧ ∃ sysClass sysAttribute, sysClass.Perm s.files.sysClass ∧
    sysAttribute.Perm s.files.sysAttribute ∧ Catalog.empty.readSystemTable sysClass sysAttribute = .ok s.catalog

end CatalogStore

/-- What the catalog databases keep of an attribute. -/
def Attribute.stored (a : Attribute) : Bytes × AttributeId × DataType × UInt32 × UInt32 :=
  (a.name, a.id, a.dataType, a.maxLength, a.attributeIndex)

namespace CatalogStore

/-- The calls return, and in whatever order the records come back, a `Start` succeeds and finds every
created name with the same id and the same attributes. -/
def Restarts (s₀ : CatalogStore) (calls : List CreateCall) : Prop :=
  ∃ s, s₀.run calls = .ok s ∧ ∀ sysClass sysAttribute, sysClass.Perm s.files.sysClass →
    sysAttribute.Perm s.files.sysAttribute →
    ∃ c, Catalog.empty.readSystemTable sysClass sysAttribute = .ok c ∧
      ∀ call ∈ calls, ∃ r r', s.catalog.getRelation call.schema.name = some r ∧
        c.getRelation call.schema.name = some r' ∧ r'.id = r.id ∧
        r'.attributes.map Attribute.stored = r.attributes.map Attribute.stored

/-- What a schema must be for its relation to survive a restart. -/
def CreateCall.Storable (call : CreateCall) : Prop :=
  call.schema.columnList = [] ∧ call.schema.name.length ≤ 496 ∧
    call.schema.name ≠ sysClassRelation.name ∧ call.schema.name ≠ sysAttributeRelation.name

variable {s s' : CatalogStore}

theorem createRelation_eq_ok {call : CreateCall} (h : Prod.fst <$> s.createRelation call.schema call.draws = .ok s') :
    ∃ id r files, s.catalog.genRelationID call.draws = .ok id ∧ schemaRelation call.schema id = .ok r ∧
      s.files.writeRelMeta r = .ok files ∧ s' = ⟨(s.catalog.insertRelation r).1, files⟩ := by
  obtain ⟨p, hp, rfl⟩ := map_eq_ok.1 h
  unfold createRelation at hp
  obtain ⟨id, hid, hp⟩ := bind_eq_ok.1 hp
  obtain ⟨r, hr, hp⟩ := bind_eq_ok.1 hp
  obtain ⟨files, hfiles, hp⟩ := bind_eq_ok.1 hp
  obtain rfl := Except.ok.inj hp
  exact ⟨id, r, files, hid, hr, hfiles, rfl⟩

theorem run_append {calls calls' : List CreateCall} :
    s.run (calls ++ calls') = .ok s' ↔ ∃ s₁, s.run calls = .ok s₁ ∧ s₁.run calls' = .ok s' := by
  rw [run, foldlM_append]
  exact bind_eq_ok

theorem run_cons {call : CreateCall} {calls : List CreateCall} :
    s.run (call :: calls) = .ok s' ↔
      ∃ s₁, Prod.fst <$> s.createRelation call.schema call.draws = .ok s₁ ∧ s₁.run calls = .ok s' := by
  rw [run, foldlM_cons]
  exact bind_eq_ok

/-! ## The relations that are created -/

variable {schema : TableSchema} {r : Relation}

theorem schemaRelation_keys {id : RelationId} (h : schemaRelation schema id = .ok r) : r.name = schema.name ∧ r.id = id := by
  refine foldlM_keeps (P := fun r : Relation => r.name = schema.name ∧ r.id = id) (fun r col _ r' hr hr' => ?_)
    ⟨rfl, rfl⟩ h
  obtain ⟨a, -, hr'⟩ := bind_eq_ok.1 hr'
  obtain rfl := Except.ok.inj hr'
  simpa using hr

theorem schemaRelation_nil (h : schema.columnList = []) (id : RelationId) :
    schemaRelation schema id = .ok { name := schema.name, id } := by
  simp [schemaRelation, h]

theorem columnAttribute_id {col : ColumnSchema} {i : Nat} {a : Attribute} (h : columnAttribute col i = .ok a) :
    a.id = i.toUInt32 := by
  unfold columnAttribute at h
  split at h <;> cases h <;> rfl

theorem schemaRelation_of_column {id : RelationId}
    (hcols : schema.columnList ≠ []) (h : schemaRelation schema id = .ok r) : ∃ a ∈ r.attributes, a.id = 0 := by
  obtain ⟨col, cols, hcols⟩ := exists_cons_of_ne_nil hcols
  rw [schemaRelation, hcols, zipIdx_cons, foldlM_cons] at h
  obtain ⟨r₁, h₁, h⟩ := bind_eq_ok.1 h
  refine foldlM_keeps (P := fun r : Relation => ∃ a ∈ r.attributes, a.id = 0) (fun r col _ r' hr hr' => ?_) ?_ h
  · obtain ⟨a, -, hr'⟩ := bind_eq_ok.1 hr'
    obtain rfl := Except.ok.inj hr'
    obtain ⟨b, hb, hid⟩ := hr
    exact ⟨b, mem_append_left _ hb, hid⟩
  · obtain ⟨a, ha, h₁⟩ := bind_eq_ok.1 h₁
    obtain rfl := Except.ok.inj h₁
    refine ⟨_, mem_append_right _ mem_cons_self, ?_⟩
    show a.id = 0
    exact columnAttribute_id ha

theorem genRelationID_fresh {c : Catalog} {draws : List RelationId} {id : RelationId}
    (h : c.genRelationID draws = .ok id) : c.idRelMap id = none := by
  induction draws with
  | nil => cases h
  | cons d draws ih =>
    unfold Catalog.genRelationID at h
    split at h
    · next hd =>
      obtain rfl := Except.ok.inj h
      simpa using hd
    · exact ih h

theorem exists_genRelationID {c : Catalog} (hc : c.Wf) {draws : List RelationId}
    (h : c.allRelations.length < draws.dedup.length) : ∃ id, c.genRelationID draws = .ok id := by
  have hfree : ∃ d ∈ draws, c.idRelMap d = none := by
    by_contra hall
    simp only [not_exists, not_and] at hall
    have hsub : draws.dedup ⊆ c.allRelations.map Relation.id := fun d hd => by
      have hne := mt hc.byId.eq_none_iff.2 (hall d (mem_dedup.1 hd))
      simpa using hne
    have hle := (subperm_of_subset (nodup_dedup draws) hsub).length_le
    rw [length_map] at hle
    omega
  clear h
  induction draws with
  | nil => simp at hfree
  | cons d draws ih =>
    unfold Catalog.genRelationID
    split
    · exact ⟨d, rfl⟩
    · next hd =>
      obtain ⟨d', hd', hfree⟩ := hfree
      rcases mem_cons.1 hd' with rfl | hd'
      · simp [hfree] at hd
      · exact ih ⟨d', hd', hfree⟩

/-! ## The first start -/

theorem writeRelMeta_eq_ok {f f' : CatalogFiles} : f.writeRelMeta r = .ok f' ↔
    ∃ value values, r.record = .ok value ∧ r.attributes.mapM Attribute.record = .ok values ∧
      f' = ⟨f.sysClass ++ [value], f.sysAttribute ++ values⟩ := by
  simp only [CatalogFiles.writeRelMeta, bind_eq_ok]
  constructor
  · rintro ⟨value, hvalue, values, hvalues, h⟩
    exact ⟨value, values, hvalue, hvalues, (Except.ok.inj h).symm⟩
  · rintro ⟨value, values, hvalue, hvalues, rfl⟩
    exact ⟨value, hvalue, values, hvalues, rfl⟩

theorem exists_writeRelMeta (hname : r.name.length ≤ 496)
    (hattrs : ∀ a ∈ r.attributes, a.name.length ≤ 968) (f : CatalogFiles) : ∃ f', f.writeRelMeta r = .ok f' := by
  obtain ⟨value, hvalue⟩ := r.exists_record.2 hname
  obtain ⟨values, hvalues⟩ := exists_mapM fun a ha => (Attribute.exists_record a).2 (hattrs a ha)
  exact ⟨_, writeRelMeta_eq_ok.2 ⟨value, values, hvalue, hvalues, rfl⟩⟩

structure InitFiles (f : CatalogFiles) : Prop where
  sysClass : ∃ v₀ v₁, f.sysClass = [v₀, v₁] ∧ sysClassRelation.record = .ok v₀ ∧ sysAttributeRelation.record = .ok v₁
  sysAttribute : ∀ value ∈ f.sysAttribute, ∃ a : Attribute, a.record = .ok value ∧
    (a.relationId = sysClassRelation.id ∨ a.relationId = sysAttributeRelation.id)

theorem initFiles_of_initDB {f : CatalogFiles} (h : initDB = .ok f) : InitFiles f := by
  obtain ⟨f₁, h₁, h⟩ := bind_eq_ok.1 h
  obtain ⟨v₀, as₀, hv₀, has₀, rfl⟩ := writeRelMeta_eq_ok.1 h₁
  obtain ⟨v₁, as₁, hv₁, has₁, rfl⟩ := writeRelMeta_eq_ok.1 h
  refine ⟨⟨v₀, v₁, rfl, hv₀, hv₁⟩, fun value hvalue => ?_⟩
  rcases mem_append.1 hvalue with hvalue | hvalue
  · obtain ⟨a, ha, hrec⟩ := exists_of_mem_mapM has₀ (by simpa using hvalue)
    exact ⟨a, hrec, .inl ((by decide : ∀ a ∈ sysClassRelation.attributes, a.relationId = sysClassRelation.id) a ha)⟩
  · obtain ⟨a, ha, hrec⟩ := exists_of_mem_mapM has₁ hvalue
    exact ⟨a, hrec, .inr
      ((by decide : ∀ a ∈ sysAttributeRelation.attributes, a.relationId = sysAttributeRelation.id) a ha)⟩

def sysKeys : List (Bytes × RelationId) :=
  [(sysClassRelation.name, sysClassRelation.id), (sysAttributeRelation.name, sysAttributeRelation.id)]

theorem exists_initDB : ∃ f, initDB = .ok f := by
  obtain ⟨f₁, h₁⟩ := exists_writeRelMeta (r := sysClassRelation) (by decide) (by decide) ⟨[], []⟩
  obtain ⟨f₂, h₂⟩ := exists_writeRelMeta (r := sysAttributeRelation) (by decide) (by decide) f₁
  exact ⟨f₂, bind_eq_ok.2 ⟨f₁, h₁, h₂⟩⟩

variable {sysClass sysAttribute : List Bytes}

theorem readSystemTable_of_nodup {Q : RelationId → Attribute → Prop}
    (hclass : ∀ value ∈ sysClass, ∃ r : Relation, r.record = .ok value)
    (hnames : ((sysClass.map Catalog.relationOf).map Relation.name).Nodup)
    (hids : ((sysClass.map Catalog.relationOf).map Relation.id).Nodup)
    (hattr : ∀ value ∈ sysAttribute, ∃ a : Attribute, a.record = .ok value ∧
      Q a.relationId { a with id := a.misreadId, isNull := false, isVariable := false } ∧
      a.relationId ∈ (sysClass.map Catalog.relationOf).map Relation.id) :
    ∃ c, Catalog.empty.readSystemTable sysClass sysAttribute = .ok c ∧ c.Wf ∧ c.Attributes Q ∧
      c.keys = (sysClass.map Catalog.relationOf).map fun r => (r.name, r.id) := by
  have hdecode : ∀ value ∈ sysClass, ∃ r, Relation.fromTuple (Cells.ofBytes value) = .ok r := by
    intro value hmem
    obtain ⟨r, hr⟩ := hclass value hmem
    exact ⟨_, Relation.fromTuple_record hr⟩
  obtain ⟨c₁, h₁, hwf₁, hall₁⟩ := Catalog.wf_empty.readRelations hdecode
    (by simpa [Catalog.empty] using hnames) (by simpa [Catalog.empty] using hids)
  rw [show Catalog.empty.allRelations = [] from rfl, nil_append] at hall₁
  have hkeys₁ : c₁.keys = (sysClass.map Catalog.relationOf).map fun r => (r.name, r.id) := by
    rw [Catalog.keys, hall₁]
  have hattrs₁ : c₁.Attributes Q := by
    intro r hr a ha
    rw [hall₁] at hr
    obtain ⟨value, hmem, rfl⟩ := mem_map.1 hr
    obtain ⟨r, hr⟩ := hdecode value hmem
    rw [Catalog.relationOf_eq hr, Catalog.attributes_fromTuple hr] at ha
    cases ha
  have hreading : c₁.Reading Q [] := ⟨hwf₁, hattrs₁, List.nil_prefix⟩
  have hdecode' : ∀ value ∈ sysAttribute, ∃ a, Attribute.fromTuple (Cells.ofBytes value) = .ok a ∧
      Q a.relationId a ∧ ∃ n, (n, a.relationId) ∈ c₁.keys := by
    intro value hmem
    obtain ⟨a, ha, hQ, hid⟩ := hattr value hmem
    refine ⟨_, Attribute.fromTuple_record ha, hQ, ?_⟩
    obtain ⟨r, hr, hid⟩ := mem_map.1 hid
    exact ⟨r.name, Catalog.mem_keys.2 ⟨r, hall₁ ▸ hr, rfl, hid⟩⟩
  obtain ⟨c, h, hc, hkeys⟩ := hreading.readAttributes hdecode'
  exact ⟨c, bind_eq_ok.2 ⟨c₁, h₁, h⟩, hc.wf, hc.attributes, hkeys.trans hkeys₁⟩

theorem readSystemTable_of_perm {s : CatalogStore} (hwf : s.catalog.Wf)
    {Q : RelationId → Attribute → Prop} (hclass : ∀ value ∈ s.files.sysClass, ∃ r : Relation, r.record = .ok value)
    (hkeys : ((s.files.sysClass.map Catalog.relationOf).map fun r => (r.name, r.id)).Perm s.catalog.keys)
    (hpc : sysClass.Perm s.files.sysClass) (hattr : ∀ value ∈ sysAttribute, ∃ a : Attribute, a.record = .ok value ∧
      Q a.relationId { a with id := a.misreadId, isNull := false, isVariable := false } ∧
      ∃ r ∈ s.catalog.allRelations, r.id = a.relationId) :
    ∃ c, Catalog.empty.readSystemTable sysClass sysAttribute = .ok c ∧ c.Wf ∧ c.Attributes Q ∧
      c.keys.Perm s.catalog.keys := by
  have hkeys' := ((hpc.map Catalog.relationOf).map fun r => (r.name, r.id)).trans hkeys
  have hnames : ((sysClass.map Catalog.relationOf).map Relation.name).Perm (s.catalog.allRelations.map Relation.name) := by
    simpa [Catalog.keys, Function.comp_def] using hkeys'.map Prod.fst
  have hids : ((sysClass.map Catalog.relationOf).map Relation.id).Perm (s.catalog.allRelations.map Relation.id) := by
    simpa [Catalog.keys, Function.comp_def] using hkeys'.map Prod.snd
  obtain ⟨c, hc, hcwf, hattrs, hck⟩ := readSystemTable_of_nodup (Q := Q)
    (fun value hmem => hclass value (hpc.mem_iff.1 hmem))
    (hnames.nodup_iff.2 hwf.byName.nodup) (hids.nodup_iff.2 hwf.byId.nodup)
    (fun value hmem => by
      obtain ⟨a, ha, hQ, r, hr, hid⟩ := hattr value hmem
      exact ⟨a, ha, hQ, hids.mem_iff.2 (mem_map.2 ⟨r, hr, hid⟩)⟩)
  exact ⟨c, hc, hcwf, hattrs, hck ▸ hkeys'⟩

theorem relationOf_record {value : Bytes} (h : r.record = .ok value) :
    Catalog.relationOf value = { name := r.name, id := r.id } :=
  Catalog.relationOf_eq (Relation.fromTuple_record h)

theorem InitFiles.readSystemTable {f : CatalogFiles} (hfiles : InitFiles f)
    (hpc : sysClass.Perm f.sysClass) (hpa : sysAttribute.Perm f.sysAttribute) :
    ∃ c, Catalog.empty.readSystemTable sysClass sysAttribute = .ok c ∧ c.Wf ∧ c.keys.Perm sysKeys := by
  obtain ⟨v₀, v₁, hclass, hv₀, hv₁⟩ := hfiles.sysClass
  rw [hclass] at hpc
  have hkeys : ((sysClass.map Catalog.relationOf).map fun r => (r.name, r.id)).Perm sysKeys := by
    refine ((hpc.map Catalog.relationOf).map fun r => (r.name, r.id)).trans ?_
    simp [relationOf_record hv₀, relationOf_record hv₁, sysKeys]
  have hnames : ((sysClass.map Catalog.relationOf).map Relation.name).Nodup := by
    have := hkeys.map Prod.fst
    rw [map_map] at this
    exact this.nodup_iff.2 (by decide)
  have hids : ((sysClass.map Catalog.relationOf).map Relation.id).Perm [0, 1] := by
    have := hkeys.map Prod.snd
    rw [map_map] at this
    exact this
  obtain ⟨c, hc, hwf, -, hck⟩ := readSystemTable_of_nodup (Q := fun _ _ => True)
    (fun value hmem => by
      rcases mem_cons.1 (hpc.mem_iff.1 hmem) with rfl | hmem
      · exact ⟨_, hv₀⟩
      · exact ⟨_, mem_singleton.1 hmem ▸ hv₁⟩)
    hnames (hids.nodup_iff.2 (by decide))
    (fun value hmem => by
      obtain ⟨a, ha, hid⟩ := hfiles.sysAttribute value (hpa.mem_iff.1 hmem)
      refine ⟨a, ha, trivial, hids.mem_iff.2 ?_⟩
      rcases hid with hid | hid <;> rw [hid] <;> decide)
  exact ⟨c, hc, hwf, hck ▸ hkeys⟩

theorem Started.catalog {s : CatalogStore} (h : s.Started) : s.catalog.Wf ∧ s.catalog.keys.Perm sysKeys := by
  obtain ⟨hinit, sysClass, sysAttribute, hpc, hpa, hread⟩ := h
  obtain ⟨c, hc, hwf, hkeys⟩ := (initFiles_of_initDB hinit).readSystemTable hpc hpa
  obtain rfl := Except.ok.inj (hc.symm.trans hread)
  exact ⟨hwf, hkeys⟩

theorem exists_started : ∃ s, Started s := by
  obtain ⟨f, hf⟩ := exists_initDB
  obtain ⟨c, hc, -⟩ := (initFiles_of_initDB hf).readSystemTable (.refl _) (.refl _)
  exact ⟨⟨c, f⟩, hf, f.sysClass, f.sysAttribute, .refl _, .refl _, hc⟩

/-! ## Runs -/

structure Running (s₀ s : CatalogStore) (names : List Bytes) : Prop where
  wf : s.catalog.Wf
  keeps : s₀.catalog.allRelations <+: s.catalog.allRelations
  names : ∀ r ∈ s.catalog.allRelations, r ∈ s₀.catalog.allRelations ∨ r.name ∈ names
  sysAttribute : ∀ value ∈ s.files.sysAttribute, ∃ a : Attribute, a.record = .ok value

variable {s₀ s s' : CatalogStore} {names : List Bytes} {calls : List CreateCall} {call : CreateCall}

theorem running_start (h : s₀.Started) : Running s₀ s₀ [] where
  wf := h.catalog.1
  keeps := prefix_refl _
  names _ hr := .inl hr
  sysAttribute value hmem :=
    let ⟨a, ha, _⟩ := (initFiles_of_initDB h.1).sysAttribute value hmem
    ⟨a, ha⟩

theorem Running.createRelation (hs : Running s₀ s names) (h : Prod.fst <$> s.createRelation call.schema call.draws = .ok s') :
    Running s₀ s' (call.schema.name :: names) := by
  obtain ⟨id, r, files, -, hr, hfiles, rfl⟩ := createRelation_eq_ok h
  obtain ⟨value, values, -, hvalues, rfl⟩ := writeRelMeta_eq_ok.1 hfiles
  have hname := (schemaRelation_keys hr).1
  refine ⟨hs.wf.insertRelation r, ?_, fun r' hr' => ?_, fun v hv => ?_⟩
  · rcases s.catalog.allRelations_insertRelation r with heq | heq
    · exact heq ▸ hs.keeps
    · exact heq ▸ hs.keeps.trans (prefix_append _ _)
  · have hold : ∀ r' ∈ s.catalog.allRelations, r' ∈ s₀.catalog.allRelations ∨ r'.name ∈ call.schema.name :: names :=
      fun r' hr' => (hs.names r' hr').imp_right (mem_cons_of_mem _)
    rcases s.catalog.allRelations_insertRelation r with heq | heq
    · exact hold r' (heq ▸ hr')
    · rcases mem_append.1 (heq ▸ hr') with hr' | hr'
      · exact hold r' hr'
      · rw [mem_singleton.1 hr', hname]
        exact .inr mem_cons_self
  · rcases mem_append.1 hv with hv | hv
    · exact hs.sysAttribute v hv
    · obtain ⟨a, -, ha⟩ := exists_of_mem_mapM hvalues hv
      exact ⟨a, ha⟩

theorem Running.run (hs : Running s₀ s names) (h : s.run calls = .ok s') :
    Running s₀ s' ((calls.map fun call => call.schema.name).reverse ++ names) := by
  induction calls generalizing s names with
  | nil =>
    obtain rfl := Except.ok.inj h
    exact hs
  | cons call calls ih =>
    obtain ⟨s₁, h₁, h⟩ := run_cons.1 h
    simpa using ih (hs.createRelation h₁) h

theorem sysClass_subset_run (h : s.run calls = .ok s') : s.files.sysClass ⊆ s'.files.sysClass := by
  refine foldlM_keeps (P := fun s' : CatalogStore => s.files.sysClass ⊆ s'.files.sysClass)
    (fun s₁ call _ s₂ hsub h => ?_) (List.Subset.refl _) h
  obtain ⟨id, r, files, -, -, hfiles, rfl⟩ := createRelation_eq_ok h
  obtain ⟨value, values, -, -, rfl⟩ := writeRelMeta_eq_ok.1 hfiles
  exact subset_append_of_subset_left _ hsub

/-- The trace a call leaves in a run: its record, under an id that was not in use at the start, and its
relation, unless the name was taken at the start. -/
theorem exists_created (h₀ : s₀.Started) (hnames : (calls.map fun call => call.schema.name).Nodup)
    (hrun : s₀.run calls = .ok s) (hcall : call ∈ calls) :
    ∃ id r value, schemaRelation call.schema id = .ok r ∧ r.record = .ok value ∧ value ∈ s.files.sysClass ∧
      (∀ r' ∈ s₀.catalog.allRelations, r'.id ≠ id) ∧
      ((∀ r' ∈ s₀.catalog.allRelations, r'.name ≠ call.schema.name) →
        s.catalog.getRelation call.schema.name = some r) := by
  obtain ⟨pre, post, rfl⟩ := append_of_mem hcall
  obtain ⟨s₁, h₁, h₂⟩ := run_append.1 hrun
  obtain ⟨s₂, hcreate, h₂⟩ := run_cons.1 h₂
  have hr₁ := (running_start h₀).run h₁
  have hr₂ := hr₁.createRelation hcreate
  obtain ⟨id, r, files, hid, hr, hfiles, rfl⟩ := createRelation_eq_ok hcreate
  obtain ⟨value, values, hvalue, -, rfl⟩ := writeRelMeta_eq_ok.1 hfiles
  have hfresh := genRelationID_fresh hid
  obtain ⟨hname, hrid⟩ := schemaRelation_keys hr
  refine ⟨id, r, value, hr, hvalue, sysClass_subset_run h₂ (by simp), fun r' hr' => ?_, fun hnew => ?_⟩
  · exact hr₁.wf.byId.eq_none_iff.1 hfresh r' (hr₁.keeps.subset hr')
  · -- neither the start nor the calls before registered the name
    have hfree : s₁.catalog.nameRelMap r.name = none := by
      refine hr₁.wf.byName.eq_none_iff.2 fun r' hr' heq => ?_
      rcases hr₁.names r' hr' with hold | hold
      · exact hnew r' hold (heq.trans hname)
      · rw [heq, hname, append_nil, mem_reverse] at hold
        rw [map_append, map_cons, nodup_append] at hnames
        exact hnames.2.2 _ hold _ mem_cons_self rfl
    have hmem : r ∈ (s₁.catalog.insertRelation r).1.allRelations := by
      rw [Catalog.insertRelation_of_fresh hfree (hrid ▸ hfresh)]
      exact mem_append_right _ mem_cons_self
    have hlater : Running ⟨(s₁.catalog.insertRelation r).1, _⟩ _ [] :=
      ⟨hr₂.wf, prefix_refl _, fun _ h => .inl h, hr₂.sysAttribute⟩
    have hend := hlater.run h₂
    exact hend.wf.getRelation_eq_some.2 ⟨hend.keeps.subset hmem, hname⟩

theorem mem_sysKeys (h₀ : s₀.Started) {n : Bytes} {d : RelationId} (h : (n, d) ∈ sysKeys) :
    (n, d) ∈ s₀.catalog.keys :=
  h₀.catalog.2.mem_iff.2 h

/-- Nobody can have a catalog relation's name: the record that comes back first gets it. -/
theorem not_restarts_of_sysName (h₀ : s₀.Started) (hnames : (calls.map fun call => call.schema.name).Nodup)
    (hcall : call ∈ calls) {d : RelationId} (hsys : (call.schema.name, d) ∈ sysKeys) : ¬ Restarts s₀ calls := by
  rintro ⟨s, hrun, hrestart⟩
  obtain ⟨id, r, value, hr, hvalue, hmem, hid, -⟩ := exists_created h₀ hnames hrun hcall
  obtain ⟨hname, hrid⟩ := schemaRelation_keys hr
  have hrun' := (running_start h₀).run hrun
  obtain ⟨c, hc, hfound⟩ := hrestart _ _ (perm_cons_erase hmem).symm (.refl _)
  obtain ⟨r₀, r', hr₀, hr', heq, -⟩ := hfound call hcall
  -- before the restart the name is the catalog relation's
  have hbefore : r₀.id = d := by
    obtain ⟨r₁, hr₁, hn₁, hd₁⟩ := Catalog.mem_keys.1 (mem_sysKeys h₀ hsys)
    exact hrun'.wf.id_of_mem_keys (Catalog.mem_keys.2 ⟨r₁, hrun'.keeps.subset hr₁, hn₁, hd₁⟩) hr₀
  -- after it, the created relation's
  have hafter : r'.id = id := by
    let c₁ := (Catalog.empty.insertRelation { name := r.name, id := r.id }).1
    have hfirst : Catalog.empty.readRelation value = .ok c₁ := by
      simp [Catalog.readRelation, Relation.fromTuple_record hvalue, c₁]
    have hrest : c₁.readSystemTable (s.files.sysClass.erase value) s.files.sysAttribute = .ok c := by
      rw [Catalog.readSystemTable, foldlM_cons, hfirst] at hc
      exact hc
    have hreading : c₁.Reading (fun _ _ => True) [(r.name, r.id)] :=
      ⟨Catalog.wf_empty.insertRelation _, fun _ _ _ _ => trivial, prefix_refl _⟩
    have hend := hreading.readSystemTable (fun _ _ _ _ => trivial) hrest
    rw [← hrid]
    exact hend.wf.id_of_mem_keys (hend.keys.subset mem_cons_self) (hname ▸ hr')
  obtain ⟨r₁, hr₁, -, hd₁⟩ := Catalog.mem_keys.1 (mem_sysKeys h₀ hsys)
  exact hid r₁ hr₁ (by rw [hd₁, ← hbefore, ← heq, hafter])

theorem misreadId_ge {a : Attribute} (h : a.name.length ≤ 968) : 524288 ≤ a.misreadId.toNat := by
  simp [Attribute.misreadId]
  omega

theorem not_restarts_of_column (h₀ : s₀.Started) (hnames : (calls.map fun call => call.schema.name).Nodup)
    (hcall : call ∈ calls) (hnew : ∀ d, (call.schema.name, d) ∉ sysKeys) (hcols : call.schema.columnList ≠ []) :
    ¬ Restarts s₀ calls := by
  rintro ⟨s, hrun, hrestart⟩
  obtain ⟨id, r, value, hr, -, -, -, hfound⟩ := exists_created h₀ hnames hrun hcall
  have hrun' := (running_start h₀).run hrun
  obtain ⟨c, hc, hsame⟩ := hrestart _ _ (.refl _) (.refl _)
  obtain ⟨r₀, r', hr₀, hr', -, hattrs⟩ := hsame call hcall
  have hr₀' := hfound fun r' hr' heq => by
    have hmem := Catalog.mem_keys.2 ⟨r', hr', heq, rfl⟩
    exact hnew _ (h₀.catalog.2.mem_iff.1 hmem)
  obtain rfl := Option.some.inj (hr₀.symm.trans hr₀')
  obtain ⟨a, ha, hzero⟩ := schemaRelation_of_column hcols hr
  -- an attribute that was read from its record has a large id
  have hreading : Catalog.empty.Reading (fun _ a => 524288 ≤ a.id.toNat) [] :=
    ⟨Catalog.wf_empty, by simp [Catalog.Attributes, Catalog.empty], List.nil_prefix⟩
  have hend := hreading.readSystemTable (fun value hmem b hb => by
    obtain ⟨a, ha⟩ := hrun'.sysAttribute value hmem
    obtain rfl := Except.ok.inj (hb.symm.trans (Attribute.fromTuple_record ha))
    exact misreadId_ge (a.exists_record.1 ⟨value, ha⟩)) hc
  obtain ⟨a', ha', hstored⟩ : ∃ a' ∈ r'.attributes, a'.stored = a.stored := by
    have := mem_map_of_mem (f := Attribute.stored) ha
    rw [← hattrs] at this
    exact mem_map.1 this
  have hid : a'.id = 0 := by
    rw [← hzero]
    exact congrArg (fun p => p.2.1) hstored
  have hlarge := hend.attributes r' (hend.wf.getRelation_eq_some.1 hr').1 a' ha'
  rw [hid] at hlarge
  exact absurd hlarge (by decide)

/-- A run of calls that can be stored: the records of the relations are those of the relations in
memory, and there are no attributes but the catalog's own. -/
structure Plain (s₀ s : CatalogStore) (names : List Bytes) : Prop extends Running s₀ s names where
  sysAttribute_eq : s.files.sysAttribute = s₀.files.sysAttribute
  sysClass : ∀ value ∈ s.files.sysClass, ∃ r : Relation, r.record = .ok value
  keys : ((s.files.sysClass.map Catalog.relationOf).map fun r => (r.name, r.id)).Perm s.catalog.keys

theorem plain_start (h₀ : s₀.Started) : Plain s₀ s₀ [] where
  toRunning := running_start h₀
  sysAttribute_eq := rfl
  sysClass value hmem := by
    obtain ⟨v₀, v₁, hclass, hv₀, hv₁⟩ := (initFiles_of_initDB h₀.1).sysClass
    rw [hclass] at hmem
    rcases mem_cons.1 hmem with rfl | hmem
    · exact ⟨_, hv₀⟩
    · exact ⟨_, mem_singleton.1 hmem ▸ hv₁⟩
  keys := by
    obtain ⟨v₀, v₁, hclass, hv₀, hv₁⟩ := (initFiles_of_initDB h₀.1).sysClass
    refine .trans ?_ h₀.catalog.2.symm
    simp [hclass, relationOf_record hv₀, relationOf_record hv₁, sysKeys]

theorem Plain.createRelation (hs : Plain s₀ s names) (hcall : call.Storable)
    (hfree : s.catalog.nameRelMap call.schema.name = none) (hdraws : s.catalog.allRelations.length < call.draws.dedup.length) :
    ∃ s', Prod.fst <$> s.createRelation call.schema call.draws = .ok s' ∧ Plain s₀ s' (call.schema.name :: names) ∧
      s'.catalog.allRelations.length = s.catalog.allRelations.length + 1 := by
  obtain ⟨id, hid⟩ := exists_genRelationID hs.wf hdraws
  have hr := schemaRelation_nil hcall.1 id
  obtain ⟨value, hvalue⟩ := (Relation.exists_record { name := call.schema.name, id }).2 hcall.2.1
  have hfiles : s.files.writeRelMeta { name := call.schema.name, id } =
      .ok ⟨s.files.sysClass ++ [value], s.files.sysAttribute ++ []⟩ :=
    writeRelMeta_eq_ok.2 ⟨value, [], hvalue, rfl, rfl⟩
  have hcreate : Prod.fst <$> s.createRelation call.schema call.draws =
      .ok ⟨(s.catalog.insertRelation { name := call.schema.name, id }).1,
        ⟨s.files.sysClass ++ [value], s.files.sysAttribute ++ []⟩⟩ := by
    simp only [CatalogStore.createRelation, hid, hr, hfiles, ok_bind]
    rfl
  have hinsert := Catalog.insertRelation_of_fresh (r := { name := call.schema.name, id }) hfree (genRelationID_fresh hid)
  refine ⟨_, hcreate, ⟨hs.toRunning.createRelation hcreate, ?_, ?_, ?_⟩, ?_⟩
  · simpa using hs.sysAttribute_eq
  · intro v hv
    rcases mem_append.1 hv with hv | hv
    · exact hs.sysClass v hv
    · exact ⟨_, mem_singleton.1 hv ▸ hvalue⟩
  · simp only [map_append, hinsert, Catalog.keys, map_cons, map_nil, relationOf_record hvalue]
    exact hs.keys.append_right _
  · simp [hinsert]

theorem CreateCall.Storable.not_mem_sysKeys (hcall : call.Storable) (d : RelationId) :
    (call.schema.name, d) ∉ sysKeys := by
  simp only [sysKeys, mem_cons, Prod.mk.injEq, not_mem_nil, or_false]
  rintro (⟨hsys, -⟩ | ⟨hsys, -⟩)
  · exact hcall.2.2.1 hsys
  · exact hcall.2.2.2 hsys

theorem Plain.run (h₀ : s₀.Started) (hs : Plain s₀ s names) (hcalls : ∀ call ∈ calls, call.Storable)
    (hnames : ((calls.map fun call => call.schema.name) ++ names).Nodup)
    (hdraws : ∀ call ∈ calls, s.catalog.allRelations.length + calls.length ≤ call.draws.dedup.length) :
    ∃ s' names', s.run calls = .ok s' ∧ Plain s₀ s' names' := by
  induction calls generalizing s names with
  | nil => exact ⟨s, names, rfl, hs⟩
  | cons call calls ih =>
    have hcall := hcalls call mem_cons_self
    simp only [map_cons, cons_append, nodup_cons] at hnames
    have hfree : s.catalog.nameRelMap call.schema.name = none := by
      refine hs.wf.byName.eq_none_iff.2 fun r hr heq => ?_
      rcases hs.names r hr with hold | hold
      · have hsys := h₀.catalog.2.mem_iff.1 (Catalog.mem_keys.2 ⟨r, hold, rfl, rfl⟩)
        exact hcall.not_mem_sysKeys _ (heq ▸ hsys)
      · exact hnames.1 (mem_append_right _ (heq ▸ hold))
    have hlen := hdraws call mem_cons_self
    simp only [length_cons] at hlen hdraws
    obtain ⟨s₁, h₁, hs₁, hlen₁⟩ := hs.createRelation hcall hfree (by omega)
    obtain ⟨s', names', h', hs'⟩ := ih hs₁ (fun c hc => hcalls c (mem_cons_of_mem _ hc))
      (nodup_middle.2 (nodup_cons.2 hnames)) fun c hc => by
        have := hdraws c (mem_cons_of_mem _ hc)
        omega
    exact ⟨s', names', run_cons.2 ⟨s₁, h₁, h'⟩, hs'⟩

theorem restarts_of_storable (h₀ : s₀.Started) (hnames : (calls.map fun call => call.schema.name).Nodup)
    (hdraws : ∀ call ∈ calls, calls.length + 2 ≤ call.draws.dedup.length)
    (hcalls : ∀ call ∈ calls, call.Storable) : Restarts s₀ calls := by
  have hlen : s₀.catalog.allRelations.length = 2 := by
    have := h₀.catalog.2.length_eq
    simpa [Catalog.keys, sysKeys] using this
  obtain ⟨s, names, hrun, hs⟩ := (plain_start h₀).run h₀ hcalls (by simpa using hnames) fun call hcall => by
    have := hdraws call hcall
    omega
  refine ⟨s, hrun, fun sysClass sysAttribute hpc hpa => ?_⟩
  have hsysId : ∀ {d}, d = sysClassRelation.id ∨ d = sysAttributeRelation.id →
      ∃ r ∈ s₀.catalog.allRelations, r.id = d := by
    rintro d (rfl | rfl)
    · obtain ⟨r, hr, -, hid⟩ := Catalog.mem_keys.1 (mem_sysKeys h₀ mem_cons_self)
      exact ⟨r, hr, hid⟩
    · obtain ⟨r, hr, -, hid⟩ := Catalog.mem_keys.1 (mem_sysKeys h₀ (mem_cons_of_mem _ mem_cons_self))
      exact ⟨r, hr, hid⟩
  obtain ⟨c, hc, hwf, hattrs, hck⟩ := readSystemTable_of_perm
    (Q := fun d _ => d = sysClassRelation.id ∨ d = sysAttributeRelation.id) hs.wf hs.sysClass hs.keys hpc
    (fun value hmem => by
      rw [hpa.mem_iff, hs.sysAttribute_eq] at hmem
      obtain ⟨a, ha, hid⟩ := (initFiles_of_initDB h₀.1).sysAttribute value hmem
      obtain ⟨r, hr, hrid⟩ := hsysId hid
      exact ⟨a, ha, hid, r, hs.keeps.subset hr, hrid⟩)
  refine ⟨c, hc, fun call hcall => ?_⟩
  obtain ⟨id, r, value, hr, -, -, hnew, hfound⟩ := exists_created h₀ hnames hrun hcall
  obtain rfl := Except.ok.inj ((schemaRelation_nil (hcalls call hcall).1 id).symm.trans hr)
  have hbefore := hfound fun r' hr' heq => by
    have hsys := h₀.catalog.2.mem_iff.1 (Catalog.mem_keys.2 ⟨r', hr', rfl, rfl⟩)
    exact (hcalls call hcall).not_mem_sysKeys _ (heq ▸ hsys)
  have hmem : (call.schema.name, id) ∈ c.keys := by
    rw [hck.mem_iff]
    exact Catalog.mem_keys.2 ⟨_, (hs.wf.getRelation_eq_some.1 hbefore).1, rfl, rfl⟩
  obtain ⟨r', hr', hn', hd'⟩ := Catalog.mem_keys.1 hmem
  refine ⟨_, r', hbefore, hwf.getRelation_eq_some.2 ⟨hr', hn'⟩, hd', ?_⟩
  -- an attribute would make the relation one of the catalog's
  have hnil : r'.attributes = [] := eq_nil_iff_forall_not_mem.2 fun a ha => by
    obtain ⟨r₁, hr₁, hid₁⟩ := hsysId (hattrs r' hr' a ha)
    exact hnew r₁ hr₁ (hid₁.trans hd')
  rw [hnil]

/-- Created relations survive a restart exactly when none of them has columns, a name that does not
fit its record, or the name of a catalog relation. -/
theorem restarts_iff (h₀ : s₀.Started) (hnames : (calls.map fun call => call.schema.name).Nodup)
    (hdraws : ∀ call ∈ calls, calls.length + 2 ≤ call.draws.dedup.length) :
    Restarts s₀ calls ↔ ∀ call ∈ calls, call.Storable := by
  refine ⟨fun h call hcall => ?_, restarts_of_storable h₀ hnames hdraws⟩
  have hsys : ∀ d, (call.schema.name, d) ∉ sysKeys := fun d hd => not_restarts_of_sysName h₀ hnames hcall hd h
  refine ⟨?_, ?_, fun heq => ?_, fun heq => ?_⟩
  · by_contra hcols
    exact not_restarts_of_column h₀ hnames hcall hsys hcols h
  · obtain ⟨s, hrun, -⟩ := h
    obtain ⟨id, r, value, hr, hvalue, -⟩ := exists_created h₀ hnames hrun hcall
    rw [← (schemaRelation_keys hr).1]
    exact r.exists_record.1 ⟨value, hvalue⟩
  · exact hsys sysClassRelation.id (by simp [heq, sysKeys])
  · exact hsys sysAttributeRelation.id (by simp [heq, sysKeys])

theorem restarts_empty_tables : ∃ s₀, Started s₀ ∧
    Restarts s₀ [⟨⟨ascii "t", []⟩, [0, 1, 2, 3]⟩, ⟨⟨ascii "u", []⟩, [0, 1, 2, 3]⟩] := by
  obtain ⟨s₀, h₀⟩ := exists_started
  refine ⟨s₀, h₀, (restarts_iff h₀ (by decide) (by decide)).2 ?_⟩
  simp only [forall_mem_cons, CreateCall.Storable]
  decide

/-- A table with one integer column. -/
theorem not_restarts_integer_column : ∃ s₀, Started s₀ ∧
    ¬ Restarts s₀ [⟨⟨ascii "t", [⟨ascii "a", .integer, 0, true⟩]⟩, [0, 1, 2]⟩] := by
  obtain ⟨s₀, h₀⟩ := exists_started
  refine ⟨s₀, h₀, not_restarts_of_column h₀ (by decide) mem_cons_self (fun d => ?_) (by decide)⟩
  have hclass : ascii "t" ≠ sysClassRelation.name := by decide
  have hattr : ascii "t" ≠ sysAttributeRelation.name := by decide
  simp [sysKeys, hclass, hattr]

end CatalogStore

end Dbms18
