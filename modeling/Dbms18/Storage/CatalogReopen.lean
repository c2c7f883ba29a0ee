import Dbms18.Storage.CatalogClash

/-!
# `Stop` and `Start` on one store

`Stop` closes the databases and keeps the maps, so the next `Start` reads every record into a catalog
that has it already. The records of the relations are dropped for it. The record of an attribute is
inserted once more, before the first attribute with a larger index: the catalog stays as it is exactly
when no relation has an attribute with a larger index than one of its records (`reopens_iff`).
-/

namespace Dbms18

open Res List

/-- The relation has attributes, and `AddAttribute(a, false)` finds no place among them for `a`. -/
def Relation.Full (r : Relation) (a : Attribute) : Prop :=
  r.attributes ≠ [] ∧ ∀ b ∈ r.attributes, b.attributeIndex ≤ a.attributeIndex

instance (r : Relation) (a : Attribute) : Decidable (r.Full a) := inferInstanceAs (Decidable (_ ∧ _))

theorem Relation.length_insertByIndex (a : Attribute) (as : List Attribute) :
    (insertByIndex a as).length = as.length + if ∀ b ∈ as, b.attributeIndex ≤ a.attributeIndex then 0 else 1 := by
  induction as with
  | nil => rfl
  | cons b as ih =>
    unfold insertByIndex
    split
    · next hlt => simp [UInt32.not_le.2 hlt]
    · next hle => simp [UInt32.not_lt.1 hle, ih]; omega

theorem Relation.Full.addAttribute {r : Relation} {a : Attribute} (h : r.Full a) : r.addAttribute a false = r := by
  have hsame : insertByIndex { a with relationId := r.id } r.attributes = r.attributes := insertByIndex_of_le h.2
  unfold Relation.addAttribute
  simp only [Bool.false_eq_true, if_false, List.isEmpty_iff, h.1, hsame]

theorem Relation.length_addAttribute (r : Relation) (a : Attribute) :
    (r.addAttribute a false).attributes.length = r.attributes.length + if r.Full a then 0 else 1 := by
  unfold Relation.addAttribute
  simp only [Bool.false_eq_true, if_false, List.isEmpty_iff]
  split
  · next hnil => simp [Relation.Full, hnil]
  · next hne => simp [Relation.Full, hne, length_insertByIndex]

namespace Catalog

variable {c c' : Catalog} {r r' : Relation} {value : Bytes}

def attributeOf (value : Bytes) : Attribute :=
  match Attribute.fromTuple (Cells.ofBytes value) with
  | .ok a => a
  | .error _ => { name := [] }

/-- The relation of the attribute is registered and has no place for it. -/
def Settled (c : Catalog) (a : Attribute) : Prop := ∃ r ∈ c.allRelations, r.id = a.relationId ∧ r.Full a

instance (c : Catalog) (a : Attribute) : Decidable (c.Settled a) := inferInstanceAs (Decidable (∃ r ∈ _, _ ∧ _))

/-- `InsertRelation` drops a relation with the name or the id of one that is registered. -/
def Taken (c : Catalog) (r : Relation) : Prop := c.nameRelMap r.name ≠ none ∨ c.idRelMap r.id ≠ none

theorem insertRelation_of_taken (h : c.Taken r) : (c.insertRelation r).1 = c := by
  rcases c.insertRelation_cases r with heq | ⟨hn, hd⟩
  · exact heq
  · exact absurd h (not_or.2 ⟨not_not.2 hn, not_not.2 hd⟩)

theorem taken_insertRelation (c : Catalog) (r : Relation) : (c.insertRelation r).1.Taken r := by
  by_cases h : c.Taken r
  · rwa [insertRelation_of_taken h]
  · obtain ⟨hn, hd⟩ := not_or.1 h
    rw [insertRelation_of_fresh (not_not.1 hn) (not_not.1 hd)]
    exact .inl (by simp)

theorem Taken.insertRelation (h : c.Taken r) (r' : Relation) : (c.insertRelation r').1.Taken r := by
  rcases c.insertRelation_cases r' with heq | ⟨hn, hd⟩
  · rwa [heq]
  · rw [insertRelation_of_fresh hn hd]
    refine h.imp (fun h => ?_) (fun h => ?_)
    · have hne : r.name ≠ r'.name := fun heq => h (heq ▸ hn)
      simpa only [Function.update_of_ne hne] using h
    · have hne : r.id ≠ r'.id := fun heq => h (heq ▸ hd)
      simpa only [Function.update_of_ne hne] using h

theorem readAttribute_eq_ok : c.readAttribute value = .ok c' ↔
    ∃ a i, Attribute.fromTuple (Cells.ofBytes value) = .ok a ∧ c.idRelMap a.relationId = some i ∧
      c' = { c with allRelations := c.allRelations.modify i fun r => r.addAttribute a false } := by
  simp only [readAttribute, bind_eq_ok, getD_eq_ok]
  constructor
  · rintro ⟨a, ha, i, hi, h⟩
    exact ⟨a, i, ha, hi, (Except.ok.inj h).symm⟩
  · rintro ⟨a, i, ha, hi, rfl⟩
    exact ⟨a, ha, i, hi, rfl⟩

theorem Taken.readRelations {sysClass : List Bytes} (h : sysClass.foldlM readRelation c = .ok c')
    (hr : c.Taken r ∨ ∃ value ∈ sysClass, Relation.fromTuple (Cells.ofBytes value) = .ok r) : c'.Taken r := by
  induction sysClass generalizing c with
  | nil =>
    obtain rfl := Except.ok.inj h
    simpa using hr
  | cons value sysClass ih =>
    rw [foldlM_cons] at h
    obtain ⟨c₁, h₁, h⟩ := bind_eq_ok.1 h
    obtain ⟨r₁, hr₁, h₁⟩ := bind_eq_ok.1 h₁
    obtain rfl := Except.ok.inj h₁
    refine ih h ?_
    rcases hr with hr | ⟨v, hv, hr⟩
    · exact .inl (hr.insertRelation r₁)
    · rcases mem_cons.1 hv with rfl | hv
      · obtain rfl := Except.ok.inj (hr.symm.trans hr₁)
        exact .inl (c.taken_insertRelation _)
      · exact .inr ⟨v, hv, hr⟩

theorem taken_of_readSystemTable {sysClass sysAttribute : List Bytes}
    (h : c.readSystemTable sysClass sysAttribute = .ok c') (hmem : value ∈ sysClass)
    (hr : Relation.fromTuple (Cells.ofBytes value) = .ok r) : c'.Taken r := by
  obtain ⟨c₁, h₁, h⟩ := bind_eq_ok.1 h
  refine foldlM_keeps (P := fun c : Catalog => c.Taken r) (fun c₂ value _ c₃ htaken h => ?_)
    (Taken.readRelations h₁ (.inr ⟨value, hmem, hr⟩)) h
  obtain ⟨a, i, -, -, rfl⟩ := readAttribute_eq_ok.1 h
  exact htaken

theorem Settled.readAttribute (hc : c.Wf) {a : Attribute} (ha : Attribute.fromTuple (Cells.ofBytes value) = .ok a)
    (h : c.Settled a) : c.readAttribute value = .ok c := by
  obtain ⟨r, hr, hid, hfull⟩ := h
  obtain ⟨i, hi⟩ := mem_iff_getElem?.1 hr
  refine readAttribute_eq_ok.2 ⟨a, i, ha, (hc.byId _ _).2 ⟨r, hi, hid⟩, ?_⟩
  have hsame : c.allRelations.modify i (fun r => r.addAttribute a false) = c.allRelations := by
    apply ext_getElem?
    intro j
    rw [getElem?_modify]
    by_cases hij : i = j
    · subst hij
      simp [hi, hfull.addAttribute]
    · simp [hij]
  rw [hsame]

def Exceeds (c : Catalog) (n : Bytes) (k : Nat) : Prop := ∃ r ∈ c.allRelations, r.name = n ∧ k < r.attributes.length

theorem Exceeds.readAttribute {n : Bytes} {k : Nat} (hc : c.Exceeds n k) (h : c.readAttribute value = .ok c') :
    c'.Exceeds n k := by
  obtain ⟨r, hr, hn, hk⟩ := hc
  obtain ⟨a, i, -, -, rfl⟩ := readAttribute_eq_ok.1 h
  obtain ⟨j, hj⟩ := mem_iff_getElem?.1 hr
  by_cases hij : i = j
  · subst hij
    refine ⟨r.addAttribute a false, mem_of_getElem? (i := i) (by simp [hj]), by simpa using hn, ?_⟩
    rw [Relation.length_addAttribute]
    omega
  · exact ⟨r, mem_of_getElem? (i := j) (by simp [hij, hj]), hn, hk⟩

theorem exceeds_of_not_settled (hc : c.Wf) {a : Attribute} (ha : Attribute.fromTuple (Cells.ofBytes value) = .ok a)
    (hplace : ¬ c.Settled a) (h : c.readAttribute value = .ok c') :
    ∃ r ∈ c.allRelations, c'.Exceeds r.name r.attributes.length := by
  obtain ⟨a', i, ha', hi, rfl⟩ := readAttribute_eq_ok.1 h
  obtain rfl := Except.ok.inj (ha.symm.trans ha')
  obtain ⟨r, hr, hid⟩ := (hc.byId _ _).1 hi
  have hfull : ¬ r.Full a := fun hfull => hplace ⟨r, mem_of_getElem? hr, hid, hfull⟩
  refine ⟨r, mem_of_getElem? hr, r.addAttribute a false, mem_of_getElem? (i := i) (by simp [hr]), by simp, ?_⟩
  simp [Relation.length_addAttribute, hfull]

def SameRelations (c c' : Catalog) : Prop :=
  ∀ n, (c'.getRelation n).map (fun r => (r.id, r.attributes)) = (c.getRelation n).map fun r => (r.id, r.attributes)

theorem not_sameRelations_of_exceeds (hc : c.Wf) (hc' : c'.Wf) (hr : r ∈ c.allRelations)
    (h : c'.Exceeds r.name r.attributes.length) : ¬ c.SameRelations c' := by
  intro hsame
  obtain ⟨r', hr', hname, hlt⟩ := h
  have heq := hsame r.name
  rw [hc.getRelation_eq_some.2 ⟨hr, rfl⟩, hc'.getRelation_eq_some.2 ⟨hr', hname⟩] at heq
  rw [(Prod.mk.inj (Option.some.inj heq)).2] at hlt
  exact Nat.lt_irrefl _ hlt

theorem Wf.readAttribute (hc : c.Wf) (h : c.readAttribute value = .ok c') : c'.Wf :=
  (Reading.readAttribute (Q := fun _ _ => True) ⟨hc, fun _ _ _ _ => trivial, List.nil_prefix⟩ (fun _ _ => trivial) h).1.wf

theorem settled_of_sameRelations (hc : c.Wf) {sysAttribute : List Bytes}
    (hdecode : ∀ value ∈ sysAttribute, ∃ a, Attribute.fromTuple (Cells.ofBytes value) = .ok a)
    (h : sysAttribute.foldlM readAttribute c = .ok c') (hsame : c.SameRelations c') :
    ∀ value ∈ sysAttribute, c.Settled (attributeOf value) := by
  induction sysAttribute with
  | nil => simp
  | cons value sysAttribute ih =>
    rw [forall_mem_cons] at hdecode ⊢
    obtain ⟨a, ha⟩ := hdecode.1
    rw [foldlM_cons] at h
    obtain ⟨c₁, h₁, h⟩ := bind_eq_ok.1 h
    by_cases hsettled : c.Settled a
    · obtain rfl := Except.ok.inj ((hsettled.readAttribute hc ha).symm.trans h₁)
      exact ⟨by rwa [attributeOf, ha], ih hdecode.2 h⟩
    · -- what was added stays until the end
      obtain ⟨r, hr, hexceeds⟩ := exceeds_of_not_settled hc ha hsettled h₁
      have hend := foldlM_keeps (P := fun c : Catalog => c.Wf ∧ c.Exceeds r.name r.attributes.length)
        (fun c₂ value _ c₃ hc₂ h => ⟨hc₂.1.readAttribute h, hc₂.2.readAttribute h⟩)
        ⟨hc.readAttribute h₁, hexceeds⟩ h
      exact absurd hsame (not_sameRelations_of_exceeds hc hend.1 hr hend.2)

end Catalog

namespace CatalogStore

variable {s s' : CatalogStore} {sysClass sysAttribute : List Bytes} {call : CreateCall} {calls : List CreateCall}

/-- `Stop` and then `Start` on the same store, where the databases iterate the records as given. -/
def reopen (s : CatalogStore) (sysClass sysAttribute : List Bytes) : Res CatalogStore := do
  let c ← s.catalog.readSystemTable sysClass sysAttribute
  return { s with catalog := c }

/-- The states of a store, over any number of processes. -/
inductive Reachable : CatalogStore → Prop
  | start {s : CatalogStore} (h : s.Started) : Reachable s
  | create {s s' : CatalogStore} {call : CreateCall} (h : Reachable s)
      (hcreate : Prod.fst <$> s.createRelation call.schema call.draws = .ok s') : Reachable s'
  | reopen {s s' : CatalogStore} {sysClass sysAttribute : List Bytes} (h : Reachable s)
      (hpc : sysClass.Perm s.files.sysClass) (hpa : sysAttribute.Perm s.files.sysAttribute)
      (hreopen : s.reopen sysClass sysAttribute = .ok s') : Reachable s'
  | restart {s : CatalogStore} {c : Catalog} {sysClass sysAttribute : List Bytes} (h : Reachable s)
      (hpc : sysClass.Perm s.files.sysClass) (hpa : sysAttribute.Perm s.files.sysAttribute)
      (hread : Catalog.empty.readSystemTable sysClass sysAttribute = .ok c) : Reachable ⟨c, s.files⟩

/-- Every record can be read, and its relation is registered or would be dropped. -/
structure Loaded (s : CatalogStore) : Prop where
  wf : s.catalog.Wf
  sysClass : ∀ value ∈ s.files.sysClass, ∃ r, Relation.fromTuple (Cells.ofBytes value) = .ok r ∧ s.catalog.Taken r
  sysAttribute : ∀ value ∈ s.files.sysAttribute, ∃ a, Attribute.fromTuple (Cells.ofBytes value) = .ok a

theorem loaded_of_readSystemTable {c c' : Catalog} {f : CatalogFiles} (hc : c.Wf)
    (hclass : ∀ value ∈ f.sysClass, ∃ r, Relation.fromTuple (Cells.ofBytes value) = .ok r)
    (hattr : ∀ value ∈ f.sysAttribute, ∃ a, Attribute.fromTuple (Cells.ofBytes value) = .ok a)
    (hpc : sysClass.Perm f.sysClass) (h : c.readSystemTable sysClass sysAttribute = .ok c') : Loaded ⟨c', f⟩ where
  wf := (Catalog.Reading.readSystemTable (Q := fun _ _ => True) ⟨hc, fun _ _ _ _ => trivial, List.nil_prefix⟩
    (fun _ _ _ _ => trivial) h).wf
  sysClass value hmem := by
    obtain ⟨r, hr⟩ := hclass value hmem
    exact ⟨r, hr, Catalog.taken_of_readSystemTable h (hpc.mem_iff.2 hmem) hr⟩
  sysAttribute := hattr

theorem Loaded.decodes (hs : s.Loaded) : ∀ value ∈ s.files.sysClass, ∃ r, Relation.fromTuple (Cells.ofBytes value) = .ok r :=
  fun value hmem => (hs.sysClass value hmem).imp fun _ h => h.1

theorem loaded_of_started (h : s.Started) : s.Loaded := by
  have hrecorded := recorded_of_started h
  obtain ⟨-, sysClass, sysAttribute, hpc, -, hread⟩ := h
  refine loaded_of_readSystemTable Catalog.wf_empty (fun value hmem => ?_) (fun value hmem => ?_) hpc hread
  · obtain ⟨r, hr⟩ := hrecorded.sysClass value hmem
    exact ⟨_, Relation.fromTuple_record hr⟩
  · obtain ⟨a, ha, -⟩ := hrecorded.sysAttribute value hmem
    exact ⟨_, Attribute.fromTuple_record ha⟩

theorem Loaded.createRelation (hs : s.Loaded)
    (h : Prod.fst <$> s.createRelation call.schema call.draws = .ok s') : s'.Loaded := by
  obtain ⟨id, r, files, -, -, hfiles, rfl⟩ := createRelation_eq_ok h
  obtain ⟨value, values, hvalue, hvalues, rfl⟩ := writeRelMeta_eq_ok.1 hfiles
  refine ⟨hs.wf.insertRelation r, fun v hv => ?_, fun v hv => ?_⟩
  · rcases mem_append.1 hv with hv | hv
    · obtain ⟨r', hr', htaken⟩ := hs.sysClass v hv
      exact ⟨r', hr', htaken.insertRelation r⟩
    · rw [mem_singleton.1 hv]
      exact ⟨_, Relation.fromTuple_record hvalue, s.catalog.taken_insertRelation r⟩
  · rcases mem_append.1 hv with hv | hv
    · exact hs.sysAttribute v hv
    · obtain ⟨a, -, ha⟩ := exists_of_mem_mapM hvalues hv
      exact ⟨_, Attribute.fromTuple_record ha⟩

theorem reopen_eq_ok : s.reopen sysClass sysAttribute = .ok s' ↔
    ∃ c, s.catalog.readSystemTable sysClass sysAttribute = .ok c ∧ s' = ⟨c, s.files⟩ := by
  simp only [reopen, bind_eq_ok]
  exact exists_congr fun c => and_congr_right fun _ => ⟨fun h => (Except.ok.inj h).symm, fun h => by rw [h]; rfl⟩

theorem Reachable.loaded (h : Reachable s) : s.Loaded := by
  induction h with
  | start h => exact loaded_of_started h
  | create _ hcreate ih => exact ih.createRelation hcreate
  | reopen _ hpc _ hreopen ih =>
    obtain ⟨c, hread, rfl⟩ := reopen_eq_ok.1 hreopen
    exact loaded_of_readSystemTable ih.wf ih.decodes ih.sysAttribute hpc hread
  | restart _ hpc _ hread ih => exact loaded_of_readSystemTable Catalog.wf_empty ih.decodes ih.sysAttribute hpc hread

theorem Loaded.readRelations (hs : s.Loaded) (hpc : sysClass.Perm s.files.sysClass) :
    sysClass.foldlM Catalog.readRelation s.catalog = .ok s.catalog := by
  obtain ⟨c, hc, rfl⟩ := foldlM_exists (g := Catalog.readRelation) (P := (· = s.catalog))
    (fun c value hmem heq => by
      obtain ⟨r, hr, htaken⟩ := hs.sysClass value (hpc.mem_iff.1 hmem)
      subst heq
      refine ⟨_, ?_, Catalog.insertRelation_of_taken htaken⟩
      rw [Catalog.readRelation, hr]
      rfl) rfl
  exact hc

/-- After `Stop` and `Start` every name gives the same id and the same attributes exactly when every
attribute record belongs to a relation that has attributes, none of them with a larger index. -/
theorem reopens_iff (h : Reachable s) (hpc : sysClass.Perm s.files.sysClass) (hpa : sysAttribute.Perm s.files.sysAttribute) :
    (∃ s', s.reopen sysClass sysAttribute = .ok s' ∧ s.catalog.SameRelations s'.catalog) ↔
      ∀ value ∈ s.files.sysAttribute, s.catalog.Settled (Catalog.attributeOf value) := by
  have hs := h.loaded
  have hread : s.catalog.readSystemTable sysClass sysAttribute = sysAttribute.foldlM Catalog.readAttribute s.catalog := by
    rw [Catalog.readSystemTable, hs.readRelations hpc, ok_bind]
  constructor
  · rintro ⟨s', hreopen, hsame⟩ value hmem
    obtain ⟨c, hc, rfl⟩ := reopen_eq_ok.1 hreopen
    exact Catalog.settled_of_sameRelations hs.wf (fun value hmem => hs.sysAttribute value (hpa.mem_iff.1 hmem))
      (hread ▸ hc) hsame value (hpa.mem_iff.2 hmem)
  · intro hsettled
    obtain ⟨c, hc, rfl⟩ := foldlM_exists (g := Catalog.readAttribute) (P := (· = s.catalog)) (l := sysAttribute)
      (fun c value hmem heq => by
        obtain ⟨a, ha⟩ := hs.sysAttribute value (hpa.mem_iff.1 hmem)
        have hvalue := hsettled value (hpa.mem_iff.1 hmem)
        rw [Catalog.attributeOf, ha] at hvalue
        subst heq
        exact ⟨_, hvalue.readAttribute hs.wf ha, rfl⟩) rfl
    exact ⟨s, reopen_eq_ok.2 ⟨_, hread ▸ hc, rfl⟩, fun _ => rfl⟩

theorem Reachable.run (h : Reachable s) (hrun : s.run calls = .ok s') : Reachable s' :=
  foldlM_keeps (P := Reachable) (fun _ _ _ _ h hcreate => h.create hcreate) h hrun

set_option maxRecDepth 100000 in
theorem reopens_one_column : ∃ s, Reachable s ∧ s.catalog.getRelation (ascii "t") ≠ none ∧
    ∃ s', s.reopen s.files.sysClass s.files.sysAttribute = .ok s' ∧ s.catalog.SameRelations s'.catalog := by
  have hends : ends [createOne "t" 2] (fun s => (s.catalog.getRelation (ascii "t")).isSome &&
      s.files.sysAttribute.all fun value => s.catalog.Settled (Catalog.attributeOf value)) = .ok true := by
    decide +kernel
  obtain ⟨s₀, s, h₀, hrun, hsettled⟩ := exists_ends hends
  rw [Bool.and_eq_true] at hsettled
  refine ⟨s, (Reachable.start h₀).run hrun, Option.isSome_iff_ne_none.1 hsettled.1, ?_⟩
  exact (reopens_iff ((Reachable.start h₀).run hrun) (.refl _) (.refl _)).2 (by simpa using hsettled.2)

/-- `CREATE TABLE t (a INTEGER, b INTEGER)`. -/
def createTwo : CreateCall := ⟨⟨ascii "t", [⟨ascii "a", .integer, 0, true⟩, ⟨ascii "b", .integer, 0, true⟩]⟩, [2]⟩

def columnNames (s : CatalogStore) (n : Bytes) : Option (List Bytes) :=
  (s.catalog.getRelation n).map fun r => r.attributes.map Attribute.name

def reopensTo (names : List Bytes) (s : CatalogStore) : Bool :=
  match s.reopen s.files.sysClass s.files.sysAttribute with
  | .ok s' => s'.columnNames (ascii "t") = some names
  | .error _ => false

set_option maxRecDepth 100000 in
/-- A table with two columns has three after `Stop` and `Start`. -/
theorem not_reopens_two_columns : ∃ s s', Reachable s ∧ s.columnNames (ascii "t") = some [ascii "a", ascii "b"] ∧
    s.reopen s.files.sysClass s.files.sysAttribute = .ok s' ∧
    s'.columnNames (ascii "t") = some [ascii "a", ascii "a", ascii "b"] ∧ ¬ s.catalog.SameRelations s'.catalog := by
  have hends : ends [createTwo] (fun s => s.columnNames (ascii "t") = some [ascii "a", ascii "b"] &&
      reopensTo [ascii "a", ascii "a", ascii "b"] s) = .ok true := by
    decide +kernel
  obtain ⟨s₀, s, h₀, hrun, hnames⟩ := exists_ends hends
  rw [Bool.and_eq_true, decide_eq_true_iff] at hnames
  obtain ⟨hbefore, hafter⟩ := hnames
  unfold reopensTo at hafter
  split at hafter
  · next s' hreopen =>
    rw [decide_eq_true_iff] at hafter
    refine ⟨s, s', (Reachable.start h₀).run hrun, hbefore, hreopen, hafter, fun hsame => ?_⟩
    have heq := congrArg (Option.map fun p => p.2.map Attribute.name) (hsame (ascii "t"))
    simp only [Option.map_map, Function.comp_def] at heq
    rw [columnNames] at hbefore hafter
    rw [hbefore, hafter] at heq
    exact absurd heq (by decide)
  · cases hafter

end CatalogStore

end Dbms18
