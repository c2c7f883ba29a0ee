import Mathlib.Data.Finset.Max
import Mathlib.Data.List.Sort
import Dbms18.Common.Relation

/-!
# Attributes added out of order (`Relation::AddAttribute`)

`AddAttribute(a, false)` puts an attribute before the first one with a larger index. Where there is none
the attribute is lost, so the attributes of a list come out sorted and complete exactly if the first one
has the largest index (`addAttributes_sorted_iff`).
-/

namespace Dbms18

open List

namespace Relation

variable {a b : Attribute} {as l : List Attribute}

/-- `AddAttribute(a, false)` for every attribute of a list. -/
def addAttributes (r : Relation) (as : List Attribute) : Relation := as.foldl (fun r a => r.addAttribute a false) r

/-! ## One attribute -/

/-- What `AddAttribute(a, false)` makes of the attributes. -/
def placeByIndex (l : List Attribute) (a : Attribute) : List Attribute := if l.isEmpty then [a] else insertByIndex a l

theorem addAttribute_eq (r : Relation) (a : Attribute) :
    r.addAttribute a false = { r with attributes := placeByIndex r.attributes { a with relationId := r.id } } := by
  unfold addAttribute placeByIndex
  split <;> [contradiction; split <;> rfl]

theorem addAttributes_eq (r : Relation) (as : List Attribute) : r.addAttributes as =
    { r with attributes := (as.map fun a => { a with relationId := r.id }).foldl placeByIndex r.attributes } := by
  induction as generalizing r with
  | nil => rfl
  | cons a as ih =>
    rw [addAttributes, foldl_cons, ← addAttributes, ih, addAttribute_eq]
    rfl

theorem insertByIndex_of_le (h : ∀ b ∈ l, b.attributeIndex ≤ a.attributeIndex) : insertByIndex a l = l := by
  induction l with
  | nil => rfl
  | cons b l ih =>
    rw [forall_mem_cons] at h
    rw [insertByIndex, if_neg (UInt32.not_lt.2 h.1), ih h.2]

theorem mem_insertByIndex (h : b ∈ insertByIndex a l) : b = a ∨ b ∈ l := by
  induction l with
  | nil => cases h
  | cons x l ih =>
    unfold insertByIndex at h
    split at h
    · simpa using h
    · rcases mem_cons.1 h with rfl | h
      · exact .inr mem_cons_self
      · exact (ih h).imp_right (mem_cons_of_mem _)

def ByIndex (a b : Attribute) : Prop := a.attributeIndex ≤ b.attributeIndex

instance : DecidableRel ByIndex := fun a b => inferInstanceAs (Decidable (a.attributeIndex ≤ b.attributeIndex))

instance : Std.Total ByIndex := ⟨fun _ _ => UInt32.le_total _ _⟩

instance : IsTrans Attribute ByIndex := ⟨fun _ _ _ => UInt32.le_trans⟩

theorem insertByIndex_eq_orderedInsert (hne : ∀ b ∈ l, b.attributeIndex ≠ a.attributeIndex)
    (hlt : ∃ b ∈ l, a.attributeIndex < b.attributeIndex) : insertByIndex a l = l.orderedInsert ByIndex a := by
  induction l with
  | nil =>
    obtain ⟨b, hb, -⟩ := hlt
    cases hb
  | cons b l ih =>
    obtain ⟨hb, hne⟩ := forall_mem_cons.1 hne
    by_cases hab : a.attributeIndex < b.attributeIndex
    · rw [insertByIndex, if_pos hab, orderedInsert_cons_of_le ByIndex l (UInt32.le_of_lt hab)]
    · have hnot : ¬ ByIndex a b := fun hle => hab (UInt32.lt_of_le_of_ne hle hb.symm)
      have hlt' : ∃ b ∈ l, a.attributeIndex < b.attributeIndex :=
        ((exists_mem_cons_iff _ _ _).1 hlt).resolve_left hab
      rw [insertByIndex, if_neg hab, orderedInsert_of_not_le ByIndex l hnot, ih hne hlt']

/-! ## A list of attributes -/

theorem foldl_placeByIndex_lt {m : UInt32} (hl : l ≠ []) (hlt : ∀ b ∈ l, b.attributeIndex < m)
    (has : ∀ a ∈ as, a.attributeIndex ≤ m) : ∀ b ∈ as.foldl placeByIndex l, b.attributeIndex < m := by
  induction as generalizing l with
  | nil => exact hlt
  | cons a as ih =>
    obtain ⟨ha, has⟩ := forall_mem_cons.1 has
    have hplace : placeByIndex l a = insertByIndex a l := if_neg (by simpa using hl)
    rw [foldl_cons, hplace]
    rcases UInt32.lt_or_eq_of_le ha with ha | ha
    · have hne : insertByIndex a l ≠ [] := by
        obtain ⟨b, l, rfl⟩ := exists_cons_of_ne_nil hl
        rw [insertByIndex]
        split <;> simp
      exact ih hne (fun b hb => (mem_insertByIndex hb).elim (fun h => h ▸ ha) (hlt b)) has
    · rw [insertByIndex_of_le fun b hb => UInt32.le_of_lt (ha ▸ hlt b hb)]
      exact ih hl hlt has

theorem foldl_placeByIndex {top : Attribute} (htop : top ∈ l) (has : ∀ a ∈ as, a.attributeIndex < top.attributeIndex)
    (hnodup : ((l ++ as).map Attribute.attributeIndex).Nodup) (hsorted : l.Pairwise ByIndex) :
    (as.foldl placeByIndex l).Perm (l ++ as) ∧ (as.foldl placeByIndex l).Pairwise ByIndex := by
  induction as generalizing l with
  | nil => exact ⟨by simp, hsorted⟩
  | cons a as ih =>
    obtain ⟨ha, has⟩ := forall_mem_cons.1 has
    have hne : ∀ b ∈ l, b.attributeIndex ≠ a.attributeIndex := by
      rw [map_append, nodup_append] at hnodup
      exact fun b hb => hnodup.2.2 _ (mem_map_of_mem hb) _ (by simp)
    have hplace : placeByIndex l a = l.orderedInsert ByIndex a := by
      rw [← insertByIndex_eq_orderedInsert hne ⟨top, htop, ha⟩]
      exact if_neg (by simpa using ne_nil_of_mem htop)
    have hperm : (l.orderedInsert ByIndex a ++ as).Perm (l ++ a :: as) :=
      ((l.perm_orderedInsert ByIndex a).append_right as).trans perm_middle.symm
    have htop' : top ∈ l.orderedInsert ByIndex a := (mem_orderedInsert ByIndex).2 (.inr htop)
    obtain ⟨hperm', hsorted'⟩ := ih htop' has ((hperm.map _).nodup_iff.2 hnodup) (hsorted.orderedInsert a l)
    rw [foldl_cons, hplace]
    exact ⟨hperm'.trans hperm, hsorted'⟩

/-- The attributes `as` are all there, in the order of their indexes. -/
def SortedOf (l as : List Attribute) : Prop :=
  l.Perm as ∧ l.Pairwise fun a b => a.attributeIndex < b.attributeIndex

theorem SortedOf.le_head (h : SortedOf ((a :: as).foldl placeByIndex []) (a :: as)) :
    ∀ b ∈ a :: as, b.attributeIndex ≤ a.attributeIndex := by
  obtain ⟨m, hm, hmax⟩ := Finset.exists_max_image (a :: as).toFinset (·.attributeIndex.toNat) ⟨a, by simp⟩
  simp only [mem_toFinset, ← UInt32.le_iff_toNat_le] at hm hmax
  suffices hle : m.attributeIndex ≤ a.attributeIndex from fun b hb => UInt32.le_trans (hmax b hb) hle
  refine UInt32.not_lt.1 fun hlt => UInt32.lt_irrefl m.attributeIndex ?_
  refine foldl_placeByIndex_lt (cons_ne_nil a []) (forall_mem_singleton.2 hlt) ?_ m (h.1.mem_iff.2 hm)
  exact fun b hb => hmax b (mem_cons_of_mem _ hb)

theorem sortedOf_of_le_head (hnodup : ((a :: as).map Attribute.attributeIndex).Nodup)
    (hle : ∀ b ∈ a :: as, b.attributeIndex ≤ a.attributeIndex) : SortedOf ((a :: as).foldl placeByIndex []) (a :: as) := by
  have hlt : ∀ b ∈ as, b.attributeIndex < a.attributeIndex := fun b hb =>
    UInt32.lt_of_le_of_ne (hle b (mem_cons_of_mem _ hb)) fun heq =>
      (nodup_cons.1 hnodup).1 (heq ▸ mem_map_of_mem hb)
  obtain ⟨hperm, hsorted⟩ := foldl_placeByIndex (mem_singleton_self a) hlt hnodup (pairwise_singleton _ a)
  have hdistinct := pairwise_map.1 ((hperm.map Attribute.attributeIndex).nodup_iff.2 hnodup)
  exact ⟨hperm, hsorted.imp₂ (fun _ _ hle hne => UInt32.lt_of_le_of_ne hle hne) hdistinct⟩

/-- Attributes with distinct indexes, added one by one to a relation without attributes. -/
theorem addAttributes_sorted_iff (name : Bytes) (id : RelationId) (as : List Attribute)
    (hdistinct : (as.map Attribute.attributeIndex).Nodup) :
    SortedOf (addAttributes { name, id } as).attributes (as.map fun a => { a with relationId := id }) ↔
      ∀ a, as.head? = some a → ∀ b ∈ as, b.attributeIndex ≤ a.attributeIndex := by
  rw [addAttributes_eq]
  cases as with
  | nil =>
    refine ⟨?_, fun _ => ⟨.nil, .nil⟩⟩
    rintro - _ ⟨⟩
  | cons a as =>
    have hmap : ((a :: as).map fun b => { b with relationId := id }).map Attribute.attributeIndex =
        (a :: as).map Attribute.attributeIndex := map_map
    constructor
    · rintro h _ ⟨⟩
      have hle : ∀ b ∈ (a :: as).map (fun b => { b with relationId := id }), b.attributeIndex ≤ a.attributeIndex :=
        SortedOf.le_head h
      exact forall_mem_map.1 hle
    · intro h
      have hle : ∀ b ∈ (a :: as).map (fun b => { b with relationId := id }), b.attributeIndex ≤ a.attributeIndex :=
        forall_mem_map.2 (h a rfl)
      exact sortedOf_of_le_head (hmap ▸ hdistinct) hle

theorem addAttributes_sorted_iff_threeColumns :
    SortedOf (addAttributes {} [{ name := [99], attributeIndex := 2 }, { name := [97] },
        { name := [98], attributeIndex := 1 }]).attributes
      [{ name := [99], attributeIndex := 2 }, { name := [97] }, { name := [98], attributeIndex := 1 }] := by
  refine (addAttributes_sorted_iff [] 0 _ (by decide)).2 ?_
  rintro _ ⟨⟩
  decide

/-- Two columns in their order: the second one is lost. -/
theorem not_sorted_twoColumns :
    (addAttributes {} [{ name := [97] }, { name := [98], attributeIndex := 1 }]).attributes = [{ name := [97] }] ∧
    ¬ SortedOf (addAttributes {} [{ name := [97] }, { name := [98], attributeIndex := 1 }]).attributes
      [{ name := [97] }, { name := [98], attributeIndex := 1 }] := by
  refine ⟨rfl, fun h => ?_⟩
  cases h.1.length_eq

end Relation

end Dbms18
