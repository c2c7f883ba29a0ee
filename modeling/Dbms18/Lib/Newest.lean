import Dbms18.Lib.Versions

/-!
# The newest version of a key

Entries about the same key are versions of it, and one of two of them is the newer one. Wherever the entries are kept
and in whatever order, a reader finds of a key what the newest of the entries says that it sees (`Finds`). Entries that
are newer than others may be put with them (`Finds.append`), and entries may be dropped that are older than one that
stays, or that is a deletion with nothing left for it to hide (`Finds.replace`). Where the newer versions come first,
what a reader finds is what it looks up (`Finds.lookup_eq`).
-/

namespace Dbms18.Versions

open List

variable {E K V : Type} (shows : E → Option (K × Option V)) (newer : E → E → Prop)

/-- The reader sees the entry, and it is about `k`. -/
def Sees (k : K) (e : E) : Prop := ∃ o, shows e = some (k, o)

structure Newest (k : K) (es : List E) (e : E) : Prop where
  mem : e ∈ es
  sees : Sees shows k e
  newest : ∀ e' ∈ es, Sees shows k e' → e' = e ∨ newer e e'

inductive Finds (k : K) (es : List E) : Option V → Prop
  | newest {e : E} {o : Option V} (h : Newest shows newer k es e) (he : shows e = some (k, o)) : Finds k es o
  | none (h : ∀ e ∈ es, ¬ Sees shows k e) : Finds k es none

variable {shows newer} {k : K} {o : Option V} {A B C es es' : List E} {e : E}

theorem Newest.of_subset (h : Newest shows newer k es e) (he : e ∈ es') (hsub : ∀ e' ∈ es', e' ∈ es) :
    Newest shows newer k es' e :=
  ⟨he, h.sees, fun e' he' => h.newest e' (hsub e' he')⟩

theorem Finds.of_mem_iff (h : Finds shows newer k es o) (hiff : ∀ e, e ∈ es' ↔ e ∈ es) : Finds shows newer k es' o := by
  cases h with
  | newest h he => exact .newest (h.of_subset ((hiff _).2 h.mem) fun e' => (hiff e').1) he
  | none h => exact .none fun e he => h e ((hiff e).1 he)

theorem mem_append_of_replaced (hsub : ∀ c ∈ C, c ∈ B) (he : e ∈ A ++ C) : e ∈ A ++ B :=
  (mem_append.1 he).elim (mem_append_left B) fun he => mem_append_right A (hsub e he)

/-- If `B` becomes `C`, only a newest entry that was in `B` may not be found any more. -/
theorem Finds.of_replaced (hsub : ∀ c ∈ C, c ∈ B) (h : Finds shows newer k (A ++ B) o)
    (hB : ∀ e, e ∉ A → Newest shows newer k (A ++ B) e → Newest shows newer k B e → shows e = some (k, o) →
      Finds shows newer k (A ++ C) o) : Finds shows newer k (A ++ C) o := by
  cases h with
  | none h => exact .none fun e he => h e (mem_append_of_replaced hsub he)
  | @newest e _ h he =>
    by_cases hA : e ∈ A
    · exact .newest (h.of_subset (mem_append_left _ hA) fun _ => mem_append_of_replaced hsub) he
    · exact hB e hA h (h.of_subset ((mem_append.1 h.mem).resolve_left hA) fun e' => mem_append_right A) he

/-- Entries that are newer than others go before them, whatever has become of the others. -/
theorem Finds.append (hasymm : ∀ e e', newer e e' → ¬ newer e' e)
    (hnewer : ∀ a ∈ A, ∀ b ∈ B, Sees shows k a → Sees shows k b → newer a b) (hsub : ∀ c ∈ C, c ∈ B)
    (hfinds : ∀ o, Finds shows newer k B o → Finds shows newer k C o) (h : Finds shows newer k (A ++ B) o) :
    Finds shows newer k (A ++ C) o := by
  refine h.of_replaced hsub fun e hA hAB hB he => ?_
  -- of the newer entries none is about the key
  have hnone : ∀ a ∈ A, ¬ Sees shows k a := by
    intro a ha hsees
    rcases hAB.newest a (mem_append_left _ ha) hsees with rfl | hnew
    · exact hA ha
    · exact hasymm _ _ hnew (hnewer a ha e hB.mem hsees hAB.sees)
  cases hfinds o (.newest hB he) with
  | newest h' he' =>
    refine .newest ⟨mem_append_right _ h'.mem, h'.sees, fun e' he'' hsees => ?_⟩ he'
    exact h'.newest e' ((mem_append.1 he'').resolve_left fun ha => hnone e' ha hsees) hsees
  | none h' => exact .none (forall_mem_append.2 ⟨hnone, h'⟩)

/-- `C` may stand for `B`, beside `A`: it has the newest entry of `B`, or this one was a deletion, the entries of `A` are
newer and nothing is left. -/
theorem Finds.replace (hasymm : ∀ e e', newer e e' → ¬ newer e' e) (hirrefl : ∀ e, ¬ newer e e) (hsub : ∀ c ∈ C, c ∈ B)
    (hnewest : ∀ e, Newest shows newer k B e → e ∈ C ∨ shows e = some (k, Option.none) ∧
      (∀ a ∈ A, Sees shows k a → newer a e) ∧ ∀ c ∈ C, ¬ Sees shows k c)
    (h : Finds shows newer k (A ++ B) o) : Finds shows newer k (A ++ C) o := by
  refine h.of_replaced hsub fun e _ hAB hB he => ?_
  rcases hnewest e hB with hC | ⟨hdeletion, hA, hC⟩
  · exact .newest (hAB.of_subset (mem_append_right _ hC) fun _ => mem_append_of_replaced hsub) he
  · obtain rfl : o = Option.none := (Prod.mk.inj (Option.some.inj (he.symm.trans hdeletion))).2
    refine .none (forall_mem_append.2 ⟨fun e' he' hsees => ?_, hC⟩)
    have hnew := hA e' he' hsees
    rcases hAB.newest e' (mem_append_left _ he') hsees with rfl | hold
    · exact hirrefl _ hnew
    · exact hasymm _ _ hnew hold

variable [DecidableEq K]

theorem Finds.lookup_eq (hirrefl : ∀ e, ¬ newer e e) (hasymm : ∀ e e', newer e e' → ¬ newer e' e)
    (hes : es.Pairwise fun e e' => Sees shows k e → Sees shows k e' → newer e e')
    (h : Finds shows newer k es o) : (lookup shows k es).join = o := by
  cases h with
  | none h =>
    rw [lookup_eq_none fun e he o hs => h e he ⟨o, hs⟩]
    rfl
  | @newest e _ h he =>
    obtain ⟨A, B, rfl⟩ := append_of_mem h.mem
    have hbefore : ∀ a ∈ A, ¬ Sees shows k a := by
      intro a ha hsees
      have hlt := (pairwise_append.1 hes).2.2 a ha e mem_cons_self hsees h.sees
      rcases h.newest a (mem_append_left _ ha) hsees with rfl | hnew
      · exact hirrefl _ hlt
      · exact hasymm _ _ hnew hlt
    rw [lookup_append, lookup_eq_none fun a ha o hs => hbefore a ha ⟨o, hs⟩, Option.none_or, lookup_cons_of_some he,
      if_pos rfl]
    rfl

theorem finds_lookup (hes : es.Pairwise fun e e' => Sees shows k e → Sees shows k e' → newer e e') :
    Finds shows newer k es (lookup shows k es).join := by
  induction es with
  | nil => exact .none (by simp)
  | cons e es ih =>
    obtain ⟨hfirst, hrest⟩ := pairwise_cons.1 hes
    by_cases hsees : Sees shows k e
    · obtain ⟨o, ho⟩ := hsees
      rw [lookup_cons_of_some ho, if_pos rfl]
      refine .newest ⟨mem_cons_self, ⟨o, ho⟩, fun e' he' hsees' => ?_⟩ ho
      rcases mem_cons.1 he' with rfl | he'
      · exact .inl rfl
      · exact .inr (hfirst e' he' ⟨o, ho⟩ hsees')
    · have hlookup : lookup shows k (e :: es) = lookup shows k es := by
        rw [lookup_cons, if_neg, Option.none_or]
        exact fun hseen => hsees (seen_singleton.1 hseen)
      have hfinds := ih hrest
      rw [hlookup]
      generalize (lookup shows k es).join = o at hfinds ⊢
      cases hfinds with
      | newest h he =>
        refine .newest ⟨mem_cons_of_mem _ h.mem, h.sees, fun e' he' hsees' => ?_⟩ he
        rcases mem_cons.1 he' with rfl | he'
        · exact absurd hsees' hsees
        · exact h.newest e' he' hsees'
      | none h =>
        refine .none fun e' he' hsees' => ?_
        rcases mem_cons.1 he' with rfl | he'
        · exact hsees hsees'
        · exact h e' he' hsees'

end Dbms18.Versions
