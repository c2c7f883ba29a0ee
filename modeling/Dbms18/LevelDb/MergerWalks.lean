import Mathlib.Data.List.Nodup
import Dbms18.LevelDb.Merger

/-!
# The merging iterator walks over the merged entries

If every child walks over entries of its own, all in order and no key in two of them, then the merging iterator walks
over the entries of all children in order, in both directions and when the direction changes.

All entries are cut in two where the merging iterator stands. A child stands at the border if it is on its first
entry behind the cut, and before the border if it is on its last entry before the cut.
-/

namespace Dbms18.LevelDb

open Res List Std Iter

variable {σ K V : Type} {it : Iter σ K V} {cmp : K → K → Ordering}

/-! ## Wrappers -/

namespace IteratorWrapper

structure WrapsAt (it : Iter σ K V) (cmp : K → K → Ordering) (es : List (K × V)) (w : IteratorWrapper σ K) (i : Nat) :
    Prop where
  inner : it.StandsAt cmp es w.iter i
  valid : w.valid = decide (i < es.length)
  key : ∀ e, es[i]? = some e → w.key = some e.1

variable {es : List (K × V)} {i : Nat} {s : σ}

theorem update_eq (h : it.StandsAt cmp es s i) (key : Option K) : ∃ w, update it key s = .ok w ∧ WrapsAt it cmp es w i := by
  have hvalid := walks_standsAt.valid h
  by_cases hi : i < es.length
  · have hkey := walks_standsAt.key h (getElem?_eq_getElem hi)
    rw [decide_eq_true hi] at hvalid
    refine ⟨⟨s, true, some es[i].1⟩, by rw [update, hvalid, if_pos rfl, hkey]; rfl, h, (decide_eq_true hi).symm, fun e he => ?_⟩
    rw [getElem?_eq_getElem hi] at he
    rw [Option.some.inj he]
  · rw [decide_eq_false hi] at hvalid
    refine ⟨⟨s, false, key⟩, by rw [update, hvalid]; rfl, h, (decide_eq_false hi).symm, fun e he => ?_⟩
    exact absurd (List.getElem?_eq_some_iff.1 he).1 hi

theorem walks_asIter : (asIter it).Walks cmp es (WrapsAt it cmp es) where
  valid h := h.valid
  key {w i e} h he := by
    have hvalid : w.valid = true := h.valid.trans (decide_eq_true (List.getElem?_eq_some_iff.1 he).1)
    change (Res.check (w.valid = true) .assertion >>= fun _ => Res.getD w.key .uninitialized) = _
    rw [check_of hvalid, ok_bind, h.key e he, getD_some]
  value {w i e} h he := by
    have hvalid : w.valid = true := h.valid.trans (decide_eq_true (List.getElem?_eq_some_iff.1 he).1)
    change (Res.check (w.valid = true) .assertion >>= fun _ => it.value w.iter) = _
    rw [check_of hvalid, ok_bind, walks_standsAt.value h.inner he]
  seekToFirst {w i} h := by
    obtain ⟨s', hs', h'⟩ := walks_standsAt.seekToFirst h.inner
    obtain ⟨w', hw', h''⟩ := update_eq h' w.key
    exact ⟨w', (congrArg (· >>= update it w.key) hs').trans hw', h''⟩
  seekToLast {w i} h := by
    obtain ⟨s', hs', h'⟩ := walks_standsAt.seekToLast h.inner
    obtain ⟨w', hw', h''⟩ := update_eq h' w.key
    exact ⟨w', (congrArg (· >>= update it w.key) hs').trans hw', h''⟩
  seek {w i} h target haccepts := by
    obtain ⟨s', hs', h'⟩ := walks_standsAt.seek h.inner target haccepts
    obtain ⟨w', hw', h''⟩ := update_eq h' w.key
    exact ⟨w', (congrArg (· >>= update it w.key) hs').trans hw', h''⟩
  next {w i} h hi := by
    obtain ⟨s', hs', h'⟩ := walks_standsAt.next h.inner hi
    obtain ⟨w', hw', h''⟩ := update_eq h' w.key
    exact ⟨w', (congrArg (· >>= update it w.key) hs').trans hw', h''⟩
  prev {w i} h hi := by
    obtain ⟨s', hs', h'⟩ := walks_standsAt.prev h.inner hi
    obtain ⟨w', hw', h''⟩ := update_eq h' w.key
    exact ⟨w', (congrArg (· >>= update it w.key) hs').trans hw', h''⟩

theorem set_eq (h : it.StandsAt cmp es s i) : ∃ w, set it s = .ok w ∧ (asIter it).StandsAt cmp es w i := by
  obtain ⟨w, hw, h'⟩ := update_eq h none
  exact ⟨w, hw, _, walks_asIter, h'⟩

end IteratorWrapper

namespace MergingIterator

/-! ## Cuts -/

/-- The entries `L` of one child are cut into `C` and `D` as all entries are cut into `A` and `B`. -/
structure CutAs (L A B C D : List (K × V)) : Prop where
  parts : L = C ++ D
  left : ∀ x ∈ C, x ∈ A
  right : ∀ x ∈ D, x ∈ B

section Cuts

variable [TransCmp cmp] {es A B L C D : List (K × V)} {e : K × V}

theorem not_lt_self (x : K) : cmp x x ≠ .lt := by
  have h : cmp x x = .eq := ReflCmp.compare_self
  rw [h]
  decide

section Sorted

variable (hes : (A ++ e :: B).Pairwise fun a b => cmp a.1 b.1 = .lt)

include hes

omit [TransCmp cmp] in
theorem lt_of_mem_left {x : K × V} (hx : x ∈ A) :
    cmp x.1 e.1 = .lt :=
  (pairwise_append.1 hes).2.2 x hx e mem_cons_self

omit [TransCmp cmp] in
theorem lt_of_mem_right {x : K × V} (hx : x ∈ B) :
    cmp e.1 x.1 = .lt :=
  (pairwise_cons.1 (pairwise_append.1 hes).2.1).1 x hx

theorem CutAs.head (hL : L.Pairwise fun a b => cmp a.1 b.1 = .lt)
    (h : CutAs L A (e :: B) C D) (he : e ∈ L) : ∃ D', D = e :: D' ∧ CutAs L (A ++ [e]) B (C ++ [e]) D' := by
  obtain ⟨rfl, hleft, hright⟩ := h
  have hnot : e ∉ C := fun hC => not_lt_self e.1 (lt_of_mem_left hes (hleft e hC))
  have hD := (mem_append.1 he).resolve_left hnot
  cases D with
  | nil => cases hD
  | cons d D =>
    have hsorted := (pairwise_append.1 hL).2.1
    -- the first entry of the child behind the cut is not larger than `e`, so it is `e`
    obtain rfl : e = d := by
      rcases mem_cons.1 hD with heq | hD
      · exact heq
      · rcases mem_cons.1 (hright d mem_cons_self) with heq | hB
        · exact heq.symm
        · exact absurd (TransCmp.lt_trans (lt_of_mem_right hes hB) ((pairwise_cons.1 hsorted).1 e hD)) (not_lt_self e.1)
    refine ⟨D, rfl, by simp, ?_, ?_⟩
    · intro x hx
      rcases mem_append.1 hx with hx | hx
      · exact mem_append_left _ (hleft x hx)
      · exact mem_append_right _ hx
    · intro x hx
      refine (mem_cons.1 (hright x (mem_cons_of_mem _ hx))).resolve_left ?_
      rintro rfl
      exact not_lt_self x.1 ((pairwise_cons.1 hsorted).1 x hx)

theorem CutAs.last (hL : L.Pairwise fun a b => cmp a.1 b.1 = .lt)
    (h : CutAs L (A ++ [e]) B C D) (he : e ∈ L) : ∃ C', C = C' ++ [e] ∧ CutAs L A (e :: B) C' (e :: D) := by
  obtain ⟨rfl, hleft, hright⟩ := h
  have hnot : e ∉ D := fun hD => not_lt_self e.1 (lt_of_mem_right hes (hright e hD))
  have hC := (mem_append.1 he).resolve_right hnot
  rcases eq_nil_or_concat C with rfl | ⟨C, c, rfl⟩
  · cases hC
  · rw [concat_eq_append] at *
    have hsorted := (pairwise_append.1 hL).1
    have hmem : ∀ x ∈ C ++ [c], x ≠ e → x ∈ A := fun x hx hne =>
      (mem_append.1 (hleft x hx)).resolve_right fun hx => hne (mem_singleton.1 hx)
    have hlast : c ∈ C ++ [c] := mem_append_right _ mem_cons_self
    obtain rfl : e = c := by
      by_contra hne
      have hC' : e ∈ C := (mem_append.1 hC).resolve_right fun hc => hne (mem_singleton.1 hc)
      have hlt := (pairwise_append.1 hsorted).2.2 e hC' c mem_cons_self
      exact not_lt_self e.1 (TransCmp.lt_trans hlt (lt_of_mem_left hes (hmem c hlast (Ne.symm hne))))
    refine ⟨C, rfl, by simp, fun x hx => ?_, ?_⟩
    · refine hmem x (mem_append_left _ hx) ?_
      rintro rfl
      exact not_lt_self x.1 ((pairwise_append.1 hsorted).2.2 x hx x mem_cons_self)
    · intro x hx
      rcases mem_cons.1 hx with rfl | hx
      · exact mem_cons_self
      · exact mem_cons_of_mem _ (hright x hx)

end Sorted

omit [TransCmp cmp] in
theorem CutAs.forward (h : CutAs L A (e :: B) C D) (he : e ∉ L) : CutAs L (A ++ [e]) B C D where
  parts := h.parts
  left x hx := mem_append_left _ (h.left x hx)
  right x hx := (mem_cons.1 (h.right x hx)).resolve_left fun heq =>
    he (by rw [h.parts, ← heq]; exact mem_append_right _ hx)

omit [TransCmp cmp] in
theorem CutAs.backward (h : CutAs L (A ++ [e]) B C D) (he : e ∉ L) : CutAs L A (e :: B) C D where
  parts := h.parts
  left x hx := (mem_append.1 (h.left x hx)).resolve_right fun heq =>
    he (by rw [h.parts, ← mem_singleton.1 heq]; exact mem_append_left _ hx)
  right x hx := mem_cons_of_mem _ (h.right x hx)

theorem CutAs.lowerBound_eq (hes : (A ++ e :: B).Pairwise fun a b => cmp a.1 b.1 = .lt) (h : CutAs L (A ++ [e]) B C D)
    (he : e ∉ L) : lowerBound cmp e.1 L = C.length := by
  rw [h.parts]
  refine lowerBound_append (fun x hx => ?_) fun x hx hlt => ?_
  · exact lt_of_mem_left hes ((h.backward he).left x hx)
  · exact not_lt_self x.1 (TransCmp.lt_trans hlt (lt_of_mem_right hes (h.right x hx)))

end Cuts

/-! ## Choosing a child -/

section Pick

variable {better : K → K → Bool} {cs : List (σ × Nat)} {best : σ × Nat} {k₀ : K}

theorem pickStep_of_not_valid {acc : Option (σ × Nat)} {c : σ × Nat} (hvalid : it.valid c.1 = false) :
    pickStep it better acc c = .ok acc := by
  cases acc <;> simp [pickStep, hvalid]

theorem pickStep_none {c : σ × Nat} (hvalid : it.valid c.1 = true) : pickStep it better none c = .ok (some c) := by
  rw [pickStep, hvalid, if_pos rfl]
  rfl

theorem pickStep_some {b c : σ × Nat} {k k' : K} (hvalid : it.valid c.1 = true) (hk : it.key c.1 = .ok k)
    (hk' : it.key b.1 = .ok k') :
    pickStep it better (some b) c = .ok (some (if better k k' then c else b)) := by
  rw [pickStep, hvalid, if_pos rfl, hk, hk', ok_bind, ok_bind]
  split <;> rfl

theorem foldlM_pickStep {acc : Option (σ × Nat)} (hvalid : it.valid best.1 = true) (hkey : it.key best.1 = .ok k₀)
    (hothers : ∀ c ∈ cs, c ≠ best → it.valid c.1 = true → ∃ k, it.key c.1 = .ok k ∧ better k₀ k = true ∧ better k k₀ = false)
    (hacc : acc = some best ∨ best ∈ cs ∧ ∀ c, acc = some c → ∃ k, it.key c.1 = .ok k ∧ better k₀ k = true) :
    cs.foldlM (pickStep it better) acc = .ok (some best) := by
  -- what has been chosen so far is `best`, or `best` is still to come and beats it
  induction cs generalizing acc with
  | nil =>
    rcases hacc with rfl | ⟨h, -⟩
    · rfl
    · cases h
  | cons c cs ih =>
    have hrest := fun c' hc' => hothers c' (mem_cons_of_mem c hc')
    rw [foldlM_cons]
    by_cases hc : c = best
    · subst hc
      have hstep : pickStep it better acc c = .ok (some c) := by
        cases acc with
        | none => exact pickStep_none hvalid
        | some b =>
          rcases hacc with hacc | ⟨-, hacc⟩
          · obtain rfl := Option.some.inj hacc
            rw [pickStep_some hvalid hkey hkey, ite_self]
          · obtain ⟨k, hk, hbetter⟩ := hacc b rfl
            rw [pickStep_some hvalid hkey hk, if_pos hbetter]
      rw [hstep, ok_bind]
      exact ih hrest (.inl rfl)
    · have hmem : best ∈ c :: cs → best ∈ cs := fun h => (mem_cons.1 h).resolve_left (Ne.symm hc)
      cases hv : it.valid c.1 with
      | false =>
        rw [pickStep_of_not_valid hv, ok_bind]
        exact ih hrest (hacc.imp_right fun h => ⟨hmem h.1, h.2⟩)
      | true =>
        obtain ⟨k, hk, hbetter, hworse⟩ := hothers c mem_cons_self hc hv
        have hc : ∀ c', some c = some c' → ∃ k, it.key c'.1 = .ok k ∧ better k₀ k = true := by
          rintro _ ⟨⟩
          exact ⟨k, hk, hbetter⟩
        rcases hacc with rfl | ⟨hbest, hacc⟩
        · rw [pickStep_some hv hk hkey, hworse, ok_bind]
          exact ih hrest (.inl rfl)
        · cases acc with
          | none =>
            rw [pickStep_none hv, ok_bind]
            exact ih hrest (.inr ⟨hmem hbest, hc⟩)
          | some b =>
            obtain ⟨k', hk', -⟩ := hacc b rfl
            rw [pickStep_some hv hk hk', ok_bind]
            split
            · exact ih hrest (.inr ⟨hmem hbest, hc⟩)
            · exact ih hrest (.inr ⟨hmem hbest, hacc⟩)

theorem foldlM_pickStep_none (h : ∀ c ∈ cs, it.valid c.1 = false) : cs.foldlM (pickStep it better) none = .ok none := by
  induction cs with
  | nil => rfl
  | cons c cs ih =>
    rw [foldlM_cons, pickStep_of_not_valid (h c mem_cons_self), ok_bind]
    exact ih fun c' hc' => h c' (mem_cons_of_mem _ hc')

end Pick

/-! ## The children -/

/-- The entries `Ls` of the children, each in order, make up the entries `es`, in order and no key twice. -/
structure Merges (cmp : K → K → Ordering) (Ls : List (List (K × V))) (es : List (K × V)) : Prop where
  sorted : es.Pairwise fun a b => cmp a.1 b.1 = .lt
  perm : es.Perm Ls.flatten
  each : ∀ L ∈ Ls, L.Pairwise fun a b => cmp a.1 b.1 = .lt

structure All (P : σ → List (K × V) → Prop) (children : List σ) (Ls : List (List (K × V))) : Prop where
  length : children.length = Ls.length
  each : ∀ {i : Nat} {s L}, children[i]? = some s → Ls[i]? = some L → P s L

theorem all_of_forall₂ {P : σ → List (K × V) → Prop} {children : List σ} {Ls : List (List (K × V))}
    (h : List.Forall₂ P children Ls) : All P children Ls := by
  refine ⟨h.length_eq, fun {i s L} hs hL => ?_⟩
  obtain ⟨hi, rfl⟩ := List.getElem?_eq_some_iff.1 hs
  obtain ⟨hi', rfl⟩ := List.getElem?_eq_some_iff.1 hL
  exact (forall₂_iff_get.1 h).2 i hi hi'

structure AllBut (c : Nat) (P : σ → List (K × V) → Prop) (children : List σ) (Ls : List (List (K × V))) : Prop where
  length : children.length = Ls.length
  each : ∀ {i : Nat} {s L}, i ≠ c → children[i]? = some s → Ls[i]? = some L → P s L

def AtBorder (it : Iter σ K V) (cmp : K → K → Ordering) (A B : List (K × V)) (s : σ) (L : List (K × V)) : Prop :=
  ∃ C D, CutAs L A B C D ∧ it.StandsAt cmp L s C.length

def BeforeBorder (it : Iter σ K V) (cmp : K → K → Ordering) (A B : List (K × V)) (s : σ) (L : List (K × V)) : Prop :=
  ∃ C D, CutAs L A B C D ∧ it.StandsAt cmp L s (before L C.length)

variable {Ls : List (List (K × V))} {es A B L L' : List (K × V)} {e : K × V} {children : List σ} {c i j : Nat} {s : σ}
  {P Q : σ → List (K × V) → Prop}

theorem Merges.mem_iff (h : Merges cmp Ls es) : e ∈ es ↔ ∃ L ∈ Ls, e ∈ L := by
  rw [h.perm.mem_iff, mem_flatten]

theorem Merges.eq_of_mem [TransCmp cmp] (h : Merges cmp Ls es) (hi : Ls[i]? = some L) (hj : Ls[j]? = some L') (he : e ∈ L)
    (he' : e ∈ L') : i = j := by
  have hnodup : Ls.flatten.Nodup := by
    refine (h.perm.nodup_iff).1 (h.sorted.imp ?_)
    rintro a b hlt rfl
    exact not_lt_self a.1 hlt
  have hdisjoint := (nodup_flatten.1 hnodup).2
  rw [pairwise_iff_getElem] at hdisjoint
  obtain ⟨hi', rfl⟩ := List.getElem?_eq_some_iff.1 hi
  obtain ⟨hj', rfl⟩ := List.getElem?_eq_some_iff.1 hj
  rcases Nat.lt_trichotomy i j with hlt | heq | hlt
  · exact absurd he' (hdisjoint i j hi' hj' hlt he)
  · exact heq
  · exact absurd he (hdisjoint j i hj' hi' hlt he')

section All

variable (h : All P children Ls)

include h

theorem All.get (hi : children[i]? = some s) : ∃ L, Ls[i]? = some L ∧ P s L := by
  have hlt := (List.getElem?_eq_some_iff.1 hi).1
  rw [h.length] at hlt
  exact ⟨Ls[i], getElem?_eq_getElem hlt, h.each hi (getElem?_eq_getElem hlt)⟩

theorem All.child (hi : Ls[i]? = some L) : ∃ s, children[i]? = some s ∧ P s L := by
  have hlt := (List.getElem?_eq_some_iff.1 hi).1
  rw [← h.length] at hlt
  exact ⟨children[i], getElem?_eq_getElem hlt, h.each (getElem?_eq_getElem hlt) hi⟩

theorem All.mapM {τ : Type} {Q : τ → List (K × V) → Prop} (move : σ → Res τ)
    (hmove : ∀ {s L}, L ∈ Ls → P s L → ∃ s', move s = .ok s' ∧ Q s' L) :
    ∃ children', children.mapM move = .ok children' ∧ All Q children' Ls := by
  obtain ⟨children', hmap, hlen, hget⟩ := exists_mapM_getElem? (f := move) (l := children)
    (Q := fun i s' => ∀ L, Ls[i]? = some L → Q s' L) fun i s hs => by
      obtain ⟨L, hL, hP⟩ := h.get hs
      obtain ⟨s', hs', hQ⟩ := hmove (mem_of_getElem? hL) hP
      refine ⟨s', hs', fun L' hL' => ?_⟩
      obtain rfl := Option.some.inj (hL.symm.trans hL')
      exact hQ
  exact ⟨children', hmap, hlen.trans h.length, fun hs hL => hget _ _ hs _ hL⟩

theorem All.moveOthers {move : σ → Res σ}
    (hmove : ∀ {i s L}, i ≠ c → Ls[i]? = some L → P s L → ∃ s', move s = .ok s' ∧ Q s' L) :
    ∃ children', moveOthers c move children = .ok children' ∧ AllBut c Q children' Ls := by
  obtain ⟨children', hmap, hlen, hget⟩ := exists_mapM_getElem? (l := children.zipIdx)
    (f := fun child : σ × Nat => if child.2 = c then .ok child.1 else move child.1)
    (Q := fun i s' => i ≠ c → ∀ L, Ls[i]? = some L → Q s' L) fun i child hchild => by
      rw [getElem?_zipIdx, Option.map_eq_some_iff] at hchild
      obtain ⟨s, hs, rfl⟩ := hchild
      by_cases hi : i = c
      · exact ⟨s, by simp [hi], fun h => absurd hi h⟩
      · obtain ⟨L, hL, hP⟩ := h.get hs
        obtain ⟨s', hs', hQ⟩ := hmove hi hL hP
        refine ⟨s', by simp [hi, hs'], fun _ L' hL' => ?_⟩
        obtain rfl := Option.some.inj (hL.symm.trans hL')
        exact hQ
  exact ⟨children', hmap, by simpa using hlen.trans (by simpa using h.length), fun hi hs hL => hget _ _ hs hi _ hL⟩

theorem All.but (hQ : ∀ {i s L}, i ≠ c → Ls[i]? = some L → P s L → Q s L) : AllBut c Q children Ls :=
  ⟨h.length, fun hi hs hL => hQ hi hL (h.each hs hL)⟩

end All

theorem AllBut.set (h : AllBut c P children Ls) (hc : Ls[c]? = some L) (hs : P s L) : All P (children.set c s) Ls where
  length := by rw [length_set, h.length]
  each {i s' L'} hs' hL' := by
    by_cases hi : i = c
    · subst hi
      obtain rfl := Option.some.inj (hc.symm.trans hL')
      have hlt := (List.getElem?_eq_some_iff.1 hs').1
      rw [getElem?_set_self (by simpa using hlt)] at hs'
      rwa [← Option.some.inj hs']
    · rw [getElem?_set_ne (Ne.symm hi)] at hs'
      exact h.each hi hs' hL'

/-! ## The current child -/

theorem pick_eq {better : K → K → Bool} {cs : List (σ × Nat)} {k₀ : K} (hmem : (s, c) ∈ cs) (hvalid : it.valid s = true)
    (hkey : it.key s = .ok k₀)
    (hothers : ∀ s' i, (s', i) ∈ cs → i ≠ c → it.valid s' = true → ∃ k, it.key s' = .ok k ∧ better k₀ k = true ∧
      better k k₀ = false) (hindex : ∀ s', (s', c) ∈ cs → s' = s) : pick it better cs = .ok (some c) := by
  have hfold : cs.foldlM (pickStep it better) none = .ok (some (s, c)) := by
    refine foldlM_pickStep hvalid hkey ?_ (.inr ⟨hmem, by simp⟩)
    rintro ⟨s', i⟩ hs' hne hv
    refine hothers s' i hs' ?_ hv
    rintro rfl
    exact hne (by rw [hindex s' hs'])
  rw [pick, hfold, ok_bind]
  rfl

theorem findSmallest_eq [TransCmp cmp] (hm : Merges cmp Ls (A ++ e :: B)) (h : All (AtBorder it cmp A (e :: B)) children Ls) :
    ∃ c L, findSmallest it cmp children = .ok (some c) ∧ Ls[c]? = some L ∧ e ∈ L := by
  obtain ⟨L, hL, he⟩ := hm.mem_iff.1 (mem_append_right A mem_cons_self)
  obtain ⟨c, hc⟩ := mem_iff_getElem?.1 hL
  obtain ⟨s, hs, C, D, hcut, hat⟩ := h.child hc
  obtain ⟨D', rfl, -⟩ := hcut.head hm.sorted (hm.each L hL) he
  refine ⟨c, L, ?_, hc, he⟩
  refine pick_eq (s := s) (mk_mem_zipIdx_iff_getElem?.2 hs) (walks_standsAt.valid_of_cons hcut.parts hat)
    (walks_standsAt.key_of_cons hcut.parts hat) (fun s' i hs' hi hv => ?_) fun s' hs' => ?_
  · obtain ⟨L', hL', C', D', hcut', hat'⟩ := h.get (mk_mem_zipIdx_iff_getElem?.1 hs')
    cases D' with
    | nil =>
      have hend : C'.length = L'.length := by rw [hcut'.parts, append_nil]
      rw [hend] at hat'
      rw [walks_standsAt.not_valid hat'] at hv
      cases hv
    | cons d D' =>
      refine ⟨d.1, walks_standsAt.key_of_cons hcut'.parts hat', ?_⟩
      -- another child has another first entry behind the cut
      have hd : d ∈ B := by
        refine (mem_cons.1 (hcut'.right d mem_cons_self)).resolve_left ?_
        rintro rfl
        exact hi (hm.eq_of_mem hL' hc (by rw [hcut'.parts]; exact mem_append_right _ mem_cons_self) he)
      have hlt := lt_of_mem_right hm.sorted hd
      have hgt : cmp d.1 e.1 = .gt := OrientedCmp.gt_of_lt hlt
      simp [hlt, hgt]
  · rw [mk_mem_zipIdx_iff_getElem?, hs] at hs'
    exact (Option.some.inj hs').symm

theorem findSmallest_none (h : All (AtBorder it cmp A []) children Ls) : findSmallest it cmp children = .ok none := by
  rw [findSmallest, pick, foldlM_pickStep_none]
  · rfl
  · rintro ⟨s, i⟩ hs
    obtain ⟨L, -, C, D, hcut, hat⟩ := h.get (mk_mem_zipIdx_iff_getElem?.1 hs)
    obtain rfl : D = [] := eq_nil_iff_forall_not_mem.2 fun x hx => not_mem_nil (hcut.right x hx)
    have hend : C.length = L.length := by rw [hcut.parts, append_nil]
    rw [hend] at hat
    exact walks_standsAt.not_valid hat

theorem findLargest_eq [TransCmp cmp] (hm : Merges cmp Ls (A ++ e :: B))
    (h : All (BeforeBorder it cmp (A ++ [e]) B) children Ls) :
    ∃ c L, findLargest it cmp children = .ok (some c) ∧ Ls[c]? = some L ∧ e ∈ L := by
  obtain ⟨L, hL, he⟩ := hm.mem_iff.1 (mem_append_right A mem_cons_self)
  obtain ⟨c, hc⟩ := mem_iff_getElem?.1 hL
  obtain ⟨s, hs, C, D, hcut, hat⟩ := h.child hc
  obtain ⟨C, rfl, hcut₀⟩ := hcut.last hm.sorted (hm.each L hL) he
  rw [before_append_singleton] at hat
  refine ⟨c, L, ?_, hc, he⟩
  refine pick_eq (s := s) (mem_reverse.2 (mk_mem_zipIdx_iff_getElem?.2 hs))
    (walks_standsAt.valid_of_cons hcut₀.parts hat)
    (walks_standsAt.key_of_cons hcut₀.parts hat) (fun s' i hs' hi hv => ?_) fun s' hs' => ?_
  · obtain ⟨L', hL', C', D', hcut', hat'⟩ := h.get (mk_mem_zipIdx_iff_getElem?.1 (mem_reverse.1 hs'))
    rcases eq_nil_or_concat C' with rfl | ⟨C', d, rfl⟩
    · rw [length_nil, before_nil] at hat'
      rw [walks_standsAt.not_valid hat'] at hv
      cases hv
    · rw [concat_eq_append] at hcut' hat'
      rw [before_append_singleton] at hat'
      have hparts : L' = C' ++ d :: D' := by rw [hcut'.parts, append_assoc, singleton_append]
      refine ⟨d.1, walks_standsAt.key_of_cons hparts hat', ?_⟩
      have hd : d ∈ A := by
        refine (mem_append.1 (hcut'.left d (mem_append_right _ mem_cons_self))).resolve_right fun hd => ?_
        obtain rfl := mem_singleton.1 hd
        exact hi (hm.eq_of_mem hL' hc (by rw [hparts]; exact mem_append_right _ mem_cons_self) he)
      have hlt := lt_of_mem_left hm.sorted hd
      have hgt : cmp e.1 d.1 = .gt := OrientedCmp.gt_of_lt hlt
      simp [hlt, hgt]
  · rw [mem_reverse, mk_mem_zipIdx_iff_getElem?, hs] at hs'
    exact (Option.some.inj hs').symm

theorem findLargest_none (h : All (BeforeBorder it cmp [] B) children Ls) : findLargest it cmp children = .ok none := by
  rw [findLargest, pick, foldlM_pickStep_none]
  · rfl
  · rintro ⟨s, i⟩ hs
    obtain ⟨L, -, C, D, hcut, hat⟩ := h.get (mk_mem_zipIdx_iff_getElem?.1 (mem_reverse.1 hs))
    obtain rfl : C = [] := eq_nil_iff_forall_not_mem.2 fun x hx => not_mem_nil (hcut.left x hx)
    rw [length_nil, before_nil] at hat
    exact walks_standsAt.not_valid hat

/-! ## The walk -/

inductive MergedAt (it : Iter σ K V) (cmp : K → K → Ordering) (Ls : List (List (K × V))) (es : List (K × V))
    (m : MergingIterator σ) : Nat → Prop
  | forward {A B L : List (K × V)} {e : K × V} {c : Nat} (hes : es = A ++ e :: B) (hcurrent : m.current = some c)
      (hL : Ls[c]? = some L) (he : e ∈ L)
      (hdir : m.direction = .forward) (h : All (AtBorder it cmp A (e :: B)) m.children Ls) : MergedAt it cmp Ls es m A.length
  | reverse {A B L : List (K × V)} {e : K × V} {c : Nat} (hes : es = A ++ e :: B) (hcurrent : m.current = some c)
      (hL : Ls[c]? = some L) (he : e ∈ L)
      (hdir : m.direction = .reverse) (h : All (BeforeBorder it cmp (A ++ [e]) B) m.children Ls) :
      MergedAt it cmp Ls es m A.length
  | invalid (hcurrent : m.current = none) (h : All (fun s L => ∃ i, it.StandsAt cmp L s i) m.children Ls) :
      MergedAt it cmp Ls es m es.length

variable {m : MergingIterator σ}

theorem AtBorder.stands (h : AtBorder it cmp A B s L) : ∃ i, it.StandsAt cmp L s i :=
  let ⟨C, _, _, hat⟩ := h
  ⟨C.length, hat⟩

theorem BeforeBorder.stands (h : BeforeBorder it cmp A B s L) : ∃ i, it.StandsAt cmp L s i :=
  let ⟨C, _, _, hat⟩ := h
  ⟨before L C.length, hat⟩

theorem All.imp (h : All P children Ls) (hPQ : ∀ {s L}, P s L → Q s L) : All Q children Ls :=
  ⟨h.length, fun hs hL => hPQ (h.each hs hL)⟩

theorem MergedAt.stands (h : MergedAt it cmp Ls es m i) : All (fun s L => ∃ i, it.StandsAt cmp L s i) m.children Ls := by
  cases h with
  | forward _ _ _ _ _ h => exact h.imp AtBorder.stands
  | reverse _ _ _ _ _ h => exact h.imp BeforeBorder.stands
  | invalid _ h => exact h

theorem mergedAt_findSmallest [TransCmp cmp] (hm : Merges cmp Ls es) (hes : es = A ++ B)
    (h : All (AtBorder it cmp A B) children Ls) :
    ∃ current, findSmallest it cmp children = .ok current ∧ MergedAt it cmp Ls es ⟨children, current, .forward⟩ A.length := by
  cases B with
  | nil =>
    have hend : A.length = es.length := by rw [hes, append_nil]
    rw [hend]
    exact ⟨none, findSmallest_none h, .invalid rfl (h.imp AtBorder.stands)⟩
  | cons e B =>
    obtain ⟨c, L, hc, hL, he⟩ := findSmallest_eq (hes ▸ hm) h
    exact ⟨some c, hc, .forward hes rfl hL he rfl h⟩

theorem mergedAt_findLargest [TransCmp cmp] (hm : Merges cmp Ls es) (hes : es = A ++ B)
    (h : All (BeforeBorder it cmp A B) children Ls) :
    ∃ current, findLargest it cmp children = .ok current ∧
      MergedAt it cmp Ls es ⟨children, current, .reverse⟩ (before es A.length) := by
  rcases eq_nil_or_concat A with rfl | ⟨A, e, rfl⟩
  · rw [length_nil, before_nil]
    exact ⟨none, findLargest_none h, .invalid rfl (h.imp BeforeBorder.stands)⟩
  · rw [concat_eq_append] at hes h ⊢
    rw [before_append_singleton]
    have hes' : es = A ++ e :: B := by rw [hes, append_assoc, singleton_append]
    obtain ⟨c, L, hc, hL, he⟩ := findLargest_eq (hes' ▸ hm) h
    exact ⟨some c, hc, .reverse hes' rfl hL he rfl h⟩

structure CurrentAt (it : Iter σ K V) (cmp : K → K → Ordering) (Ls : List (List (K × V))) (es : List (K × V))
    (m : MergingIterator σ) (A B : List (K × V)) (e : K × V) (c : Nat) (s : σ) (L C D : List (K × V)) : Prop where
  parts : es = A ++ e :: B
  child : m.currentChild = .ok (c, s)
  entries : Ls[c]? = some L
  before : CutAs L A (e :: B) C (e :: D)
  behind : CutAs L (A ++ [e]) B (C ++ [e]) D
  stands : it.StandsAt cmp L s C.length
  others : m.direction = .forward ∧ All (AtBorder it cmp A (e :: B)) m.children Ls ∨
    m.direction = .reverse ∧ All (BeforeBorder it cmp (A ++ [e]) B) m.children Ls

theorem currentChild_eq (hcurrent : m.current = some c) (hs : m.children[c]? = some s) : m.currentChild = .ok (c, s) := by
  rw [currentChild, hcurrent, getD_some, ok_bind, hs, getD_some]
  rfl

theorem MergedAt.currentAt [TransCmp cmp] (hm : Merges cmp Ls es) (h : MergedAt it cmp Ls es m i) (hi : i < es.length) :
    ∃ A B e c s L C D, i = A.length ∧ CurrentAt it cmp Ls es m A B e c s L C D := by
  cases h with
  | @forward A B L e c hes hcurrent hL he hdir h =>
    have hsorted := hm.each L (mem_of_getElem? hL)
    obtain ⟨s, hs, C, D, hcut, hat⟩ := h.child hL
    obtain ⟨D, rfl, hbehind⟩ := hcut.head (hes ▸ hm.sorted) hsorted he
    exact ⟨A, B, e, c, s, L, C, D, rfl, hes, currentChild_eq hcurrent hs, hL, hcut, hbehind, hat, .inl ⟨hdir, h⟩⟩
  | @reverse A B L e c hes hcurrent hL he hdir h =>
    have hsorted := hm.each L (mem_of_getElem? hL)
    obtain ⟨s, hs, C, D, hcut, hat⟩ := h.child hL
    obtain ⟨C, rfl, hbefore⟩ := hcut.last (hes ▸ hm.sorted) hsorted he
    rw [before_append_singleton] at hat
    exact ⟨A, B, e, c, s, L, C, D, rfl, hes, currentChild_eq hcurrent hs, hL, hbefore, hcut, hat, .inr ⟨hdir, h⟩⟩
  | invalid => omega

section Current

variable [TransCmp cmp] {C D : List (K × V)} (hm : Merges cmp Ls es) (h : CurrentAt it cmp Ls es m A B e c s L C D)

include h

omit [TransCmp cmp] in
theorem CurrentAt.mem : e ∈ L := by
  rw [h.before.parts]
  exact mem_append_right _ mem_cons_self

omit [TransCmp cmp] in
theorem CurrentAt.key_eq : it.key s = .ok e.1 :=
  walks_standsAt.key_of_cons h.before.parts h.stands

include hm

theorem CurrentAt.not_mem (hi : i ≠ c) (hL' : Ls[i]? = some L') : e ∉ L' :=
  fun he => hi (hm.eq_of_mem hL' h.entries he h.mem)

theorem CurrentAt.turnForward (haccepts : it.accepts e.1) : ∃ children, m.turnForward it cmp c s = .ok children ∧
    AllBut c (AtBorder it cmp (A ++ [e]) B) children Ls := by
  rcases h.others with ⟨hdir, hall⟩ | ⟨hdir, hall⟩
  · refine ⟨m.children, by rw [MergingIterator.turnForward, hdir]; rfl, hall.but ?_⟩
    rintro i s L' hi hL' ⟨C, D, hcut, hat⟩
    exact ⟨C, D, hcut.forward (h.not_mem hm hi hL'), hat⟩
  · rw [MergingIterator.turnForward, hdir]
    simp only [h.key_eq, ok_bind]
    refine hall.moveOthers ?_
    rintro i s L' hi hL' ⟨C, D, hcut, hat⟩
    obtain ⟨s', hs', hat'⟩ := walks_standsAt.seek hat e.1 haccepts
    rw [hcut.lowerBound_eq (h.parts ▸ hm.sorted) (h.not_mem hm hi hL')] at hat'
    refine ⟨s', ?_, C, D, hcut, hat'⟩
    rw [moveBehind, hs', ok_bind]
    cases D with
    | nil => rw [walks_standsAt.valid hat', hcut.parts]; simp
    | cons d D =>
      -- the entry the child is on now lies behind the cut, so its key is another one
      have hlt := lt_of_mem_right (h.parts ▸ hm.sorted) (hcut.right d mem_cons_self)
      rw [walks_standsAt.valid_of_cons hcut.parts hat', if_pos rfl, walks_standsAt.key_of_cons hcut.parts hat', ok_bind,
        if_neg (by rw [hlt]; decide)]
      rfl

theorem CurrentAt.turnReverse (haccepts : it.accepts e.1) : ∃ children, m.turnReverse it c s = .ok children ∧
    AllBut c (BeforeBorder it cmp A (e :: B)) children Ls := by
  rcases h.others with ⟨hdir, hall⟩ | ⟨hdir, hall⟩
  · rw [MergingIterator.turnReverse, hdir]
    simp only [h.key_eq, ok_bind]
    refine hall.moveOthers ?_
    rintro i s L' hi hL' ⟨C, D, hcut, hat⟩
    have he := h.not_mem hm hi hL'
    obtain ⟨s', hs', hat'⟩ := walks_standsAt.seek hat e.1 haccepts
    rw [(hcut.forward he).lowerBound_eq (h.parts ▸ hm.sorted) he] at hat'
    rw [moveBefore, hs', ok_bind]
    cases D with
    | nil =>
      have hend : L'.length = C.length := by rw [hcut.parts, append_nil]
      obtain ⟨s'', hs'', hat''⟩ := walks_standsAt.seekToLast hat'
      rw [hend] at hat''
      refine ⟨s'', ?_, C, [], hcut, hat''⟩
      rw [walks_standsAt.valid hat', hend]
      simpa using hs''
    | cons d D =>
      obtain ⟨s'', hs'', hat''⟩ := walks_standsAt.prev_of_cons hcut.parts hat'
      refine ⟨s'', ?_, C, d :: D, hcut, hat''⟩
      rw [walks_standsAt.valid_of_cons hcut.parts hat', if_pos rfl, hs'']
  · refine ⟨m.children, by rw [MergingIterator.turnReverse, hdir]; rfl, hall.but ?_⟩
    rintro i s L' hi hL' ⟨C, D, hcut, hat⟩
    exact ⟨C, D, hcut.backward (h.not_mem hm hi hL'), hat⟩

end Current

theorem Merges.subset (hm : Merges cmp Ls es) (hL : L ∈ Ls) : ∀ x ∈ L, x ∈ es :=
  fun _ hx => hm.mem_iff.2 ⟨L, hL, hx⟩

theorem MergedAt.valid_eq (h : MergedAt it cmp Ls es m i) : m.current.isSome = decide (i < es.length) := by
  cases h with
  | forward hes hcurrent => simp [hcurrent, hes]
  | reverse hes hcurrent => simp [hcurrent, hes]
  | invalid hcurrent => simp [hcurrent]

theorem walks_asIter [TransCmp cmp] (hm : Merges cmp Ls es) (haccepts : ∀ e ∈ es, it.accepts e.1) :
    (asIter it cmp).Walks cmp es (MergedAt it cmp Ls es) where
  valid h := h.valid_eq
  key {m i e} h he := by
    obtain ⟨A, B, e', c, s, L, C, D, rfl, hc⟩ := h.currentAt hm (List.getElem?_eq_some_iff.1 he).1
    obtain rfl : e' = e := by simpa [hc.parts] using he
    change (m.currentChild >>= fun p => it.key p.2) = _
    rw [hc.child, ok_bind, hc.key_eq]
  value {m i e} h he := by
    obtain ⟨A, B, e', c, s, L, C, D, rfl, hc⟩ := h.currentAt hm (List.getElem?_eq_some_iff.1 he).1
    obtain rfl : e' = e := by simpa [hc.parts] using he
    change (m.currentChild >>= fun p => it.value p.2) = _
    rw [hc.child, ok_bind, walks_standsAt.value_of_cons hc.before.parts hc.stands]
  seekToFirst {m i} h := by
    obtain ⟨children, hmap, hall⟩ := h.stands.mapM it.seekToFirst (Q := AtBorder it cmp [] es) fun hL ⟨i, hat⟩ => by
      obtain ⟨s', hs', hat'⟩ := walks_standsAt.seekToFirst hat
      exact ⟨s', hs', [], _, ⟨rfl, by simp, hm.subset hL⟩, hat'⟩
    obtain ⟨current, hcurrent, hat⟩ := mergedAt_findSmallest hm rfl hall
    refine ⟨_, ?_, hat⟩
    change seekToFirst it cmp m = _
    rw [seekToFirst, hmap, ok_bind, hcurrent]
    rfl
  seekToLast {m i} h := by
    obtain ⟨children, hmap, hall⟩ := h.stands.mapM it.seekToLast (Q := BeforeBorder it cmp es []) fun hL ⟨i, hat⟩ => by
      obtain ⟨s', hs', hat'⟩ := walks_standsAt.seekToLast hat
      exact ⟨s', hs', _, [], ⟨(append_nil _).symm, hm.subset hL, by simp⟩, hat'⟩
    obtain ⟨current, hcurrent, hat⟩ := mergedAt_findLargest hm (append_nil es).symm hall
    refine ⟨_, ?_, hat⟩
    change seekToLast it cmp m = _
    rw [seekToLast, hmap, ok_bind, hcurrent]
    rfl
  seek {m i} h target htarget := by
    obtain ⟨A, B, hes, hbound, hA, hB⟩ := exists_cut_lowerBound hm.sorted target
    obtain ⟨children, hmap, hall⟩ := h.stands.mapM (it.seek target) (Q := AtBorder it cmp A B) fun {s L} hL ⟨i, hat⟩ => by
      obtain ⟨s', hs', hat'⟩ := walks_standsAt.seek hat target htarget
      obtain ⟨C, D, hparts, hbound', hC, hD⟩ := exists_cut_lowerBound (hm.each L hL) target
      rw [hbound'] at hat'
      have hsubset := hm.subset hL
      rw [hparts, hes] at hsubset
      refine ⟨s', hs', C, D, ⟨hparts, fun x hx => ?_, fun x hx => ?_⟩, hat'⟩
      · exact (mem_append.1 (hsubset x (mem_append_left _ hx))).resolve_right fun hxB => hB x hxB (hC x hx)
      · exact (mem_append.1 (hsubset x (mem_append_right _ hx))).resolve_left fun hxA => hD x hx (hA x hxA)
    obtain ⟨current, hcurrent, hat⟩ := mergedAt_findSmallest hm hes hall
    refine ⟨_, ?_, hbound ▸ hat⟩
    change seek it cmp target m = _
    rw [seek, hmap, ok_bind, hcurrent]
    rfl
  next {m i} h hi := by
    obtain ⟨A, B, e, c, s, L, C, D, rfl, hc⟩ := h.currentAt hm hi
    obtain ⟨children, hturn, hothers⟩ := hc.turnForward hm (haccepts e (hc.parts ▸ mem_append_right _ mem_cons_self))
    obtain ⟨s', hs', hat'⟩ := walks_standsAt.next_of_cons hc.before.parts hc.stands
    have hes : es = (A ++ [e]) ++ B := by rw [hc.parts, append_assoc, singleton_append]
    obtain ⟨current, hcurrent, hat⟩ := mergedAt_findSmallest hm hes (hothers.set hc.entries ⟨C ++ [e], D, hc.behind, hat'⟩)
    refine ⟨_, ?_, by simpa using hat⟩
    change next it cmp m = _
    simp only [next, hc.child, ok_bind, hturn, hs', hcurrent]
    rfl
  prev {m i} h hi := by
    obtain ⟨A, B, e, c, s, L, C, D, rfl, hc⟩ := h.currentAt hm hi
    obtain ⟨children, hturn, hothers⟩ := hc.turnReverse hm (haccepts e (hc.parts ▸ mem_append_right _ mem_cons_self))
    obtain ⟨s', hs', hat'⟩ := walks_standsAt.prev_of_cons hc.before.parts hc.stands
    obtain ⟨current, hcurrent, hat⟩ := mergedAt_findLargest hm hc.parts (hothers.set hc.entries ⟨C, e :: D, hc.before, hat'⟩)
    refine ⟨_, ?_, hat⟩
    change prev it cmp m = _
    simp only [prev, hc.child, ok_bind, hturn, hs', hcurrent]
    rfl

theorem standsAt_new [TransCmp cmp] (hm : Merges cmp Ls es) (haccepts : ∀ e ∈ es, it.accepts e.1)
    (h : All (fun s L => ∃ i, it.StandsAt cmp L s i) children Ls) :
    (asIter it cmp).StandsAt cmp es (new children) es.length :=
  ⟨_, walks_asIter hm haccepts, .invalid rfl h⟩

theorem all_ofList (cmp : K → K → Ordering) (Ls : List (List (K × V))) :
    All (fun s L => ∃ i, (ofList cmp).StandsAt cmp L s i) (Ls.map fun L => (L, 0)) Ls := by
  refine ⟨length_map _, fun {i s L} hs hL => ?_⟩
  rw [getElem?_map, hL] at hs
  obtain rfl := Option.some.inj hs
  exact ⟨0, standsAt_ofList cmp L 0⟩

/-- After any run of calls that is allowed, a merging iterator is on the entry it should be on among those of all
its children, also when it was moved forward and backward in turn. -/
theorem run_over_children [TransCmp cmp] {calls : List (Call K)} (hm : Merges cmp Ls es)
    (haccepts : ∀ e ∈ es, it.accepts e.1) (h : All (fun s L => ∃ i, it.StandsAt cmp L s i) children Ls)
    (hadmits : ∀ c ∈ calls, it.Admits c) (hcalls : calls.foldlM (move cmp es) es.length = some i) :
    ∃ m, calls.foldlM (asIter it cmp).call (new children) = .ok m ∧ m.current.isSome = decide (i < es.length) ∧
      ∀ e, es[i]? = some e → m.key it = .ok e.1 ∧ m.value it = .ok e.2 := by
  have hadmits' : ∀ c ∈ calls, (asIter it cmp).Admits c := fun c hc => by cases c <;> exact hadmits _ hc
  exact (standsAt_new hm haccepts h).run_shows hadmits' hcalls

theorem run_over_children_two : ∃ m,
    [Call.seekToFirst, .next, .next, .prev, .next, .next, .prev].foldlM (asIter (ofList compare) compare).call
        (new [([(1, 'a'), (3, 'c'), (5, 'e')], 0), ([(2, 'b'), (4, 'd')], 0)]) = .ok m ∧
      m.current.isSome = true ∧ m.key (ofList compare) = .ok 3 ∧ m.value (ofList compare) = .ok 'c' := by
  have hm : Merges compare [[(1, 'a'), (3, 'c'), (5, 'e')], [(2, 'b'), (4, 'd')]]
      [(1, 'a'), (2, 'b'), (3, 'c'), (4, 'd'), (5, 'e')] := ⟨by decide, by decide, by decide⟩
  have hall : All (fun s L => ∃ i, (ofList compare).StandsAt compare L s i)
      [([(1, 'a'), (3, 'c'), (5, 'e')], 0), ([(2, 'b'), (4, 'd')], 0)]
      [[(1, 'a'), (3, 'c'), (5, 'e')], [(2, 'b'), (4, 'd')]] :=
    all_ofList compare [[(1, 'a'), (3, 'c'), (5, 'e')], [(2, 'b'), (4, 'd')]]
  have hcalls : [Call.seekToFirst, .next, .next, .prev, .next, .next, .prev].foldlM
      (move compare [(1, 'a'), (2, 'b'), (3, 'c'), (4, 'd'), (5, 'e')]) 5 = some 2 := rfl
  obtain ⟨m, hrun, hcurrent, hshows⟩ := run_over_children hm (fun _ _ => trivial) hall
    (fun c _ => by cases c <;> trivial) hcalls
  exact ⟨m, hrun, hcurrent, hshows _ rfl⟩

/-! ## `NewMergingIterator` -/

theorem standsAt_emptyIterator (cmp : K → K → Ordering) : (emptyIterator : Iter Unit K V).StandsAt cmp [] () 0 := by
  refine ⟨fun _ i => i = 0, ⟨?_, nofun, nofun, ?_, ?_, ?_, nofun, nofun⟩, rfl⟩
  · rintro _ _ rfl
    rfl
  · exact fun _ => ⟨(), rfl, rfl⟩
  · exact fun _ => ⟨(), rfl, rfl⟩
  · exact fun _ _ _ => ⟨(), rfl, rfl⟩

/-- Whatever it returns goes through the entries of all iterators of the list, in order. -/
theorem standsAt_newMergingIterator [TransCmp cmp] (hm : Merges cmp Ls es) (haccepts : ∀ e ∈ es, it.accepts e.1)
    (h : All (fun s L => ∃ i, it.StandsAt cmp L s i) children Ls) :
    ∃ m i, newMergingIterator it children = .ok m ∧ (MergedIterator.asIter it cmp).StandsAt cmp es m i := by
  have hlen := h.length
  rcases children with _ | ⟨s, _ | ⟨s', rest⟩⟩
  · obtain rfl := eq_nil_of_length_eq_zero hlen.symm
    obtain rfl := hm.perm.eq_nil
    exact ⟨_, 0, rfl, (standsAt_emptyIterator cmp).embed (embeds_inl _ _)⟩
  · obtain ⟨L, rfl⟩ := length_eq_one_iff.1 hlen.symm
    obtain rfl : es = L := by
      have hperm : es.Perm L := by simpa using hm.perm
      refine hperm.eq_of_pairwise (fun a b _ _ hab hba => ?_) hm.sorted (hm.each L mem_cons_self)
      exact absurd (TransCmp.lt_trans hab hba) (not_lt_self _)
    obtain ⟨i, hi⟩ := h.each (i := 0) rfl rfl
    exact ⟨_, i, rfl, (hi.embed (embeds_inl _ _)).embed (embeds_inr _ _)⟩
  · obtain ⟨ws, hws, hall⟩ := h.mapM (IteratorWrapper.set it)
      (Q := fun w L => ∃ i, (IteratorWrapper.asIter it).StandsAt cmp L w i) fun _ ⟨i, h⟩ => by
        obtain ⟨w, hw, h'⟩ := IteratorWrapper.set_eq h
        exact ⟨w, hw, i, h'⟩
    have haccepts' : ∀ e ∈ es, (IteratorWrapper.asIter it).accepts e.1 := haccepts
    refine ⟨_, es.length, ?_, ((standsAt_new hm haccepts' hall).embed (embeds_inr _ _)).embed (embeds_inr _ _)⟩
    rw [newMergingIterator, hws]
    · rfl
    · simp
    · simp

end MergingIterator

end Dbms18.LevelDb
