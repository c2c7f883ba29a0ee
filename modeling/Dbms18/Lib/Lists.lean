import Mathlib.Data.List.Nodup
import Mathlib.Data.List.Perm.Subperm
import Mathlib.Data.List.TakeWhile

/-!
# Parts of a list

The elements of a list up to the first that fails a test, against all that pass it, the elements read
through a list of distinct positions, the blocks of which a list is made up, and the comparison of two lists
element by element.
-/

namespace Dbms18

open List

variable {α : Type*} {p : α → Bool} {l l' : List α}

theorem takeWhile_sublist_filter (p : α → Bool) (l : List α) : (l.takeWhile p).Sublist (l.filter p) := by
  induction l with
  | nil => simp
  | cons a l ih =>
    by_cases ha : p a
    · simpa [ha] using ih
    · simp [ha]

theorem pairwise_of_filter_eq_nil (h : l.filter p = []) : l.Pairwise fun a b => p b → p a := by
  refine List.Pairwise.imp_of_mem (fun {a b} _ hb _ hp => ?_) (pairwise_of_forall fun _ _ => trivial)
  exact absurd hp (filter_eq_nil_iff.1 h b hb)

theorem length_takeWhile_eq_iff :
    (l.takeWhile p).length = (l.filter p).length ↔ l.Pairwise fun a b => p b → p a := by
  induction l with
  | nil => simp
  | cons a l ih =>
    by_cases ha : p a
    · simp [ha, ih]
    · rw [takeWhile_cons_of_neg ha, filter_cons_of_neg ha, pairwise_cons, length_nil, eq_comm,
        length_eq_zero_iff]
      refine ⟨fun h => ⟨fun b hb hp => absurd hp (filter_eq_nil_iff.1 h b hb), pairwise_of_filter_eq_nil h⟩, ?_⟩
      exact fun h => filter_eq_nil_iff.2 fun b hb hp => ha (h.1 b hb hp)

theorem takeWhile_eq_filter (h : l.Pairwise fun a b => p b → p a) : l.takeWhile p = l.filter p :=
  (takeWhile_sublist_filter p l).eq_of_length (length_takeWhile_eq_iff.2 h)

theorem perm_of_map_getElem? {js : List Nat} (hnodup : js.Nodup) (h : js.map (l[·]?) = l'.map some)
    (hlen : l.length ≤ l'.length) : l'.Perm l := by
  have hjs : js.length = l'.length := by simpa using congrArg List.length h
  have hlt : ∀ j ∈ js, j < l.length := by
    intro j hj
    have hmem : l[j]? ∈ l'.map some := h ▸ mem_map_of_mem hj
    obtain ⟨a, -, ha⟩ := mem_map.1 hmem
    exact (List.getElem?_eq_some_iff.1 ha.symm).1
  have hperm : js.Perm (List.range l.length) :=
    (hnodup.subperm fun j hj => mem_range.2 (hlt j hj)).perm_of_length_le (by simp [hjs, hlen])
  have hrange : (List.range l.length).map (l[·]?) = l.map some := by
    refine ext_getElem? fun i => ?_
    by_cases hi : i < l.length <;> simp [hi]
  have hmap := hperm.map (l[·]?)
  rw [h, hrange] at hmap
  exact (map_perm_map_iff fun _ _ => Option.some.inj).1 hmap

/-- Lists of blocks that have the same elements have the same blocks, if an element shows which block it is
in and corresponding blocks are equally long. -/
theorem eq_of_flatMap_eq {β γ : Type*} {f g : α → List β} (tag : β → γ) (label : α → γ)
    (hlabel : ∀ a ∈ l, ∀ b ∈ l', label a = label b → a = b) (hf : ∀ a ∈ l, f a ≠ [] ∧ ∀ x ∈ f a, tag x = label a)
    (hg : ∀ a ∈ l', g a ≠ [] ∧ ∀ x ∈ g a, tag x = label a) (hlength : ∀ a ∈ l, (f a).length = (g a).length)
    (h : l.flatMap f = l'.flatMap g) : l = l' ∧ ∀ a ∈ l, f a = g a := by
  induction l generalizing l' with
  | nil =>
    cases l' with
    | nil => exact ⟨rfl, by simp⟩
    | cons b l' =>
      have hnil : g b = [] := (append_eq_nil_iff.1 h.symm).1
      exact absurd hnil (hg b mem_cons_self).1
  | cons a l ih =>
    obtain ⟨hne, htag⟩ := hf a mem_cons_self
    obtain ⟨x, xs, hx⟩ := exists_cons_of_ne_nil hne
    cases l' with
    | nil =>
      have hnil : f a = [] := (append_eq_nil_iff.1 h).1
      exact absurd hnil hne
    | cons b l' =>
      obtain ⟨hne', htag'⟩ := hg b mem_cons_self
      obtain ⟨y, ys, hy⟩ := exists_cons_of_ne_nil hne'
      rw [flatMap_cons, flatMap_cons] at h
      -- the first elements are equal, so the first blocks are those of the same element
      have hxy : x = y := by
        rw [hx, hy, cons_append, cons_append] at h
        exact (List.cons.inj h).1
      have hab : a = b := by
        refine hlabel a mem_cons_self b mem_cons_self ?_
        rw [← htag x (hx ▸ mem_cons_self), hxy, htag' y (hy ▸ mem_cons_self)]
      subst hab
      obtain ⟨hfirst, hrest⟩ := append_inj h (hlength a mem_cons_self)
      obtain ⟨rfl, hall⟩ := ih (fun c hc d hd => hlabel c (mem_cons_of_mem _ hc) d (mem_cons_of_mem _ hd))
        (fun c hc => hf c (mem_cons_of_mem _ hc)) (fun c hc => hg c (mem_cons_of_mem _ hc))
        (fun c hc => hlength c (mem_cons_of_mem _ hc)) hrest
      exact ⟨rfl, forall_mem_cons.2 ⟨hfirst, hall⟩⟩

theorem flatMap_filter_of_eq_nil {β : Type*} {f : α → List β} (hf : ∀ a, p a = false → f a = []) (l : List α) :
    (l.filter p).flatMap f = l.flatMap f := by
  induction l with
  | nil => rfl
  | cons a l ih =>
    cases ha : p a with
    | false => simp [ha, hf a ha, ih]
    | true => simp [ha, ih]

theorem compare_eq_lt_iff_lex {β : Type*} [Ord β] [Std.LawfulEqOrd β] {as bs : List β} :
    compare as bs = .lt ↔ List.Lex (fun a b => compare a b = .lt) as bs := by
  change List.compareLex compare as bs = .lt ↔ _
  induction as generalizing bs with
  | nil => cases bs <;> simp [List.compareLex_nil_nil, List.compareLex_nil_cons]
  | cons a as ih =>
    cases bs with
    | nil => simp [List.compareLex_cons_nil]
    | cons b bs =>
      rw [List.compareLex_cons_cons, cons_lex_cons_iff, ← ih, Ordering.then_eq_lt, Std.LawfulEqCmp.compare_eq_iff_eq]

theorem exists_of_prefix_flatMap {β : Type*} {f : α → List β} {bs : List β} (h : bs <+: l.flatMap f) (hne : bs ≠ l.flatMap f) :
    ∃ done a rest part cs, l = done ++ a :: rest ∧ bs = done.flatMap f ++ part ∧ f a = part ++ cs ∧ cs ≠ [] := by
  induction l generalizing bs with
  | nil => exact absurd (prefix_nil.1 h) hne
  | cons a l ih =>
    obtain ⟨cs, hcs⟩ := h
    rw [flatMap_cons] at hcs hne
    rcases append_eq_append_iff.1 hcs with ⟨as, hfa, hrest⟩ | ⟨as, rfl, hrest⟩
    · by_cases has : as = []
      · -- the cut is at the end of the first block
        subst has
        rw [append_nil] at hfa
        have hne' : [] ≠ l.flatMap f := fun hnil => hne (by rw [← hnil, append_nil, hfa])
        obtain ⟨done, a', rest, part, cs', rfl, hpart, hcut⟩ := ih List.nil_prefix hne'
        exact ⟨a :: done, a', rest, part, cs', rfl, by rw [flatMap_cons, append_assoc, ← hpart, append_nil,
          hfa], hcut⟩
      · exact ⟨[], a, l, bs, as, rfl, rfl, hfa, has⟩
    · obtain ⟨done, a', rest, part, cs', rfl, rfl, hcut⟩ := ih ⟨cs, hrest.symm⟩ fun heq => hne (by rw [heq])
      exact ⟨a :: done, a', rest, part, cs', rfl, by rw [flatMap_cons, append_assoc], hcut⟩

end Dbms18
