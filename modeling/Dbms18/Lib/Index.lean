import Mathlib.Data.List.Nodup

/-!
# Maps from keys to positions of a list

`Indexes m l f` says that `m` finds the elements of `l` by their key `f`: it maps a key to the position
of the element with that key, and only to that. The keys are then distinct.
-/

namespace Dbms18

open List

variable {K α : Type*} {m : K → Option Nat} {l : List α} {f : α → K} {k : K} {a : α}

def Indexes (m : K → Option Nat) (l : List α) (f : α → K) : Prop :=
  ∀ k i, m k = some i ↔ ∃ a, l[i]? = some a ∧ f a = k

namespace Indexes

theorem nil (f : α → K) : Indexes (fun _ => none) [] f := by
  intro k i
  simp

section Indexes

variable (h : Indexes m l f)

include h

theorem eq_none_iff : m k = none ↔ ∀ a ∈ l, f a ≠ k := by
  rw [Option.eq_none_iff_forall_ne_some]
  constructor
  · intro hne a ha heq
    obtain ⟨i, hi⟩ := mem_iff_getElem?.1 ha
    exact hne i ((h k i).2 ⟨a, hi, heq⟩)
  · intro hne i hi
    obtain ⟨a, ha, heq⟩ := (h k i).1 hi
    exact hne a (mem_of_getElem? ha) heq

theorem lookup_eq_some : (m k).bind (fun i => l[i]?) = some a ↔ a ∈ l ∧ f a = k := by
  rw [Option.bind_eq_some_iff]
  constructor
  · rintro ⟨i, hi, ha⟩
    obtain ⟨b, hb, heq⟩ := (h k i).1 hi
    obtain rfl := Option.some.inj (ha.symm.trans hb)
    exact ⟨mem_of_getElem? ha, heq⟩
  · rintro ⟨ha, heq⟩
    obtain ⟨i, hi⟩ := mem_iff_getElem?.1 ha
    exact ⟨i, (h k i).2 ⟨a, hi, heq⟩, hi⟩

theorem nodup : (l.map f).Nodup := by
  rw [nodup_iff_getElem?_ne_getElem?]
  intro i j hij hj heq
  have hj' : j < l.length := by simpa using hj
  have hi' : i < l.length := Nat.lt_trans hij hj'
  simp only [getElem?_map, getElem?_eq_getElem hi', getElem?_eq_getElem hj', Option.map_some] at heq
  have hki := (h (f l[i]) i).2 ⟨l[i], getElem?_eq_getElem hi', rfl⟩
  have hkj := (h (f l[i]) j).2 ⟨l[j], getElem?_eq_getElem hj', (Option.some.inj heq).symm⟩
  exact Nat.ne_of_lt hij (Option.some.inj (hki.symm.trans hkj))

theorem eq_none_of_nodup {l' : List α} (hnd : ((l ++ a :: l').map f).Nodup) :
    m (f a) = none := by
  refine h.eq_none_iff.2 fun b hb heq => ?_
  rw [map_append, nodup_append] at hnd
  exact hnd.2.2 _ (mem_map_of_mem hb) _ mem_cons_self heq

theorem push [DecidableEq K] (hfresh : m (f a) = none) :
    Indexes (Function.update m (f a) (some l.length)) (l ++ [a]) f := by
  intro k i
  have hne := h.eq_none_iff.1 hfresh
  have hget : ∀ b, (l ++ [a])[i]? = some b ↔ l[i]? = some b ∨ i = l.length ∧ a = b := by
    intro b
    grind
  simp only [hget]
  by_cases hk : k = f a
  · subst hk
    rw [Function.update_self, Option.some_inj]
    constructor
    · rintro rfl
      exact ⟨a, .inr ⟨rfl, rfl⟩, rfl⟩
    · rintro ⟨b, hb | ⟨rfl, -⟩, heq⟩
      · exact absurd heq (hne b (mem_of_getElem? hb))
      · rfl
  · rw [Function.update_of_ne hk, h k i]
    refine exists_congr fun b => and_congr_left fun heq => ⟨.inl, ?_⟩
    rintro (hb | ⟨-, rfl⟩)
    · exact hb
    · exact absurd heq.symm hk

theorem modify (g : α → α) (hg : ∀ a, f (g a) = f a) (j : Nat) :
    Indexes m (l.modify j g) f := by
  intro k i
  rw [h k i, getElem?_modify]
  cases l[i]? with
  | none => simp
  | some b => by_cases hij : j = i <;> simp [hij, hg]

end Indexes

end Indexes

/-! ## Positions of related lists -/

variable {β : Type*} {R : α → β → Prop} {l' : List β} {i : Nat} {b : β}

theorem forall₂_getElem?_left (h : List.Forall₂ R l l') (hi : l[i]? = some a) : ∃ b, l'[i]? = some b ∧ R a b := by
  induction h generalizing i with
  | nil => cases hi
  | @cons a' b' _ _ hR _ ih =>
    cases i with
    | zero =>
      obtain rfl := Option.some.inj hi
      exact ⟨b', rfl, hR⟩
    | succ i => exact ih hi

theorem forall₂_getElem?_right (h : List.Forall₂ R l l') (hi : l'[i]? = some b) : ∃ a, l[i]? = some a ∧ R a b :=
  forall₂_getElem?_left h.flip hi

theorem nodup_append_map_iff {ks : List K} {l : List α} (hks : ks.Nodup) : (ks ++ l.map f).Nodup ↔
    ∀ pre a post, l = pre ++ a :: post → f a ∉ ks ++ pre.map f := by
  induction l generalizing ks with
  | nil => simpa using hks
  | cons x l ih =>
    have hstep : (ks ++ [f x]).Nodup ↔ f x ∉ ks := by
      rw [← concat_eq_append, nodup_concat]
      exact and_iff_left hks
    have hcons : ks ++ (x :: l).map f = (ks ++ [f x]) ++ l.map f := by simp
    rw [hcons]
    constructor
    · intro hnodup pre a post heq
      have hnew := (nodup_append.1 hnodup).1
      cases pre with
      | nil =>
        obtain ⟨rfl, -⟩ := List.cons.inj heq
        simpa using hstep.1 hnew
      | cons y pre =>
        obtain ⟨rfl, hl⟩ := List.cons.inj heq
        simpa using (ih hnew).1 hnodup pre a post hl
    · intro hall
      have hnew := hstep.2 (by simpa using hall [] x l rfl)
      refine (ih hnew).2 fun pre a post heq => ?_
      simpa using hall (x :: pre) a post (by rw [heq]; rfl)

theorem eq_singleton_of_nodup (hnodup : l.Nodup) (hmem : a ∈ l) (hall : ∀ b ∈ l, b = a) : l = [a] := by
  have hlen : l.length ≤ 1 := by
    rw [eq_replicate_iff.2 ⟨rfl, hall⟩] at hnodup
    exact nodup_replicate.1 hnodup
  obtain ⟨b, rfl⟩ := length_eq_one_iff.1 (Nat.le_antisymm hlen (length_pos_of_mem hmem))
  rw [hall b mem_cons_self]

end Dbms18
