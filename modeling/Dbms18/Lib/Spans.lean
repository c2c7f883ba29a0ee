import Mathlib.Order.Compare

/-!
# Spans of keys

A span is given by its two ends, which belong to it. `Meets cmp p q` says that two spans have a key in common, for
spans that are not empty. Spans cover a span if every span that meets it meets one of them (`Covers`): a span that is
made longer by another one that meets it is covered by both (`Covers.extend`), so spans that were picked up one after
the other leave no gap.
-/

namespace Dbms18

open Std

structure Span (K : Type) where
  lo : K
  hi : K
deriving DecidableEq

namespace Span

variable {K : Type} (cmp : K → K → Ordering)

def Nonempty (p : Span K) : Prop := (cmp p.lo p.hi).isLE = true

def Meets (p q : Span K) : Prop := (cmp p.lo q.hi).isLE = true ∧ (cmp q.lo p.hi).isLE = true

def Holds (p : Span K) (k : K) : Prop := (cmp p.lo k).isLE = true ∧ (cmp k p.hi).isLE = true

def Within (p q : Span K) : Prop := (cmp q.lo p.lo).isLE = true ∧ (cmp p.hi q.hi).isLE = true

/-- Every span that meets `p` meets one of `ps`. -/
def Covers (ps : List (Span K)) (p : Span K) : Prop := ∀ q : Span K, Nonempty cmp q → Meets cmp q p → ∃ r ∈ ps, Meets cmp q r

variable {cmp} {p q r : Span K} {ps qs : List (Span K)} {k : K}

theorem Meets.symm (h : Meets cmp p q) : Meets cmp q p := ⟨h.2, h.1⟩

theorem Nonempty.meets_self (h : Nonempty cmp p) : Meets cmp p p := ⟨h, h⟩

theorem covers_of_mem (h : p ∈ ps) : Covers cmp ps p := fun _ _ hq => ⟨p, h, hq⟩

theorem Covers.mono (h : Covers cmp ps p) (hsub : ∀ q ∈ ps, q ∈ qs) : Covers cmp qs p := by
  intro q hq hmeets
  obtain ⟨r, hr, hmeets'⟩ := h q hq hmeets
  exact ⟨r, hsub r hr, hmeets'⟩

theorem Covers.trans (h : Covers cmp ps p) (hps : ∀ q ∈ ps, Covers cmp qs q) : Covers cmp qs p := by
  intro x hx hmeets
  obtain ⟨q, hq, hxq⟩ := h x hx hmeets
  exact hps q hq x hx hxq

section Order

variable [TransCmp cmp]

theorem not_meets_iff : ¬ Meets cmp p q ↔ cmp q.hi p.lo = .lt ∨ cmp p.hi q.lo = .lt := by
  rw [Meets, not_and_or]
  exact or_congr ⟨OrientedCmp.lt_of_not_isLE, OrientedCmp.not_isLE_of_lt⟩
    ⟨OrientedCmp.lt_of_not_isLE, OrientedCmp.not_isLE_of_lt⟩

theorem Meets.of_within (h : Meets cmp p q) (hq : Within cmp q r) : Meets cmp p r :=
  ⟨TransCmp.isLE_trans h.1 hq.2, TransCmp.isLE_trans hq.1 h.2⟩

theorem Within.trans (h : Within cmp p q) (h' : Within cmp q r) : Within cmp p r :=
  ⟨TransCmp.isLE_trans h'.1 h.1, TransCmp.isLE_trans h.2 h'.2⟩

theorem within_refl (p : Span K) : Within cmp p p := ⟨ReflCmp.isLE_rfl, ReflCmp.isLE_rfl⟩

theorem Holds.of_within (h : Holds cmp p k) (hp : Within cmp p q) : Holds cmp q k :=
  ⟨TransCmp.isLE_trans hp.1 h.1, TransCmp.isLE_trans h.2 hp.2⟩

theorem Holds.meets (h : Holds cmp p k) (h' : Holds cmp q k) : Meets cmp p q :=
  ⟨TransCmp.isLE_trans h.1 h'.2, TransCmp.isLE_trans h'.1 h.2⟩

theorem Covers.of_within (h : Covers cmp ps p) (hq : Within cmp q p) : Covers cmp ps q :=
  fun x hx hmeets => h x hx (hmeets.of_within hq)

/-- What is covered stays so when it is made longer, at each end by no more than a span that meets it and is one of those
that cover. -/
theorem Covers.extend (h : Covers cmp ps p)
    (hlo : (cmp p.lo q.lo).isLE = true ∨ ∃ r ∈ ps, Meets cmp r p ∧ (cmp r.lo q.lo).isLE = true)
    (hhi : (cmp q.hi p.hi).isLE = true ∨ ∃ r ∈ ps, Meets cmp r p ∧ (cmp q.hi r.hi).isLE = true) : Covers cmp ps q := by
  intro x hx hxq
  by_cases hxp : Meets cmp x p
  · exact h x hx hxp
  rcases not_meets_iff.1 hxp with hlt | hlt
  · -- `x` lies behind `p`
    rcases hhi with hle | ⟨r, hr, hrp, hle⟩
    · exact absurd hxq.1 (OrientedCmp.not_isLE_of_lt (TransCmp.lt_of_isLE_of_lt hle hlt))
    · refine ⟨r, hr, TransCmp.isLE_trans hxq.1 hle, TransCmp.isLE_trans hrp.1 (Ordering.isLE_of_eq_lt ?_)⟩
      exact TransCmp.lt_of_lt_of_isLE hlt hx
  · rcases hlo with hle | ⟨r, hr, hrp, hle⟩
    · exact absurd hxq.2 (OrientedCmp.not_isLE_of_lt (TransCmp.lt_of_lt_of_isLE hlt hle))
    · refine ⟨r, hr, TransCmp.isLE_trans (Ordering.isLE_of_eq_lt ?_) hrp.2, TransCmp.isLE_trans hle hxq.2⟩
      exact TransCmp.lt_of_isLE_of_lt hx hlt

end Order

end Span

end Dbms18
