import Mathlib.Data.List.Induction

/-!
# Runs of a step function

A system is a step function `step : σ → α → Except ε σ`; an error says that the step goes wrong (an
access outside a block, a failed assertion). `Safe step P s as` says that the run of `as` from `s`
never goes wrong and that `P` holds in every state it reaches, the first one included.
`Guarded step G s as` says that every step of the run meets `G` in the state it is taken from.

The two rules below reduce a statement about whole runs to one about a single step: a guard that
keeps an invariant makes guarded runs safe (`safe_of_guarded`), and a guard that is exactly what a
step needs to keep `P` makes safe runs the guarded ones (`safe_iff_guarded`).
-/

namespace Dbms18.Run

variable {σ α ε : Type*} {step : σ → α → Except ε σ} {P Q : σ → Prop} {G : σ → α → Prop}

/-- The state after the steps `as`, if none of them goes wrong. -/
def exec (step : σ → α → Except ε σ) : σ → List α → Except ε σ
  | s, [] => .ok s
  | s, a :: as => (step s a).bind fun s' => exec step s' as

theorem exec_append (s : σ) (as bs : List α) :
    exec step s (as ++ bs) = (exec step s as).bind fun s' => exec step s' bs := by
  induction as generalizing s with
  | nil => rfl
  | cons a as ih =>
    rw [List.cons_append, exec, exec]
    cases step s a with
    | error e => rfl
    | ok s' => exact ih s'

variable {as : List α}

theorem exec_concat {s s' s'' : σ} {a : α} (hs : exec step s as = .ok s') (ha : step s' a = .ok s'') :
    exec step s (as ++ [a]) = .ok s'' := by
  rw [exec_append, hs]
  exact (congrArg (Except.bind · _) ha).trans rfl

/-- Every step of the run meets `G` in the state it is taken from. -/
def Guarded (step : σ → α → Except ε σ) (G : σ → α → Prop) : σ → List α → Prop
  | _, [] => True
  | s, a :: as => G s a ∧ ∀ s', step s a = .ok s' → Guarded step G s' as

/-- The run never goes wrong, and `P` holds in every state it reaches. -/
def Safe (step : σ → α → Except ε σ) (P : σ → Prop) : σ → List α → Prop
  | s, [] => P s
  | s, a :: as => P s ∧ ∃ s', step s a = .ok s' ∧ Safe step P s' as

variable {s : σ}

theorem Safe.head (h : Safe step P s as) : P s := by
  cases as with
  | nil => exact h
  | cons a as => exact h.1

theorem Safe.exec {as bs : List α} (h : Safe step P s (as ++ bs)) :
    ∃ s', exec step s as = .ok s' ∧ Safe step P s' bs := by
  induction as generalizing s with
  | nil => exact ⟨s, rfl, h⟩
  | cons a as ih =>
    obtain ⟨-, s₁, hs₁, h⟩ := h
    obtain ⟨s', hs', h'⟩ := ih h
    exact ⟨s', by simp [Run.exec, hs₁, hs', Except.bind], h'⟩

theorem Safe.exec_all (h : Safe step P s as) :
    ∃ s', Run.exec step s as = .ok s' ∧ P s' := by
  rw [← List.append_nil as] at h
  exact h.exec

theorem not_safe_of_exec_error {e : ε} (h : exec step s as = .error e) :
    ¬ Safe step P s as := by
  intro hsafe
  obtain ⟨s', hs', -⟩ := hsafe.exec_all
  cases h.symm.trans hs'

theorem not_safe_of_exec_ok {s s' : σ} (h : exec step s as = .ok s') (hP : ¬ P s') :
    ¬ Safe step P s as := by
  intro hsafe
  obtain ⟨s'', hs'', hs⟩ := hsafe.exec_all
  obtain rfl : s' = s'' := Except.ok.inj (h.symm.trans hs'')
  exact hP hs

theorem Guarded.cons {s s' : σ} {a : α} (hG : G s a) (hs' : step s a = .ok s')
    (h : Guarded step G s' as) : Guarded step G s (a :: as) :=
  ⟨hG, fun s'' hs'' => by obtain rfl := Except.ok.inj (hs'.symm.trans hs''); exact h⟩

/-- If steps that meet `G` keep the invariant `P` and do not go wrong, guarded runs are safe. -/
theorem safe_of_guarded (hstep : ∀ s a, P s → G s a → ∃ s', step s a = .ok s' ∧ P s')
    (hs : P s) (h : Guarded step G s as) : Safe step P s as := by
  induction as generalizing s with
  | nil => exact hs
  | cons a as ih =>
    obtain ⟨s', hs', hP⟩ := hstep s a hs h.1
    exact ⟨hs, s', hs', ih hP (h.2 s' hs')⟩

theorem Guarded.of_append {s s' : σ} {a : α} {bs : List α} (h : Guarded step G s (as ++ a :: bs))
    (hs : exec step s as = .ok s') : G s' a := by
  induction as generalizing s with
  | nil =>
    obtain rfl := Except.ok.inj hs
    exact h.1
  | cons b as ih =>
    rw [exec] at hs
    cases hb : step s b with
    | error e =>
      rw [hb] at hs
      cases hs
    | ok s₁ =>
      rw [hb] at hs
      exact ih (h.2 s₁ hb) hs

/-- The same for an invariant that speaks of the steps taken so far: it holds after each prefix of a guarded run. -/
theorem exec_of_guarded {P : List α → σ → Prop} (hs : P [] s) (h : Guarded step G s as)
    (hstep : ∀ done s' a, exec step s done = .ok s' → P done s' → G s' a → ∃ s'', step s' a = .ok s'' ∧ P (done ++ [a]) s'')
    {done : List α} (hdone : done <+: as) : ∃ s', exec step s done = .ok s' ∧ P done s' := by
  induction done using List.reverseRecOn with
  | nil => exact ⟨s, rfl, hs⟩
  | append_singleton done a ih =>
    obtain ⟨rest, rfl⟩ := hdone
    rw [List.append_assoc] at h ih
    obtain ⟨s', hs', hP⟩ := ih (List.prefix_append ..)
    obtain ⟨s'', hs'', hP'⟩ := hstep done s' a hs' hP (h.of_append hs')
    exact ⟨s'', exec_concat hs' hs'', hP'⟩

/-- If, in states that satisfy `P`, the steps that keep `P` are exactly those that meet `G`, the
safe runs are exactly the guarded ones. -/
theorem safe_iff_guarded (hstep : ∀ s a, P s → (G s a ↔ ∃ s', step s a = .ok s' ∧ P s'))
    (hs : P s) : Safe step P s as ↔ Guarded step G s as := by
  refine ⟨fun h => ?_, safe_of_guarded (fun s a hP hG => (hstep s a hP).1 hG) hs⟩
  induction as generalizing s with
  | nil => trivial
  | cons a as ih =>
    obtain ⟨-, s', hs', h⟩ := h
    refine ⟨(hstep s a hs).2 ⟨s', hs', h.head⟩, fun s'' hs'' => ?_⟩
    obtain rfl : s' = s'' := Except.ok.inj (hs'.symm.trans hs'')
    exact ih h.head h

theorem Safe.imp (hPQ : ∀ s, P s → Q s) (h : Safe step P s as) :
    Safe step Q s as := by
  induction as generalizing s with
  | nil => exact hPQ s h
  | cons a as ih =>
    obtain ⟨hs, s', hs', h⟩ := h
    exact ⟨hPQ s hs, s', hs', ih h⟩

/-- A property that every step keeps may be added to, or dropped from, what a run must satisfy. -/
theorem safe_and_iff {B : σ → Prop} (hB : ∀ s a s', B s → step s a = .ok s' → B s')
    (hs : B s) : Safe step P s as ↔ Safe step (fun s => P s ∧ B s) s as := by
  refine ⟨fun h => ?_, Safe.imp fun _ h => h.1⟩
  induction as generalizing s with
  | nil => exact ⟨h, hs⟩
  | cons a as ih =>
    obtain ⟨hP, s', hs', h⟩ := h
    exact ⟨⟨hP, hs⟩, s', hs', ih (hB s a s' hs hs') h⟩

/-- If, in states that satisfy the invariant `B`, steps that meet `G` keep it and others go wrong, then
the guarded runs are exactly those that satisfy anything `B` implies. -/
theorem safe_iff_guarded_of_step {B : σ → Prop} {e : ε} (hBP : ∀ s, B s → P s)
    (hstep : ∀ s a, B s → G s a ∧ (∃ s', step s a = .ok s' ∧ B s') ∨ ¬ G s a ∧ step s a = .error e)
    (hs : B s) : Safe step P s as ↔ Guarded step G s as := by
  have hkeep : ∀ s a s', B s → step s a = .ok s' → B s' := by
    intro s a s' hs hs'
    rcases hstep s a hs with ⟨-, s'', hs'', hB⟩ | ⟨-, herr⟩
    · exact Except.ok.inj (hs'.symm.trans hs'') ▸ hB
    · cases hs'.symm.trans herr
  refine (safe_and_iff hkeep hs).trans (safe_iff_guarded (fun s a hPB => ?_) ⟨hBP s hs, hs⟩)
  rcases hstep s a hPB.2 with ⟨hG, s', hs', hB⟩ | ⟨hG, herr⟩
  · exact iff_of_true hG ⟨s', hs', hBP s' hB, hB⟩
  · exact iff_of_false hG (by simp [herr])

end Dbms18.Run
