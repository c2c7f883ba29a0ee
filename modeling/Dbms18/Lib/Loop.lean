import Dbms18.Lib.Fault

/-!
# Loops

`loop body` is `while (true)` around a body that either goes on with a new state or returns. A proof
about one gives an invariant and a variant, here one predicate `I k`: a pass from `I k` that goes on
leads to `I k'` for a smaller `k'`, so fuel above `k` is enough (`loop_total`).
-/

namespace Dbms18.Res

variable {σ β : Type} {body : σ → Res (σ ⊕ β)} {s s' : σ} {fuel : Nat}

def loop (body : σ → Res (σ ⊕ β)) : Nat → σ → Res β
  | 0, _ => .error .outOfFuel
  | fuel + 1, s => do
    match ← body s with
    | .inl s' => loop body fuel s'
    | .inr b => return b

theorem loop_of_continue (h : body s = .ok (.inl s')) : loop body (fuel + 1) s = loop body fuel s' := by
  simp [loop, h]

theorem loop_of_return {b : β} (h : body s = .ok (.inr b)) : loop body (fuel + 1) s = .ok b := by
  simp [loop, h]

theorem loop_return {b : β} (hfuel : 0 < fuel) (h : body s = .ok (.inr b)) : loop body fuel s = .ok b := by
  obtain ⟨fuel, rfl⟩ := Nat.exists_eq_succ_of_ne_zero (Nat.ne_of_gt hfuel)
  exact loop_of_return h

theorem loop_of_fault {e : Fault} (h : body s = .error e) : loop body (fuel + 1) s = .error e := by
  simp [loop, h]

theorem loop_eq_ok {b : β} (h : loop body (fuel + 1) s = .ok b) :
    (∃ s', body s = .ok (.inl s') ∧ loop body fuel s' = .ok b) ∨ body s = .ok (.inr b) := by
  obtain ⟨r, hbody, h⟩ := bind_eq_ok.1 h
  cases r with
  | inl s' => exact .inl ⟨s', hbody, h⟩
  | inr b' =>
    obtain rfl := Except.ok.inj h
    exact .inr hbody

theorem loop_mono {b : β} {fuel' : Nat} (h : loop body fuel s = .ok b) (hle : fuel ≤ fuel') : loop body fuel' s = .ok b := by
  induction fuel generalizing s fuel' with
  | zero => cases h
  | succ fuel ih =>
    obtain ⟨fuel', rfl⟩ := Nat.exists_eq_succ_of_ne_zero (Nat.ne_zero_of_lt hle)
    rcases loop_eq_ok h with ⟨s', hbody, hrest⟩ | hbody
    · rw [loop_of_continue hbody]
      exact ih hrest (Nat.le_of_succ_le_succ hle)
    · exact loop_of_return hbody

theorem exists_fuel {P Q : Nat → Prop} (h : ∃ N, ∀ fuel ≥ N, P fuel) (h' : ∃ N, ∀ fuel ≥ N, Q fuel) :
    ∃ fuel, P fuel ∧ Q fuel := by
  obtain ⟨N, hN⟩ := h
  obtain ⟨N', hN'⟩ := h'
  exact ⟨max N N', hN _ (Nat.le_max_left ..), hN' _ (Nat.le_max_right ..)⟩

theorem loop_unique {b b' : β} (h : loop body fuel s = .ok b) (h' : ∃ N, ∀ fuel ≥ N, loop body fuel s = .ok b') :
    b' = b := by
  obtain ⟨_, hb, hb'⟩ := exists_fuel ⟨fuel, fun _ hle => loop_mono h hle⟩ h'
  exact Except.ok.inj (hb'.symm.trans hb)

theorem loop_total {I : Nat → σ → Prop} {Q : β → Prop} {k : Nat}
    (hstep : ∀ k s, I k s → (∃ k' s', body s = .ok (.inl s') ∧ I k' s' ∧ k' < k) ∨ ∃ b, body s = .ok (.inr b) ∧ Q b)
    (hs : I k s) (hfuel : k < fuel) : ∃ b, loop body fuel s = .ok b ∧ Q b := by
  induction fuel generalizing k s with
  | zero => cases hfuel
  | succ fuel ih =>
    rcases hstep k s hs with ⟨k', s', hbody, hs', hlt⟩ | ⟨b, hbody, hb⟩
    · obtain ⟨b, hloop, hb⟩ := ih hs' (by omega)
      exact ⟨b, (loop_of_continue hbody).trans hloop, hb⟩
    · exact ⟨b, loop_of_return hbody, hb⟩

theorem loop_map {σ' β' : Type} {body' : σ' → Res (σ' ⊕ β')} {f : σ' → σ} {g : β' → β}
    (h : ∀ s, body (f s) = Sum.map f g <$> body' s) (fuel : Nat) (s : σ') :
    loop body fuel (f s) = g <$> loop body' fuel s := by
  induction fuel generalizing s with
  | zero => rfl
  | succ fuel ih =>
    rw [loop, loop, h]
    rcases body' s with fault | s' | b
    · rfl
    · exact ih s'
    · rfl

/-- If every pass of a loop is matched by one of another loop, the other loop returns where the first does. -/
theorem loop_sim {σ' β' : Type} {body' : σ' → Res (σ' ⊕ β')} {R : σ → σ' → Prop} {Q : β → β' → Prop}
    (h : ∀ s s' r, R s s' → body s = .ok r → ∃ r', body' s' = .ok r' ∧ Sum.LiftRel R Q r r') {t : σ'} (hs : R s t)
    {b : β} (hloop : loop body fuel s = .ok b) : ∃ b', loop body' fuel t = .ok b' ∧ Q b b' := by
  induction fuel generalizing s t with
  | zero => cases hloop
  | succ fuel ih =>
    rcases loop_eq_ok hloop with ⟨s', hbody, hrest⟩ | hbody
    · obtain ⟨_, hbody', hs' | _⟩ := h s t _ hs hbody
      obtain ⟨b', hloop', hb⟩ := ih hs' hrest
      exact ⟨b', (loop_of_continue hbody').trans hloop', hb⟩
    · obtain ⟨_, hbody', _ | hb⟩ := h s t _ hs hbody
      exact ⟨_, loop_of_return hbody', hb⟩

end Dbms18.Res
