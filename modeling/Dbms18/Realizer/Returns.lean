import Dbms18.Realizer.Execute

/-!
# When the processing of a query returns

`Parse` always returns. A SELECT returns if `Check` does, then `Build`, then every call of the plan that
`ExecSelect` makes, and if each row can be sent (`PlanReturns`); another statement returns if its command
does. `exists_realize_iff` puts these together.
-/

namespace Dbms18

open Res

/-! ## The loop over the rows -/

/-- Successive calls of `GetNext` return rows that can be sent, and then another state. The executor and
the storage are left at `x'` and `w'`. -/
inductive Delivers {ω σ : Type} (E : Executor ω σ) (desc : RowDesc) : σ → ω → TupleRow → σ → ω → Prop
  | stop {x x' w w' row row' state} (h : E.getNext x w row = .ok (state, row', x', w')) (hstate : state ≠ .ok) :
    Delivers E desc x w row x' w'
  | next {x x₁ x' w w₁ w' row row₁ bytes} (h : E.getNext x w row = .ok (.ok, row₁, x₁, w₁))
    (hsend : Session.sendRowData row₁ desc = .ok bytes) (hrest : Delivers E desc x₁ w₁ row₁ x' w') :
    Delivers E desc x w row x' w'

namespace SelectLoop

variable {ω σ : Type} {E : Executor ω σ} {desc : RowDesc}

theorem loop_of_delivers {x x' : σ} {w w' : ω} {row : TupleRow} (h : Delivers E desc x w row x' w') (rows : Int32)
    (sent : List BackendMsg) : ∃ state l, l.members = x' ∧ l.world = w' ∧
      ∃ N, ∀ fuel ≥ N, Res.loop (step E desc) fuel ⟨x, w, row, rows, sent⟩ = .ok (state, l) := by
  induction h generalizing rows sent with
  | @stop x x' w w' row row' state h hstate =>
    have hstep : step E desc ⟨x, w, row, rows, sent⟩ = .ok (.inr (state, ⟨x', w', row', rows, sent⟩)) := by
      simp [step, h, hstate]
    exact ⟨state, ⟨x', w', row', rows, sent⟩, rfl, rfl, 1, fun fuel hfuel => loop_return hfuel hstep⟩
  | @next x x₁ x' w w₁ w' row row₁ bytes h hsend hrest ih =>
    have hstep : step E desc ⟨x, w, row, rows, sent⟩ =
        .ok (.inl ⟨x₁, w₁, row₁, rows + 1, sent ++ [.dataRow bytes]⟩) := by
      simp [step, h, hsend]
    obtain ⟨state, l, hx, hw, N, hN⟩ := ih (rows + 1) (sent ++ [.dataRow bytes])
    refine ⟨state, l, hx, hw, N + 1, fun fuel hfuel => ?_⟩
    obtain ⟨fuel, rfl⟩ := Nat.exists_eq_succ_of_ne_zero (Nat.ne_zero_of_lt hfuel)
    rw [loop_of_continue hstep, hN fuel (Nat.le_of_succ_le_succ hfuel)]

theorem delivers_of_loop {fuel : Nat} {l l' : SelectLoop ω σ} {state : State}
    (h : Res.loop (step E desc) fuel l = .ok (state, l')) : Delivers E desc l.members l.world l.row l'.members l'.world := by
  induction fuel generalizing l with
  | zero => cases h
  | succ fuel ih =>
    rcases loop_eq_ok h with ⟨l₁, hstep, hloop⟩ | hstep
    · obtain ⟨state₁, row, x, w, hget, ⟨-, heq⟩ | ⟨rfl, bytes, hsend, heq⟩⟩ := step_eq_ok hstep
      · cases heq
      · obtain rfl := Sum.inl.inj heq
        exact .next hget hsend (ih hloop)
    · obtain ⟨state₁, row, x, w, hget, ⟨hstate, heq⟩ | ⟨-, bytes, -, heq⟩⟩ := step_eq_ok hstep
      · obtain ⟨rfl, rfl⟩ := Prod.mk.inj (Sum.inr.inj heq)
        exact .stop hget hstate
      · cases heq

end SelectLoop

namespace QueryRealizer

variable {env : Environment} {executor : (p : Plan) → Executor LevelStore p.Members} {q : QueryRealizer}

/-! ## The statements -/

/-- The top executor returns from every call that `ExecSelect` makes, and each of its rows can be sent. -/
def PlanReturns (executor : (p : Plan) → Executor LevelStore p.Members) (q : QueryRealizer) : Prop :=
  ∃ plan state x w, q.topExec = some plan ∧ (executor plan).prepare plan.new q.storage = .ok (state, x, w) ∧
    (state = .ok → ∃ state x₁ w₁, (executor plan).execOpen x w = .ok (state, x₁, w₁) ∧
      (state = .ok → ∃ x₂ w₂ r, Delivers (executor plan) q.outputRowDesc x₁ w₁ (TupleRow.new 1) x₂ w₂ ∧
        (executor plan).close x₂ w₂ = .ok r))

theorem PlanReturns.execSelect (h : PlanReturns executor q) :
    ∃ N, ∀ fuel ≥ N, ∃ r, q.execSelect executor fuel = .ok r := by
  obtain ⟨plan, state, x, w, hplan, hprepare, hopened⟩ := h
  by_cases hstate : state = .ok
  · subst hstate
    obtain ⟨state, x₁, w₁, hopen, hdelivers⟩ := hopened rfl
    by_cases hstate : state = .ok
    · subst hstate
      obtain ⟨x₂, w₂, ⟨state', w₃⟩, hdelivers, hclose⟩ := hdelivers rfl
      obtain ⟨state, l, rfl, rfl, N, hN⟩ := SelectLoop.loop_of_delivers hdelivers 0
        (q.sent ++ [.rowDescription q.outputRowDesc])
      refine ⟨N, fun fuel hfuel => ?_⟩
      simp only [QueryRealizer.execSelect, hplan, getD_some, ok_bind, hprepare, hopen, hN fuel hfuel, hclose,
        ne_eq, not_true_eq_false, if_false]
      split <;> exact ⟨_, rfl⟩
    · exact ⟨0, fun fuel _ => ⟨_, by simp [QueryRealizer.execSelect, hplan, hprepare, hopen, hstate]; rfl⟩⟩
  · exact ⟨0, fun fuel _ => ⟨_, by simp [QueryRealizer.execSelect, hplan, hprepare, hstate]; rfl⟩⟩

variable {r : State × QueryRealizer}

theorem planReturns_of_execSelect {fuel : Nat} (h : q.execSelect executor fuel = .ok r) :
    PlanReturns executor q := by
  obtain ⟨plan, hplan, h⟩ := bind_eq_ok.1 h
  obtain ⟨⟨state, x, w⟩, hprepare, h⟩ := bind_eq_ok.1 h
  refine ⟨plan, state, x, w, getD_eq_ok.1 hplan, hprepare, ?_⟩
  rintro rfl
  obtain ⟨⟨state, x₁, w₁⟩, hopen, h⟩ := bind_eq_ok.1 h
  refine ⟨state, x₁, w₁, hopen, ?_⟩
  rintro rfl
  obtain ⟨⟨state, l⟩, hloop, h⟩ := bind_eq_ok.1 h
  obtain ⟨r, hclose, -⟩ := bind_eq_ok.1 h
  exact ⟨_, _, r, SelectLoop.delivers_of_loop hloop, hclose⟩

variable {fuel fuel' : Nat}

theorem execLoad_mono {stmt : LoadStmt} (h : q.execLoad env fuel stmt = .ok r)
    (hle : fuel ≤ fuel') : q.execLoad env fuel' stmt = .ok r := by
  simp only [execLoad] at h ⊢
  split
  · next hstdin =>
    rw [if_pos hstdin] at h
    split at h
    · exact h
    · obtain ⟨fr, hloop, h⟩ := bind_eq_ok.1 h
      exact bind_eq_ok.2 ⟨fr, loop_mono hloop hle, h⟩
  · next hfile => rwa [if_neg hfile] at h

theorem execExport_mono {stmt : ExportStmt}
    (h : q.execExport env fuel stmt = .ok r) (hle : fuel ≤ fuel') : q.execExport env fuel' stmt = .ok r := by
  simp only [execExport] at h ⊢
  split at h
  · exact h
  · obtain ⟨new, hnew, h⟩ := bind_eq_ok.1 h
    obtain ⟨exported, hexec, h⟩ := bind_eq_ok.1 h
    exact bind_eq_ok.2 ⟨new, hnew, bind_eq_ok.2 ⟨exported, Export.exec_mono hexec hle, h⟩⟩

theorem execute_mono {tree : ParseTree}
    (hselect : ∀ stmt, tree ≠ .selectStmt stmt) (h : q.execute env fuel tree = .ok r) (hle : fuel ≤ fuel') :
    q.execute env fuel' tree = .ok r := by
  cases tree with
  | selectStmt stmt => exact absurd rfl (hselect stmt)
  | copyFromStmt stmt => exact execLoad_mono h hle
  | copyToStmt stmt => exact execExport_mono h hle
  | createStmt _ => exact h
  | insertStmt _ => exact h
  | other => exact h

/-- Each stage of the query returns that is come to: `Check`, `Build` and the plan of a SELECT, or the
command of another statement. -/
def Returns (env : Environment) (sql : Bytes) (q : QueryRealizer) : Prop :=
  match (env.parse sql).2 with
  | none => True
  | some (.selectStmt stmt) =>
    ∃ state q₁, check stmt { q with message := (env.parse sql).1 } = .ok (state, q₁) ∧
      (state = .ok → ∃ state q₂, build stmt q₁ = .ok (state, q₂) ∧ (state = .ok → PlanReturns env.executor q₂))
  | some tree => ∃ fuel r, execute env fuel tree { q with message := (env.parse sql).1 } = .ok r

theorem Returns.realize {sql : Bytes} (h : Returns env sql q) : ∃ N, ∀ fuel ≥ N, ∃ r, q.realize env fuel sql = .ok r := by
  simp only [Returns] at h
  split at h
  · next hparse => exact ⟨0, fun _ _ => ⟨_, realize_of_none hparse⟩⟩
  · next stmt hparse =>
    simp only [realize_of_select hparse, andThen]
    obtain ⟨state, q₁, hcheck, hbuilt⟩ := h
    by_cases hstate : state = .ok
    · subst hstate
      obtain ⟨state, q₂, hbuild, hplan⟩ := hbuilt rfl
      by_cases hstate : state = .ok
      · subst hstate
        obtain ⟨N, hN⟩ := (hplan rfl).execSelect
        refine ⟨N, fun fuel hfuel => ?_⟩
        obtain ⟨r, hr⟩ := hN fuel hfuel
        exact ⟨r, by simp [hcheck, hbuild, execute, hr]⟩
      · exact ⟨0, fun _ _ => ⟨(state, q₂), by simp [hcheck, hbuild, hstate]⟩⟩
    · exact ⟨0, fun _ _ => ⟨(state, q₁), by simp [hcheck, hstate]⟩⟩
  · next tree hselect hparse =>
    obtain ⟨fuel, r, hr⟩ := h
    have hselect : ∀ stmt, tree ≠ .selectStmt stmt := by
      rintro stmt rfl
      exact hselect stmt rfl
    exact ⟨fuel, fun fuel' hle => ⟨r, (realize_of_other hparse hselect).trans (execute_mono hselect hr hle)⟩⟩

theorem returns_of_realize {sql : Bytes} {fuel : Nat} (h : q.realize env fuel sql = .ok r) :
    Returns env sql q := by
  simp only [Returns]
  split
  · trivial
  · next stmt hparse =>
    rw [realize_of_select hparse] at h
    obtain ⟨⟨state, q₁⟩, hcheck, h⟩ := bind_eq_ok.1 h
    refine ⟨state, q₁, hcheck, ?_⟩
    rintro rfl
    obtain ⟨⟨state, q₂⟩, hbuild, h⟩ := bind_eq_ok.1 h
    refine ⟨state, q₂, hbuild, ?_⟩
    rintro rfl
    exact planReturns_of_execSelect h
  · next tree hselect hparse =>
    refine ⟨fuel, r, (realize_of_other hparse ?_).symm.trans h⟩
    rintro stmt rfl
    exact hselect stmt rfl

theorem exists_realize_iff {sql : Bytes} :
    (∃ N, ∀ fuel ≥ N, ∃ r, q.realize env fuel sql = .ok r) ↔ Returns env sql q := by
  constructor
  · rintro ⟨N, hN⟩
    obtain ⟨r, hr⟩ := hN N (Nat.le_refl N)
    exact returns_of_realize hr
  · exact Returns.realize

end QueryRealizer

end Dbms18
