import Dbms18.Executor.Streams
import Dbms18.Realizer.QueryRealizer

/-!
# Executing a SELECT (`realizer/query_realizer.cpp`)

`ExecSelect` fetches rows from the top executor until a state that is not `kStateOK`, sends each row,
and counts them in an `int`.
-/

namespace Dbms18

open Res

/-- The variables of the loop in `ExecSelect`, with the executor's members and what has been sent. -/
structure SelectLoop (ω σ : Type) where
  members : σ
  world : ω
  row : TupleRow
  rows : Int32
  sent : List BackendMsg

namespace SelectLoop

variable {ω σ α : Type} (E : Executor ω σ) (desc : RowDesc)

def step (l : SelectLoop ω σ) : Res (SelectLoop ω σ ⊕ State × SelectLoop ω σ) := do
  let (state, row, members, world) ← E.getNext l.members l.world l.row
  let l := { l with members, world, row }
  if state ≠ .ok then return .inr (state, l)
  let bytes ← Session.sendRowData row desc
  return .inl { l with rows := l.rows + 1, sent := l.sent ++ [.dataRow bytes] }

end SelectLoop

namespace QueryRealizer

def selectMessage (rows : Int32) : Bytes := ascii "SELECT " ++ decimal rows.toInt ++ ascii " rows.\n"

/-- `ExecSelect`, with the executors that `executor` gives for a plan. -/
def execSelect (executor : (p : Plan) → Executor LevelStore p.Members) (fuel : Nat) (q : QueryRealizer) :
    Res (State × QueryRealizer) := do
  let q := { q with sent := q.sent ++ [BackendMsg.rowDescription q.outputRowDesc] }
  let plan ← Res.getD q.topExec .nullPointer
  let (state, members, storage) ← (executor plan).prepare plan.new q.storage
  if state ≠ .ok then return (state, { q with storage })
  let (state, members, storage) ← (executor plan).execOpen members storage
  if state ≠ .ok then return (state, { q with storage })
  let (state, l) ← Res.loop (SelectLoop.step (executor plan) q.outputRowDesc) fuel
    ⟨members, storage, TupleRow.new 1, 0, q.sent⟩
  let (_, storage) ← (executor plan).close l.members l.world
  let q := { q with storage, sent := l.sent }
  if state = .eof then return (.ok, { q with message := selectMessage l.rows })
  return (state, q)

end QueryRealizer

/-! ## The loop over an executor whose rows are known -/

namespace SelectLoop

variable {ω σ α : Type} {E : Executor ω σ} {desc : RowDesc} {shows : α → TupleRow → Prop} {R : List α → σ → ω → Prop}
  {msg : α → Bytes}

theorem ofNat_succ_add (rows : Int32) (n : Nat) : rows + 1 + Int32.ofNat n = rows + Int32.ofNat (n + 1) := by
  rw [Int32.ofNat_add, Int32.add_assoc, Int32.add_comm (Int32.ofNat n)]
  rfl

theorem loop_eq (hE : Streams E 1 shows R) {as : List α}
    (hsend : ∀ a ∈ as, ∀ row, shows a row → Session.sendRowData row desc = .ok (msg a)) {x : σ} {w : ω} {row : TupleRow}
    (hrest : R as x w) (hrow : row.length = 1) (rows : Int32) (sent : List BackendMsg) {fuel : Nat} (hfuel : as.length < fuel) :
    ∃ x' w' row', Res.loop (step E desc) fuel ⟨x, w, row, rows, sent⟩ = .ok (.eof,
      ⟨x', w', row', rows + Int32.ofNat as.length, sent ++ as.map fun a => .dataRow (msg a)⟩) := by
  induction as generalizing x w row rows sent fuel with
  | nil =>
    obtain ⟨row', x', w', hnext, -, -⟩ := hE.done hrest hrow
    refine ⟨x', w', row', loop_return hfuel ?_⟩
    simp [step, hnext]
  | cons a as ih =>
    obtain ⟨fuel, rfl⟩ := Nat.exists_eq_succ_of_ne_zero (Nat.ne_zero_of_lt hfuel)
    obtain ⟨row', x', w', hnext, hlen, hshows, hrest'⟩ := hE.next hrest hrow
    have hstep : step E desc ⟨x, w, row, rows, sent⟩ =
        .ok (.inl ⟨x', w', row', rows + 1, sent ++ [.dataRow (msg a)]⟩) := by
      simp [step, hnext, hsend a List.mem_cons_self row' hshows]
    obtain ⟨x'', w'', row'', hloop⟩ := ih (fun a' ha' => hsend a' (List.mem_cons_of_mem _ ha')) hrest' hlen (rows + 1)
      (sent ++ [.dataRow (msg a)]) (Nat.lt_of_succ_lt_succ hfuel)
    refine ⟨x'', w'', row'', ?_⟩
    rw [loop_of_continue hstep, hloop, ofNat_succ_add]
    simp

end SelectLoop

theorem Plan.Opens.execSelect {α : Type} {plan : Plan} {q : QueryRealizer} {shows : α → TupleRow → Prop} {outs : List α}
    (h : plan.Opens q.storage 1 shows outs) (msg : α → Bytes) (htop : q.topExec = some plan)
    (hsend : ∀ a ∈ outs, ∀ row, shows a row → Session.sendRowData row q.outputRowDesc = .ok (msg a)) :
    ∃ N, ∀ fuel ≥ N, ∃ storage, q.execSelect (Plan.executor fuel) fuel = .ok (.ok, { q with
      storage
      sent := q.sent ++ .rowDescription q.outputRowDesc :: outs.map fun a => .dataRow (msg a)
      message := QueryRealizer.selectMessage (Int32.ofNat outs.length) }) := by
  obtain ⟨N, hN⟩ := h
  refine ⟨max N (outs.length + 1), fun fuel hfuel => ?_⟩
  obtain ⟨R, x, s, hstreams, hprepare, hopen, hrest⟩ := hN fuel (le_of_max_le_left hfuel)
  obtain ⟨x', s', row, hloop⟩ := SelectLoop.loop_eq hstreams hsend hrest (TupleRow.length_new 1) 0
    (q.sent ++ [.rowDescription q.outputRowDesc]) (Nat.lt_of_succ_le (le_of_max_le_right hfuel))
  obtain ⟨x'', s'', hclose⟩ := plan.close_total fuel x' s'
  refine ⟨s'', ?_⟩
  simp [QueryRealizer.execSelect, htop, hprepare, hopen, hloop, hclose]

namespace QueryRealizer

theorem selectMessage_eq_iff (n : Nat) :
    selectMessage (Int32.ofNat n) = ascii "SELECT " ++ decimal n ++ ascii " rows.\n" ↔ n < 2 ^ 31 := by
  have hint : (Int32.ofNat n).toInt = n ↔ n < 2 ^ 31 := by
    have hsize : Int32.size = 2 ^ 32 := rfl
    rw [Int32.toInt_ofNat', hsize]
    constructor
    · intro h
      have hlt := Int.bmod_lt (x := n) (m := 2 ^ 32) (by decide)
      rw [h] at hlt
      omega
    · intro h
      exact Int.bmod_eq_of_le (by omega) (by omega)
  rw [selectMessage, List.append_left_inj, List.append_right_inj, ← hint]
  exact ⟨fun h => decimal_injective h, fun h => by rw [h]⟩

end QueryRealizer

/-! ## Any executor -/

/-- Successive calls of `GetNext` return `kStateOK` `n` times and then `state`. -/
inductive Ends {ω σ : Type} (E : Executor ω σ) : σ → ω → TupleRow → Nat → State → Prop
  | stop {x x' w w' row row' state} (h : E.getNext x w row = .ok (state, row', x', w')) (hstate : state ≠ .ok) :
    Ends E x w row 0 state
  | next {x x' w w' row row' n state} (h : E.getNext x w row = .ok (.ok, row', x', w')) (hrest : Ends E x' w' row' n state) :
    Ends E x w row (n + 1) state

theorem Ends.unique {ω σ : Type} {E : Executor ω σ} {x : σ} {w : ω} {row : TupleRow} {n m : Nat} {state state' : State}
    (h : Ends E x w row n state) (h' : Ends E x w row m state') : n = m ∧ state = state' := by
  induction h generalizing m with
  | stop h hstate =>
    cases h' with
    | stop h' _ => exact ⟨rfl, (Prod.mk.inj (Except.ok.inj (h.symm.trans h'))).1⟩
    | next h' _ => exact absurd (Prod.mk.inj (Except.ok.inj (h.symm.trans h'))).1 hstate
  | next h _ ih =>
    cases h' with
    | stop h' hstate => exact absurd (Prod.mk.inj (Except.ok.inj (h'.symm.trans h))).1 hstate
    | next h' hrest =>
      obtain ⟨rfl, rfl, rfl⟩ : _ ∧ _ ∧ _ := by simpa using h.symm.trans h'
      obtain ⟨rfl, hstate⟩ := ih hrest
      exact ⟨rfl, hstate⟩

namespace SelectLoop

variable {ω σ : Type} {E : Executor ω σ} {desc : RowDesc}

theorem step_eq_ok {l : SelectLoop ω σ} {r : SelectLoop ω σ ⊕ State × SelectLoop ω σ} (h : step E desc l = .ok r) :
    ∃ state row x w, E.getNext l.members l.world l.row = .ok (state, row, x, w) ∧
      (state ≠ .ok ∧ r = .inr (state, { l with members := x, world := w, row }) ∨
        state = .ok ∧ ∃ bytes, Session.sendRowData row desc = .ok bytes ∧
          r = .inl ⟨x, w, row, l.rows + 1, l.sent ++ [.dataRow bytes]⟩) := by
  obtain ⟨⟨state, row, x, w⟩, hget, h⟩ := bind_eq_ok.1 h
  refine ⟨state, row, x, w, hget, ?_⟩
  dsimp only at h
  split at h
  · next hstate => exact .inl ⟨hstate, (Except.ok.inj h).symm⟩
  · next hstate =>
    obtain ⟨bytes, hsend, h⟩ := bind_eq_ok.1 h
    exact .inr ⟨not_not.1 hstate, bytes, hsend, (Except.ok.inj h).symm⟩

end SelectLoop

namespace QueryRealizer

variable {executor : (p : Plan) → Executor LevelStore p.Members} {q q' : QueryRealizer}

/-- The top executor gives `n` rows and comes to the end. -/
def Completes (executor : (p : Plan) → Executor LevelStore p.Members) (q : QueryRealizer) (n : Nat) : Prop :=
  ∃ plan x w x' w', q.topExec = some plan ∧ (executor plan).prepare plan.new q.storage = .ok (.ok, x, w) ∧
    (executor plan).execOpen x w = .ok (.ok, x', w') ∧ Ends (executor plan) x' w' (TupleRow.new 1) n .eof

theorem Completes.unique {n m : Nat} (h : Completes executor q n) (h' : Completes executor q m) : n = m := by
  obtain ⟨plan, x, w, x', w', hplan, hprepare, hopen, hends⟩ := h
  obtain ⟨plan', y, v, y', v', hplan', hprepare', hopen', hends'⟩ := h'
  obtain rfl := Option.some.inj (hplan.symm.trans hplan')
  obtain ⟨rfl, rfl⟩ : _ ∧ _ := by simpa using hprepare.symm.trans hprepare'
  obtain ⟨rfl, rfl⟩ : _ ∧ _ := by simpa using hopen.symm.trans hopen'
  exact (hends.unique hends').1

end QueryRealizer

end Dbms18
