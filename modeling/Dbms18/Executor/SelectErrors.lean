import Dbms18.Executor.Streams
import Dbms18.Lib.Ensures

/-!
# A selection whose child fails (`executor/select.cpp`)

`Select::GetNext` asks whether its child came to the end and takes every other state for a row. So it
returns `kStateOK` or `kStateEOF` and nothing else, and a child that ends with an error is either asked
for ever or has what it left in the row delivered once more (`reports_iff`).
-/

namespace Dbms18

open Res

namespace Select

section Logged

variable {ω σ : Type} (left : Executor ω σ) (predicate : BooleanExpr)

/-- `step` with a record of the rows that the predicate was evaluated on, each with the state that the
child had returned. -/
def loggedStep (lw : (σ × ω × TupleRow) × List (State × TupleRow)) :
    Res ((σ × ω × TupleRow) × List (State × TupleRow) ⊕ (State × TupleRow × σ × ω) × List (State × TupleRow)) := do
  let ((l, w, row), evaluated) := lw
  let (state, row, l, w) ← left.getNext l w row
  if state = .eof then return .inr ((.eof, row, l, w), evaluated)
  let evaluated := evaluated ++ [(state, row)]
  if ← predicate.getValue row then return .inr ((.ok, row, l, w), evaluated)
  return .inl ((l, w, row), evaluated)

def loggedNext (fuel : Nat) (x : σ) (w : ω) (row : TupleRow) :
    Res ((State × TupleRow × σ × ω) × List (State × TupleRow)) :=
  loop (loggedStep left predicate) fuel ((x, w, row), [])

theorem step_eq_loggedStep (lw : (σ × ω × TupleRow) × List (State × TupleRow)) :
    step left predicate lw.1 = Sum.map Prod.fst Prod.fst <$> loggedStep left predicate lw := by
  obtain ⟨⟨l, w, row⟩, evaluated⟩ := lw
  rw [step, loggedStep]
  rcases left.getNext l w row with fault | ⟨state, row, l, w⟩
  · rfl
  · by_cases hstate : state = .eof
    · simp [hstate]
    · rcases hvalue : predicate.getValue row with fault | _ | _ <;> simp [hstate, hvalue]

theorem getNext_eq_loggedNext (fuel : Nat) (x : σ) (w : ω) (row : TupleRow) :
    (executor left predicate fuel).getNext x w row = Prod.fst <$> loggedNext left predicate fuel x w row :=
  loop_map (step_eq_loggedStep left predicate) fuel ((x, w, row), [])

structure Call where
  state : State
  row : TupleRow
  evaluated : List (State × TupleRow)

def calls (fuel : Nat) : List TupleRow → σ → ω → Res (List Call × σ × ω)
  | [], x, w => .ok ([], x, w)
  | row :: rows, x, w => do
    let ((state, row, x, w), evaluated) ← loggedNext left predicate fuel x w row
    let (results, x, w) ← calls fuel rows x w
    return (⟨state, row, evaluated⟩ :: results, x, w)

theorem fetch_eq_calls (fuel : Nat) (rows : List TupleRow) (x : σ) (w : ω) :
    (executor left predicate fuel).fetch rows x w =
      (fun r => (r.1.map fun c => (c.state, c.row), r.2)) <$> calls left predicate fuel rows x w := by
  induction rows generalizing x w with
  | nil => rfl
  | cons row rows ih =>
    rw [Executor.fetch, calls, getNext_eq_loggedNext]
    rcases loggedNext left predicate fuel x w row with fault | ⟨⟨state, row, x, w⟩, evaluated⟩
    · rfl
    · dsimp only [map_ok, ok_bind]
      rw [ih]
      rcases calls left predicate fuel rows x w with fault | ⟨results, x, w⟩ <;> rfl

end Logged

section Reports

variable {ω σ α : Type} {E : Executor ω σ} {predicate : BooleanExpr} {n : Nat} {shows : α → TupleRow → Prop}
  {term : State} {R : List α → σ → ω → Prop} {x : σ} {w : ω} {fuel : Nat}

/-- The calls deliver `outs` in order and then return `term`; the predicate is evaluated on rows only that
the child delivered. -/
def Reported (shows : α → TupleRow → Prop) (term : State) : List α → List Call → Prop
  | _, [] => True
  | [], c :: results => (c.state = term ∧ ∀ e ∈ c.evaluated, e.1 = .ok) ∧ Reported shows term [] results
  | a :: outs, c :: results => (c.state = .ok ∧ shows a c.row ∧ ∀ e ∈ c.evaluated, e.1 = .ok) ∧ Reported shows term outs results

/-- However often `GetNext` is called, every call returns, and the calls report `outs` and then `term`. -/
def Reports (E : Executor ω σ) (predicate : BooleanExpr) (n : Nat) (shows : α → TupleRow → Prop) (outs : List α)
    (term : State) (x : σ) (w : ω) : Prop :=
  ∃ N, ∀ fuel ≥ N, ∀ rows : List TupleRow, (∀ row ∈ rows, row.length = n) →
    ∃ results x' w', calls E predicate fuel rows x w = .ok (results, x', w') ∧ results.length = rows.length ∧
      Reported shows term outs results

/-! ## Every state but the end is taken for a row -/

theorem loggedStep_ensures (E : Executor ω σ) (predicate : BooleanExpr) (lw : (σ × ω × TupleRow) × List (State × TupleRow)) :
    Ensures (loggedStep E predicate lw) (Sum.elim (fun _ => True) fun r => r.1.1 = .ok ∨ r.1.1 = .eof) := by
  refine .of_bind fun r => ?_
  dsimp only
  split
  · exact ensures_ok (Or.inr rfl)
  · refine .of_bind fun value => ?_
    split
    · exact ensures_ok (Or.inl rfl)
    · exact ensures_ok trivial

theorem calls_ensures (fuel : Nat) (rows : List TupleRow) (x : σ) (w : ω) :
    Ensures (calls E predicate fuel rows x w) fun r => ∀ c ∈ r.1, c.state = .ok ∨ c.state = .eof := by
  induction rows generalizing x w with
  | nil => exact ensures_ok (by simp)
  | cons row rows ih =>
    have hnext := ensures_loop (I := fun _ => True) (fun lw _ => loggedStep_ensures E predicate lw) (s := ((x, w, row), []))
      trivial fuel
    refine Ensures.bind hnext fun r hr => (ih _ _).bind fun r' hr' => ensures_ok ?_
    exact List.forall_mem_cons.2 ⟨hr, hr'⟩

variable {outs : List α}

theorem Reported.exists_term {results : List Call} (h : Reported shows term outs results)
    (hlen : outs.length < results.length) : ∃ c ∈ results, c.state = term := by
  induction outs generalizing results with
  | nil =>
    obtain ⟨c, results, rfl⟩ := List.exists_cons_of_length_pos hlen
    exact ⟨c, List.mem_cons_self, h.1.1⟩
  | cons a outs ih =>
    obtain ⟨c, results, rfl⟩ := List.exists_cons_of_length_pos (Nat.zero_lt_of_lt hlen)
    obtain ⟨c', hc', hterm⟩ := ih h.2 (Nat.lt_of_succ_lt_succ hlen)
    exact ⟨c', List.mem_cons_of_mem _ hc', hterm⟩

theorem Reports.term_eq (h : Reports E predicate n shows outs term x w) : term = .ok ∨ term = .eof := by
  obtain ⟨N, h⟩ := h
  obtain ⟨results, x', w', hcalls, hlen, hreported⟩ :=
    h N le_rfl (List.replicate (outs.length + 1) (TupleRow.new n)) (by simp [TupleRow.new])
  obtain ⟨c, hc, rfl⟩ := hreported.exists_term (by simp [hlen])
  exact calls_ensures N _ x w _ hcalls c hc

/-! ## A child that comes to the end -/

theorem loggedNext_evaluated (hE : Streams E n shows R) {as : List α} (hrest : R as x w) {row : TupleRow}
    (hrow : row.length = n) (fuel : Nat) :
    Ensures (loggedNext E predicate fuel x w row) fun r => ∀ e ∈ r.2, e.1 = .ok := by
  refine ensures_loop (I := fun lw => (∃ as, R as lw.1.1 lw.1.2.1) ∧ lw.1.2.2.length = n ∧ ∀ e ∈ lw.2, e.1 = .ok) ?_
    ⟨⟨as, hrest⟩, hrow, by simp⟩ fuel
  rintro ⟨⟨l, w, row⟩, evaluated⟩ ⟨⟨as, hrest⟩, hrow, hevaluated⟩
  rw [loggedStep]
  cases as with
  | nil =>
    obtain ⟨row', x', w', hnext, -, -⟩ := hE.done hrest hrow
    rw [hnext]
    exact ensures_ok hevaluated
  | cons a as =>
    obtain ⟨row', x', w', hnext, hlen, -, hrest'⟩ := hE.next hrest hrow
    rw [hnext]
    have hevaluated' : ∀ e ∈ evaluated ++ [(State.ok, row')], e.1 = .ok :=
      List.forall_mem_append.2 ⟨hevaluated, List.forall_mem_singleton.2 rfl⟩
    refine Ensures.of_bind (x := predicate.getValue row') fun value => ?_
    split
    · exact ensures_ok hevaluated'
    · exact ensures_ok ⟨⟨as, hrest'⟩, hlen, hevaluated'⟩

variable {P : α → Prop} {f : α → Bool}

theorem loggedNext_returned (hE : Streams E n shows R)
    (hdecides : ∀ {a row}, P a → shows a row → predicate.getValue row = .ok (f a)) {row : TupleRow}
    (hrest : Select.rest R P f fuel outs x w) (hrow : row.length = n) :
    ∃ result evaluated, loggedNext E predicate fuel x w row = .ok (result, evaluated) ∧
      Returned (Select.rest R P f fuel) n shows outs result ∧ ∀ e ∈ evaluated, e.1 = .ok := by
  obtain ⟨result, hnext, hreturned⟩ := getNext_returned hE hdecides hrest hrow
  rw [getNext_eq_loggedNext] at hnext
  obtain ⟨⟨_, evaluated⟩, hlogged, rfl⟩ := map_eq_ok.1 hnext
  obtain ⟨as, hrest, -⟩ := hrest
  exact ⟨_, evaluated, hlogged, hreturned, loggedNext_evaluated hE hrest hrow fuel _ hlogged⟩

theorem calls_reported (hE : Streams E n shows R)
    (hdecides : ∀ {a row}, P a → shows a row → predicate.getValue row = .ok (f a)) {rows : List TupleRow}
    (hrest : Select.rest R P f fuel outs x w) (hrows : ∀ row ∈ rows, row.length = n) :
    ∃ results x' w', calls E predicate fuel rows x w = .ok (results, x', w') ∧ results.length = rows.length ∧
      Reported shows .eof outs results := by
  induction rows generalizing outs x w with
  | nil => exact ⟨[], x, w, rfl, rfl, by cases outs <;> trivial⟩
  | cons row rows ih =>
    obtain ⟨hrow, hrows⟩ := List.forall_mem_cons.1 hrows
    obtain ⟨⟨state, row', x', w'⟩, evaluated, hnext, hreturned, hevaluated⟩ := loggedNext_returned hE hdecides hrest hrow
    cases outs with
    | nil =>
      obtain ⟨-, rfl, hrest'⟩ := hreturned
      obtain ⟨results, x'', w'', hcalls, hlen, hreported⟩ := ih hrest' hrows
      exact ⟨⟨.eof, row', evaluated⟩ :: results, x'', w'', by simp [calls, hnext, hcalls], by simp [hlen],
        ⟨rfl, hevaluated⟩, hreported⟩
    | cons a outs =>
      obtain ⟨-, rfl, hshows, hrest'⟩ := hreturned
      obtain ⟨results, x'', w'', hcalls, hlen, hreported⟩ := ih hrest' hrows
      exact ⟨⟨.ok, row', evaluated⟩ :: results, x'', w'', by simp [calls, hnext, hcalls], by simp [hlen],
        ⟨rfl, hshows, hevaluated⟩, hreported⟩

/-- A selection over a child that gives the rows `as` and then `term` for ever reports the rows that
satisfy the predicate and then `term` exactly if `term` is `kStateEOF`. -/
theorem reports_iff (hE : StreamsTo E n shows term R) (hterm : term ≠ .ok) {as : List α} (hrest : R as x w)
    (hdecides : ∀ a ∈ as, ∀ row, shows a row → predicate.getValue row = .ok (f a)) :
    Reports E predicate n shows (as.filter f) term x w ↔ term = .eof := by
  refine ⟨fun h => h.term_eq.resolve_left hterm, ?_⟩
  rintro rfl
  refine ⟨as.length + 1, fun fuel hfuel rows hrows => ?_⟩
  have hrest' : Select.rest R (· ∈ as) f fuel (as.filter f) x w := ⟨as, hrest, fun _ => id, hfuel, rfl⟩
  exact calls_reported hE (fun ha hshows => hdecides _ ha _ hshows) hrest' hrows

end Reports

end Select

/-! ## A child with given rows -/

/-- An executor that gives the rows of a list and then returns `term`, leaving the caller's row as it is. -/
def Executor.scripted (term : State) : Executor Unit (List TupleRow) where
  prepare x w := .ok (.ok, x, w)
  execOpen x w := .ok (.ok, x, w)
  getNext x w row := .ok (x.casesOn (term, row, [], w) fun a as => (.ok, a, as, w))
  close x w := .ok (x, w)

theorem streamsTo_scripted (term : State) (n : Nat) :
    StreamsTo (.scripted term) n (fun a row => row = a) term fun as x _ => x = as ∧ ∀ a ∈ as, a.length = n where
  next := by
    rintro a as _ w row ⟨rfl, hlen⟩ hrow
    obtain ⟨ha, has⟩ := List.forall_mem_cons.1 hlen
    exact ⟨a, as, w, rfl, ha, rfl, rfl, has⟩
  done := by
    rintro _ w row ⟨rfl, -⟩ hrow
    exact ⟨row, [], w, rfl, hrow, rfl, by simp⟩

namespace Select

/-- `a = value` -/
def firstIs (value : Int64) : BooleanExpr :=
  .integerCompare .equal (.slotReference ⟨0, 0, .integer⟩) (.integerConstValue value)

def fiveRow : TupleRow := [some (Cells.ofBytes (integerRecord 5))]

theorem reports_iff_fiveRow :
    Reports (.scripted .eof) (firstIs 5) 1 (fun a row => row = a) [fiveRow] .eof [fiveRow] () := by
  have hdecides : ∀ a ∈ [fiveRow], ∀ row, row = a → (firstIs 5).getValue row = .ok ((fun _ => true) a) := by
    simp only [List.forall_mem_singleton, forall_eq]
    rfl
  exact (reports_iff (streamsTo_scripted .eof 1) (by decide) ⟨rfl, by simp [fiveRow]⟩ hdecides).2 rfl

/-- A child that gives one row and then fails: if the predicate holds on what is left in the row, the row
comes again; if not, `GetNext` does not return. -/
theorem not_reports_execError :
    (∃ x w, (executor (.scripted .execError) (firstIs 5) 1).fetch [fiveRow, fiveRow] [fiveRow] () =
      .ok ([(.ok, fiveRow), (.ok, fiveRow)], x, w)) ∧
    (∀ fuel, (executor (.scripted .execError) (firstIs 7) fuel).getNext [] () fiveRow = .error .outOfFuel) ∧
    ¬ Reports (.scripted .execError) (firstIs 5) 1 (fun a row => row = a) [fiveRow] .execError [fiveRow] () := by
  refine ⟨⟨[], (), rfl⟩, fun fuel => ?_, fun h => ?_⟩
  · induction fuel with
    | zero => rfl
    | succ fuel ih => exact (loop_of_continue rfl).trans ih
  · exact absurd h.term_eq (by decide)

end Select

end Dbms18
