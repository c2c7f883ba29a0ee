import Dbms18.Executor.Plan

/-!
# The nested-loop join over any two children

A `RowSource` describes an executor from outside: the rows it gives after every `Open`, the states in
which it can be opened, those in which it has some of the rows still to give, and what its calls do to
the caller's row and to the world. The join of two sources that do not disturb each other is again a
source, and its rows are the pairs that satisfy the predicate, left-major.
-/

namespace Dbms18

open List

structure RowSource (ω σ α : Type) where
  rows : List α
  /-- `Open` can be called. -/
  ready : σ → ω → Prop
  /-- The rows of the list are still to come. -/
  rest : List α → σ → ω → Prop
  /-- What a call does to the world. -/
  moves : ω → ω → Prop
  /-- What a call that gives a row does to the caller's row. -/
  writes : α → TupleRow → TupleRow → Prop
  /-- What a call that returns `kStateEOF` does to the caller's row. -/
  leaves : TupleRow → TupleRow → Prop

namespace RowSource

variable {ω σ α : Type}

/-- The states of the source are not touched by what `moves` does. -/
structure Stable (S : RowSource ω σ α) (moves : ω → ω → Prop) : Prop where
  ready : ∀ {x w w'}, S.ready x w → moves w w' → S.ready x w'
  rest : ∀ {as x w w'}, S.rest as x w → moves w w' → S.rest as x w'

def map {β : Type} (S : RowSource ω σ α) (g : α → β) : RowSource ω σ β where
  rows := S.rows.map g
  ready := S.ready
  rest bs x w := ∃ as, bs = as.map g ∧ S.rest as x w
  moves := S.moves
  writes b row row' := ∃ a ∈ S.rows, b = g a ∧ S.writes a row row'
  leaves := S.leaves

theorem Stable.map {β : Type} {S : RowSource ω σ α} {moves : ω → ω → Prop} (h : S.Stable moves) (g : α → β) :
    (S.map g).Stable moves where
  ready := h.ready
  rest := by
    rintro bs x w w' ⟨as, rfl, hrest⟩ hmoves
    exact ⟨as, rfl, h.rest hrest hmoves⟩

theorem Stable.reflTransGen {S : RowSource ω σ α} {moves : ω → ω → Prop} (h : S.Stable moves) :
    S.Stable (Relation.ReflTransGen moves) where
  ready hready hmoves := by
    induction hmoves with
    | refl => exact hready
    | tail _ hstep ih => exact h.ready ih hstep
  rest hrest hmoves := by
    induction hmoves with
    | refl => exact hrest
    | tail _ hstep ih => exact h.rest ih hstep

end RowSource

/-- `E` gives the rows of `S` after every `Open`, called with rows of width `n`, and then returns
`kStateEOF` for ever. -/
structure Executor.Replays {ω σ α : Type} (E : Executor ω σ) (n : Nat) (S : RowSource ω σ α) : Prop where
  execOpen : ∀ {x w}, S.ready x w → ∃ x' w', E.execOpen x w = .ok (.ok, x', w') ∧ S.rest S.rows x' w' ∧ S.moves w w'
  next : ∀ {a as x w} {row : TupleRow}, S.rest (a :: as) x w → row.length = n →
    ∃ row' x' w', E.getNext x w row = .ok (.ok, row', x', w') ∧ S.writes a row row' ∧ S.rest as x' w' ∧ S.moves w w'
  done : ∀ {x w} {row : TupleRow}, S.rest [] x w → row.length = n →
    ∃ row' x' w', E.getNext x w row = .ok (.eof, row', x', w') ∧ S.leaves row row' ∧ S.rest [] x' w' ∧ S.moves w w'
  reopen : ∀ {as x w}, S.rest as x w → S.ready x w
  subset : ∀ {as x w}, S.rest as x w → as ⊆ S.rows

theorem Executor.Replays.map {ω σ α β : Type} {E : Executor ω σ} {n : Nat} {S : RowSource ω σ α} (h : E.Replays n S)
    (g : α → β) : E.Replays n (S.map g) where
  execOpen hready := by
    obtain ⟨x', w', hopen, hrest, hmoves⟩ := h.execOpen hready
    exact ⟨x', w', hopen, ⟨S.rows, rfl, hrest⟩, hmoves⟩
  next := by
    rintro b bs x w row ⟨as, heq, hrest⟩ hrow
    obtain ⟨a, as, rfl, rfl, rfl⟩ := map_eq_cons_iff.1 heq.symm
    obtain ⟨row', x', w', hnext, hwrites, hrest', hmoves⟩ := h.next hrest hrow
    exact ⟨row', x', w', hnext, ⟨a, h.subset hrest mem_cons_self, rfl, hwrites⟩, ⟨as, rfl, hrest'⟩, hmoves⟩
  done := by
    rintro x w row ⟨as, heq, hrest⟩ hrow
    obtain rfl := map_eq_nil_iff.1 heq.symm
    obtain ⟨row', x', w', hnext, hleaves, hrest', hmoves⟩ := h.done hrest hrow
    exact ⟨row', x', w', hnext, hleaves, ⟨[], rfl, hrest'⟩, hmoves⟩
  reopen := by
    rintro bs x w ⟨as, -, hrest⟩
    exact h.reopen hrest
  subset := by
    rintro bs x w ⟨as, rfl, hrest⟩
    exact map_subset g (h.subset hrest)

/-- A join of two sources, and how their rows come together in the join's own row: `free` are the rows
it may have when it turns to the left child, `holds a` those with the left row `a` in place, and
`shows a b` those with `b` beside it. `f` is what the predicate decides. -/
structure JoinSource (ω σ τ α β : Type) where
  n : Nat
  left : RowSource ω σ α
  right : RowSource ω τ β
  free : TupleRow → Prop
  holds : α → TupleRow → Prop
  shows : α → β → TupleRow → Prop
  f : α → β → Bool

namespace JoinSource

variable {ω σ τ α β : Type}

def pairs (J : JoinSource ω σ τ α β) (a : α) (bs : List β) : List (α × β) := (bs.filter (J.f a)).map (a, ·)

structure JoinOf (J : JoinSource ω σ τ α β) (left : Executor ω σ) (right : Executor ω τ) (predicate : BooleanExpr) :
    Prop where
  left : left.Replays J.n J.left
  right : right.Replays J.n J.right
  leftStable : J.left.Stable J.right.moves
  rightStable : J.right.Stable J.left.moves
  width : ∀ {row}, J.free row → row.length = J.n
  free : ∀ {a row}, J.holds a row → J.free row
  holds : ∀ {a row row'}, J.free row → J.left.writes a row row' → J.holds a row'
  shows : ∀ {a b row row'}, J.holds a row → J.right.writes b row row' → J.shows a b row' ∧ J.holds a row'
  leftEnd : ∀ {row row'}, J.free row → J.left.leaves row row' → J.free row'
  rightEnd : ∀ {a row row'}, J.holds a row → J.right.leaves row row' → J.holds a row'
  decides : ∀ a ∈ J.left.rows, ∀ b ∈ J.right.rows, ∀ row, J.shows a b row → predicate.getValue row = .ok (J.f a b)

end JoinSource

namespace NestedLoopJoin

variable {ω σ τ : Type} {left : Executor ω σ} {right : Executor ω τ} {predicate : BooleanExpr} {row row₁ row₂ : TupleRow}
  {j : NestedLoopJoin σ τ} {w w₁ w₂ w₃ : ω} {l : σ} {r r' : τ}

/-! ## One pass of the loop -/

section Step

theorem step_of_eof (hl : j.leftState = .eof) (hr : j.rightState = .eof) :
    step left right predicate row (j, w) = .ok (.inr (.eof, row, j, w)) := by
  simp [step, hl, hr]

variable (hj : ¬ (j.leftState = .eof ∧ j.rightState = .eof))
include hj

theorem step_of_match (hright : right.getNext j.right w j.row = .ok (.ok, row₁, r, w₁))
    (hp : predicate.getValue row₁ = .ok true) : step left right predicate row (j, w) =
      .ok (.inr (.ok, row₁.copyTo row, { j with right := r, row := row₁, rightState := .ok }, w₁)) := by
  simp [step, hj, hright, hp]

theorem step_of_mismatch (hright : right.getNext j.right w j.row = .ok (.ok, row₁, r, w₁))
    (hp : predicate.getValue row₁ = .ok false) : step left right predicate row (j, w) =
      .ok (.inl ({ j with right := r, row := row₁, rightState := .ok }, w₁)) := by
  simp [step, hj, hright, hp]

theorem step_of_rewind (hright : right.getNext j.right w j.row = .ok (.eof, row₁, r, w₁))
    (hleft : left.getNext j.left w₁ row₁ = .ok (.ok, row₂, l, w₂))
    (hopen : right.execOpen r w₂ = .ok (.ok, r', w₃)) : step left right predicate row (j, w) =
      .ok (.inl (⟨l, r', .ok, .ok, row₂⟩, w₃)) := by
  simp [step, hj, hright, hleft, hopen]

theorem step_of_end (hright : right.getNext j.right w j.row = .ok (.eof, row₁, r, w₁))
    (hleft : left.getNext j.left w₁ row₁ = .ok (.eof, row₂, l, w₂)) : step left right predicate row (j, w) =
      .ok (.inr (.eof, row, ⟨l, r, .eof, .eof, row₂⟩, w₂)) := by
  simp [step, hj, hright, hleft]

end Step

/-! ## The join of two sources -/

variable {α β : Type} {J : JoinSource ω σ τ α β} {outs : List (α × β)} {k fuel : Nat} {a : α} {as : List α} {bs : List β}

/-- The join has the left row `a`, the children have `as` and `bs` still to give, and the join itself
`outs`, in at most `k` passes of its loop. -/
structure Running (J : JoinSource ω σ τ α β) (outs : List (α × β)) (k : Nat) (j : NestedLoopJoin σ τ) (w : ω)
    (a : α) (as : List α) (bs : List β) : Prop where
  leftState : j.leftState = .ok
  row : J.holds a j.row
  mem : a ∈ J.left.rows
  left : J.left.rest as j.left w
  right : J.right.rest bs j.right w
  outs_eq : outs = J.pairs a bs ++ as.flatMap fun a => J.pairs a J.right.rows
  variant : bs.length + as.length * (J.right.rows.length + 1) = k

def ready (J : JoinSource ω σ τ α β) (j : NestedLoopJoin σ τ) (w : ω) : Prop :=
  J.left.ready j.left w ∧ J.right.ready j.right w ∧ J.free j.row

/-- The join has the pairs `outs` still to give: it is in the middle of a left row, or both children
are at their end. -/
def rest (J : JoinSource ω σ τ α β) (fuel : Nat) (outs : List (α × β)) (j : NestedLoopJoin σ τ) (w : ω) : Prop :=
  (∃ k a as bs, Running J outs k j w a as bs ∧ k < fuel) ∨
    0 < fuel ∧ j.leftState = .eof ∧ j.rightState = .eof ∧ ready J j w ∧ outs = []

/-- What the children do to the world in any number of calls. -/
def moves (J : JoinSource ω σ τ α β) : ω → ω → Prop :=
  Relation.ReflTransGen fun w w' => J.left.moves w w' ∨ J.right.moves w w'

def source (J : JoinSource ω σ τ α β) (fuel : Nat) : RowSource ω (NestedLoopJoin σ τ) (α × β) where
  rows := J.left.rows.flatMap fun a => J.pairs a J.right.rows
  ready := ready J
  rest := rest J fuel
  moves := moves J
  writes ab row row' := ∃ joinRow, J.shows ab.1 ab.2 joinRow ∧ J.free joinRow ∧ row' = joinRow.copyTo row
  leaves row row' := row' = row

theorem moves_left (h : J.left.moves w w₁) : moves J w w₁ := .single (.inl h)

theorem moves_right (h : J.right.moves w w₁) : moves J w w₁ := .single (.inr h)

/-- What `GetNext` has done when it returns: given the first of `outs`, or found that there is none. -/
def Returned (J : JoinSource ω σ τ α β) (fuel : Nat) (row : TupleRow) (outs : List (α × β))
    (result : State × TupleRow × NestedLoopJoin σ τ × ω) : Prop :=
  match outs with
  | [] => result.1 = .eof ∧ result.2.1 = row ∧ rest J fuel [] result.2.2.1 result.2.2.2
  | ab :: outs => result.1 = .ok ∧ (source J fuel).writes ab row result.2.1 ∧ rest J fuel outs result.2.2.1 result.2.2.2

theorem Running.step_cons {b : β} (hJ : J.JoinOf left right predicate) (row : TupleRow) (hk : k < fuel)
    (hr : Running J outs k j w a as (b :: bs)) :
    (∃ k' j' w', step left right predicate row (j, w) = .ok (.inl (j', w')) ∧
      Running J outs k' j' w' a as bs ∧ k' < k ∧ moves J w w') ∨
    ∃ result, step left right predicate row (j, w) = .ok (.inr result) ∧ Returned J fuel row outs result ∧
      moves J w result.2.2.2 := by
  have hj : ¬ (j.leftState = .eof ∧ j.rightState = .eof) := by simp [hr.leftState]
  obtain ⟨row₁, r, w₁, hright, hwrites, hrest, hmoves⟩ := hJ.right.next hr.right (hJ.width (hJ.free hr.row))
  obtain ⟨hshows, hholds⟩ := hJ.shows hr.row hwrites
  have hp := hJ.decides a hr.mem b (hJ.right.subset hr.right mem_cons_self) row₁ hshows
  have hvariant := hr.variant
  have houts := hr.outs_eq
  rw [length_cons] at hvariant
  have hrun : ∀ outs', outs' = J.pairs a bs ++ as.flatMap (fun a => J.pairs a J.right.rows) →
      Running J outs' (k - 1) { j with right := r, row := row₁, rightState := .ok } w₁ a as bs := by
    intro outs' houts'
    refine ⟨hr.leftState, hholds, hr.mem, hJ.leftStable.rest hr.left hmoves, hrest, houts', ?_⟩
    omega
  cases hf : J.f a b with
  | true =>
    rw [JoinSource.pairs, filter_cons_of_pos hf, map_cons, cons_append] at houts
    refine .inr ⟨_, step_of_match hj hright (hf ▸ hp), ?_, moves_right hmoves⟩
    rw [houts]
    exact ⟨rfl, ⟨row₁, hshows, hJ.free hholds, rfl⟩, .inl ⟨k - 1, a, as, bs, hrun _ rfl, by omega⟩⟩
  | false =>
    rw [JoinSource.pairs, filter_cons_of_neg (by simp [hf])] at houts
    exact .inl ⟨k - 1, _, w₁, step_of_mismatch hj hright (hf ▸ hp), hrun _ houts, by omega, moves_right hmoves⟩

theorem Running.step_nil (hJ : J.JoinOf left right predicate) (row : TupleRow) (hk : k < fuel)
    (hr : Running J outs k j w a as []) :
    (∃ k' j' w' a' as', step left right predicate row (j, w) = .ok (.inl (j', w')) ∧
      Running J outs k' j' w' a' as' J.right.rows ∧ k' < k ∧ moves J w w') ∨
    ∃ result, step left right predicate row (j, w) = .ok (.inr result) ∧ Returned J fuel row outs result ∧
      moves J w result.2.2.2 := by
  have hj : ¬ (j.leftState = .eof ∧ j.rightState = .eof) := by simp [hr.leftState]
  obtain ⟨row₁, r, w₁, hright, hleaves, hrest, hmoves⟩ := hJ.right.done hr.right (hJ.width (hJ.free hr.row))
  have hfree : J.free row₁ := hJ.free (hJ.rightEnd hr.row hleaves)
  have hleft₁ := hJ.leftStable.rest hr.left hmoves
  have hvariant := hr.variant
  have houts : outs = as.flatMap fun a => J.pairs a J.right.rows := hr.outs_eq
  cases as with
  | nil =>
    obtain ⟨row₂, l, w₂, hleft, hleaves', hrest', hmoves'⟩ := hJ.left.done hleft₁ (hJ.width hfree)
    refine .inr ⟨_, step_of_end hj hright hleft, ?_, (moves_right hmoves).trans (moves_left hmoves')⟩
    rw [houts]
    refine ⟨rfl, rfl, .inr ⟨by omega, rfl, rfl, ⟨hJ.left.reopen hrest', ?_, hJ.leftEnd hfree hleaves'⟩, rfl⟩⟩
    exact hJ.rightStable.ready (hJ.right.reopen hrest) hmoves'
  | cons a' as =>
    obtain ⟨row₂, l, w₂, hleft, hwrites, hrest', hmoves'⟩ := hJ.left.next hleft₁ (hJ.width hfree)
    obtain ⟨r', w₃, hopen, hright₃, hmoves₃⟩ :=
      hJ.right.execOpen (hJ.rightStable.ready (hJ.right.reopen hrest) hmoves')
    rw [length_cons, Nat.add_mul] at hvariant
    refine .inl ⟨k - 1, _, w₃, a', as, step_of_rewind hj hright hleft hopen, ?_, ?_, ?_⟩
    · refine ⟨rfl, hJ.holds hfree hwrites, hJ.left.subset hr.left mem_cons_self, ?_, hright₃, houts, ?_⟩
      · exact hJ.leftStable.rest hrest' hmoves₃
      · simp only [length_nil] at hvariant
        omega
    · simp only [length_nil] at hvariant
      omega
    · exact ((moves_right hmoves).trans (moves_left hmoves')).trans (moves_right hmoves₃)

theorem getNext_returned (hJ : J.JoinOf left right predicate) (row : TupleRow) (hrest : rest J fuel outs j w) :
    ∃ result, getNext left right predicate fuel j w row = .ok result ∧ Returned J fuel row outs result ∧
      moves J w result.2.2.2 := by
  rcases hrest with ⟨k, a, as, bs, hr, hk⟩ | ⟨hfuel, hl, hr, hready, rfl⟩
  · -- the invariant of the loop: running, after calls of the children only
    let I := fun k (jw : NestedLoopJoin σ τ × ω) => k < fuel ∧ (∃ a as bs, Running J outs k jw.1 jw.2 a as bs) ∧
      moves J w jw.2
    refine Res.loop_total (I := I) (k := k) ?_ ⟨hk, ⟨a, as, bs, hr⟩, .refl⟩ hk
    rintro k' ⟨j', w'⟩ ⟨hk', ⟨a', as', bs', hr'⟩, hmoves⟩
    cases bs' with
    | nil =>
      rcases hr'.step_nil hJ row hk' with
        ⟨k₁, j₁, w₁, a₁, as₁, hstep, hr₁, hlt, hmoves₁⟩ | ⟨result, hstep, hret, hmoves₁⟩
      · exact .inl ⟨k₁, (j₁, w₁), hstep, ⟨by omega, ⟨a₁, as₁, _, hr₁⟩, hmoves.trans hmoves₁⟩, hlt⟩
      · exact .inr ⟨result, hstep, hret, hmoves.trans hmoves₁⟩
    | cons b bs' =>
      rcases hr'.step_cons hJ row hk' with
        ⟨k₁, j₁, w₁, hstep, hr₁, hlt, hmoves₁⟩ | ⟨result, hstep, hret, hmoves₁⟩
      · exact .inl ⟨k₁, (j₁, w₁), hstep, ⟨by omega, ⟨a', as', bs', hr₁⟩, hmoves.trans hmoves₁⟩, hlt⟩
      · exact .inr ⟨result, hstep, hret, hmoves.trans hmoves₁⟩
  · exact ⟨_, Res.loop_return hfuel (step_of_eof hl hr), ⟨rfl, rfl, .inr ⟨hfuel, hl, hr, hready, rfl⟩⟩, .refl⟩

def work (J : JoinSource ω σ τ α β) : Nat :=
  J.right.rows.length + J.left.rows.length * (J.right.rows.length + 1) + 1

theorem execOpen_cons {L : RowSource ω σ α} {R : RowSource ω τ β} {n : Nat} (hleft : left.Replays n L)
    (hright : right.Replays n R) (hLR : L.Stable R.moves) (hRL : R.Stable L.moves) (hrows : L.rows = a :: as)
    (hl : L.ready j.left w) (hr : R.ready j.right w) (hrow : j.row.length = n) :
    ∃ l r row' w', execOpen left right j w = .ok (.ok, ⟨l, r, .ok, .ok, row'⟩, w') ∧ L.writes a j.row row' ∧
      L.rest as l w' ∧ R.rest R.rows r w' ∧ Relation.ReflTransGen (fun w w' => L.moves w w' ∨ R.moves w w') w w' := by
  obtain ⟨l, w₁, hopen, hrest, hmoves⟩ := hleft.execOpen hl
  obtain ⟨r, w₂, hopen', hrest', hmoves'⟩ := hright.execOpen (hRL.ready hr hmoves)
  have hrest₂ := hLR.rest hrest hmoves'
  rw [hrows] at hrest₂
  obtain ⟨row', l', w₃, hnext, hwrites, hrest₃, hmoves₃⟩ := hleft.next hrest₂ hrow
  refine ⟨l', r, row', w₃, by simp [execOpen, hopen, hopen', hnext], hwrites, hrest₃, hRL.rest hrest' hmoves₃, ?_⟩
  exact ((Relation.ReflTransGen.single (.inl hmoves)).tail (.inr hmoves')).tail (.inl hmoves₃)

theorem execOpen_rest (hJ : J.JoinOf left right predicate) (hne : J.left.rows ≠ []) (hfuel : work J ≤ fuel)
    (hready : ready J j w) : ∃ j' w', execOpen left right j w = .ok (.ok, j', w') ∧
      rest J fuel (source J fuel).rows j' w' ∧ moves J w w' := by
  obtain ⟨hl, hr, hfree⟩ := hready
  obtain ⟨a, as, hrows⟩ := exists_cons_of_ne_nil hne
  obtain ⟨l, r, row', w', hopen, hwrites, hrest, hrest', hmoves⟩ :=
    execOpen_cons hJ.left hJ.right hJ.leftStable hJ.rightStable hrows hl hr (hJ.width hfree)
  refine ⟨⟨l, r, .ok, .ok, row'⟩, w', hopen, .inl ⟨_, a, as, J.right.rows, ⟨rfl, ?_, ?_, hrest, hrest', ?_, rfl⟩, ?_⟩,
    hmoves⟩
  · exact hJ.holds hfree hwrites
  · simp [hrows]
  · simp [source, hrows]
  · have : J.left.rows.length * (J.right.rows.length + 1) =
        as.length * (J.right.rows.length + 1) + (J.right.rows.length + 1) := by
      rw [hrows, length_cons, Nat.add_mul, Nat.one_mul]
    rw [work] at hfuel
    omega

theorem ready_of_rest (hJ : J.JoinOf left right predicate) (hrest : rest J fuel outs j w) : ready J j w := by
  rcases hrest with ⟨k, a, as, bs, hr, -⟩ | ⟨-, -, -, hready, -⟩
  · exact ⟨hJ.left.reopen hr.left, hJ.right.reopen hr.right, hJ.free hr.row⟩
  · exact hready

theorem pairs_subset {bs' : List β} (h : bs ⊆ bs') : J.pairs a bs ⊆ J.pairs a bs' :=
  map_subset _ (filter_subset _ h)

theorem subset_of_rest (hJ : J.JoinOf left right predicate) (hrest : rest J fuel outs j w) :
    outs ⊆ (source J fuel).rows := by
  rcases hrest with ⟨k, a, as, bs, hr, -⟩ | ⟨-, -, -, -, rfl⟩
  · rw [hr.outs_eq]
    refine append_subset.2 ⟨fun ab hab => ?_, fun ab hab => ?_⟩
    · exact mem_flatMap.2 ⟨a, hr.mem, pairs_subset (hJ.right.subset hr.right) hab⟩
    · obtain ⟨a', ha', hab⟩ := mem_flatMap.1 hab
      exact mem_flatMap.2 ⟨a', hJ.left.subset hr.left ha', hab⟩
  · exact nil_subset _

theorem replays (hJ : J.JoinOf left right predicate) (hne : J.left.rows ≠ []) (hfuel : work J ≤ fuel) :
    (executor left right predicate fuel).Replays J.n (source J fuel) where
  execOpen hready := execOpen_rest hJ hne hfuel hready
  next {ab outs j w row} hrest hrow := by
    obtain ⟨⟨state, row', j', w'⟩, hnext, ⟨rfl, hwrites, hrest'⟩, hmoves⟩ := getNext_returned hJ row hrest
    exact ⟨row', j', w', hnext, hwrites, hrest', hmoves⟩
  done {j w row} hrest hrow := by
    obtain ⟨⟨state, row', j', w'⟩, hnext, ⟨rfl, hrow', hrest'⟩, hmoves⟩ := getNext_returned hJ row hrest
    exact ⟨row', j', w', hnext, hrow', hrest', hmoves⟩
  reopen := ready_of_rest hJ
  subset := subset_of_rest hJ

theorem ready_stable {m : ω → ω → Prop} (hl : J.left.Stable m) (hr : J.right.Stable m) (hready : ready J j w)
    (hmoves : m w w₁) : ready J j w₁ :=
  ⟨hl.ready hready.1 hmoves, hr.ready hready.2.1 hmoves, hready.2.2⟩

theorem stable {m : ω → ω → Prop} (hl : J.left.Stable m) (hr : J.right.Stable m) : (source J fuel).Stable m where
  ready := ready_stable hl hr
  rest := by
    rintro outs j w w' (⟨k, a, as, bs, hrun, hk⟩ | ⟨hfuel, hleft, hright, hready, rfl⟩) hmoves
    · exact .inl ⟨k, a, as, bs, { hrun with left := hl.rest hrun.left hmoves, right := hr.rest hrun.right hmoves }, hk⟩
    · exact .inr ⟨hfuel, hleft, hright, ready_stable hl hr hready hmoves, rfl⟩

/-! ## A right child without rows -/

section Barren

variable {L : RowSource ω σ α} {R : RowSource ω τ β} {n : Nat} {γ : Type}

/-- A join whose right child has no rows gives none, whatever the predicate. The left rows `as` are still
to be tried, or both children have come to their end. -/
def barren (L : RowSource ω σ α) (R : RowSource ω τ β) (n fuel : Nat) (γ : Type) : RowSource ω (NestedLoopJoin σ τ) γ where
  rows := []
  ready j w := L.ready j.left w ∧ R.ready j.right w ∧ j.row.length = n
  rest cs j w := cs = [] ∧ j.row.length = n ∧
    ((∃ as, j.rightState = .ok ∧ L.rest as j.left w ∧ R.rest [] j.right w ∧ as.length < fuel) ∨
      0 < fuel ∧ j.leftState = .eof ∧ j.rightState = .eof ∧ L.ready j.left w ∧ R.ready j.right w)
  moves := Relation.ReflTransGen fun w w' => L.moves w w' ∨ R.moves w w'
  writes _ _ _ := False
  leaves row row' := row' = row

variable (hleft : left.Replays n L) (hright : right.Replays n R) (hLR : L.Stable R.moves) (hRL : R.Stable L.moves)
  (hwrites : ∀ {a row row'}, row.length = n → L.writes a row row' → row'.length = n)
  (hleaves : ∀ {row row' : TupleRow}, row.length = n → L.leaves row row' → row'.length = n)
  (hleaves' : ∀ {row row' : TupleRow}, row.length = n → R.leaves row row' → row'.length = n) (hrows : R.rows = [])
include hleft hright hLR hRL hwrites hleaves hleaves' hrows

omit hleaves' in
theorem execOpen_barren (hfuel : L.rows.length < fuel) (hready : (barren L R n fuel γ).ready j w) :
    ∃ j' w', execOpen left right j w = .ok (.ok, j', w') ∧ (barren L R n fuel γ).rest [] j' w' ∧
      (barren L R n fuel γ).moves w w' := by
  obtain ⟨hl, hr, hrow⟩ := hready
  cases hrowsL : L.rows with
  | cons a as =>
    obtain ⟨l, r, row', w', hopen, hwrite, hrest, hrest', hmoves⟩ :=
      execOpen_cons hleft hright hLR hRL hrowsL hl hr hrow
    rw [hrowsL, length_cons] at hfuel
    exact ⟨⟨l, r, .ok, .ok, row'⟩, w', hopen,
      ⟨rfl, hwrites hrow hwrite, .inl ⟨as, rfl, hrest, hrows ▸ hrest', by omega⟩⟩, hmoves⟩
  | nil =>
    obtain ⟨l, w₁, hopen, hrest, hmoves⟩ := hleft.execOpen hl
    obtain ⟨r, w₂, hopen', hrest', hmoves'⟩ := hright.execOpen (hRL.ready hr hmoves)
    rw [hrowsL] at hrest
    obtain ⟨row', l', w₃, hnext, hleave, hrest₃, hmoves₃⟩ := hleft.done (hLR.rest hrest hmoves') hrow
    refine ⟨⟨l', r, .eof, .ok, row'⟩, w₃, by simp [execOpen, hopen, hopen', hnext],
      ⟨rfl, hleaves hrow hleave, .inl ⟨[], rfl, hrest₃, hrows ▸ hRL.rest hrest' hmoves₃, Nat.zero_lt_of_lt hfuel⟩⟩, ?_⟩
    exact ((Relation.ReflTransGen.single (.inl hmoves)).tail (.inr hmoves')).tail (.inl hmoves₃)

theorem getNext_barren (row : TupleRow) (hrest : (barren L R n fuel γ).rest [] j w) :
    ∃ j' w', getNext left right predicate fuel j w row = .ok (.eof, row, j', w') ∧
      (barren L R n fuel γ).rest [] j' w' ∧ (barren L R n fuel γ).moves w w' := by
  obtain ⟨-, hrow, ⟨as, hstate, hl, hr, hfuel⟩ | ⟨hfuel, hls, hrs, hl, hr⟩⟩ := hrest
  · -- every pass finds the right child at its end and tries one more left row
    let I := fun k (jw : NestedLoopJoin σ τ × ω) => jw.1.row.length = n ∧ jw.1.rightState = .ok ∧
      (∃ as, as.length = k ∧ L.rest as jw.1.left jw.2) ∧ R.rest [] jw.1.right jw.2 ∧ (barren L R n fuel γ).moves w jw.2
    let Q := fun result : State × TupleRow × NestedLoopJoin σ τ × ω => result.1 = .eof ∧ result.2.1 = row ∧
      (barren L R n fuel γ).rest [] result.2.2.1 result.2.2.2 ∧ (barren L R n fuel γ).moves w result.2.2.2
    have hstep : ∀ k jw, I k jw → (∃ k' jw', step left right predicate row jw = .ok (.inl jw') ∧ I k' jw' ∧ k' < k) ∨
        ∃ result, step left right predicate row jw = .ok (.inr result) ∧ Q result := by
      rintro k ⟨j, w'⟩ ⟨hrow, hstate, ⟨as, rfl, hl⟩, hr, hmoves⟩
      have hj : ¬ (j.leftState = .eof ∧ j.rightState = .eof) := by simp [show j.rightState = .ok from hstate]
      obtain ⟨row₁, r, w₁, hnextR, hleave, hrestR, hmovesR⟩ := hright.done hr hrow
      have hl₁ := hLR.rest hl hmovesR
      have hrow₁ := hleaves' hrow hleave
      cases as with
      | nil =>
        obtain ⟨row₂, l, w₂, hnextL, hleave', hrestL, hmovesL⟩ := hleft.done hl₁ hrow₁
        refine .inr ⟨_, step_of_end hj hnextR hnextL, rfl, rfl, ⟨rfl, hleaves hrow₁ hleave', .inr ?_⟩,
          (hmoves.tail (.inr hmovesR)).tail (.inl hmovesL)⟩
        exact ⟨Nat.zero_lt_of_lt hfuel, rfl, rfl, hleft.reopen hrestL, hRL.ready (hright.reopen hrestR) hmovesL⟩
      | cons a as =>
        obtain ⟨row₂, l, w₂, hnextL, hwrite, hrestL, hmovesL⟩ := hleft.next hl₁ hrow₁
        obtain ⟨r', w₃, hopen, hrestR', hmovesR'⟩ := hright.execOpen (hRL.ready (hright.reopen hrestR) hmovesL)
        refine .inl ⟨as.length, (⟨l, r', .ok, .ok, row₂⟩, w₃), step_of_rewind hj hnextR hnextL hopen, ?_, Nat.lt_succ_self _⟩
        exact ⟨hwrites hrow₁ hwrite, rfl, ⟨as, rfl, hLR.rest hrestL hmovesR'⟩, hrows ▸ hrestR',
          ((hmoves.tail (.inr hmovesR)).tail (.inl hmovesL)).tail (.inr hmovesR')⟩
    have hstart : I as.length (j, w) := ⟨hrow, hstate, ⟨as, rfl, hl⟩, hr, .refl⟩
    obtain ⟨⟨state, row', j', w'⟩, hloop, rfl, rfl, hrest', hmoves⟩ := Res.loop_total (Q := Q) hstep hstart hfuel
    exact ⟨j', w', hloop, hrest', hmoves⟩
  · exact ⟨j, w, Res.loop_return hfuel (step_of_eof hls hrs), ⟨rfl, hrow, .inr ⟨hfuel, hls, hrs, hl, hr⟩⟩, .refl⟩

theorem replays_barren (hfuel : L.rows.length < fuel) :
    (executor left right predicate fuel).Replays n (barren L R n fuel γ) where
  execOpen := execOpen_barren hleft hright hLR hRL hwrites hleaves hrows hfuel
  next hrest := by cases hrest.1
  done {j w row} hrest _ := by
    obtain ⟨j', w', hnext, hrest', hmoves⟩ := getNext_barren hleft hright hLR hRL hwrites hleaves hleaves' hrows row hrest
    exact ⟨row, j', w', hnext, rfl, hrest', hmoves⟩
  reopen := by
    rintro cs j w ⟨-, hrow, ⟨as, -, hl, hr, -⟩ | ⟨-, -, -, hl, hr⟩⟩
    · exact ⟨hleft.reopen hl, hright.reopen hr, hrow⟩
    · exact ⟨hl, hr, hrow⟩
  subset := by
    rintro cs j w ⟨rfl, -⟩
    exact nil_subset _

omit hleft hright hLR hRL hwrites hleaves hleaves' hrows in
theorem stable_barren {m : ω → ω → Prop} (hl : L.Stable m) (hr : R.Stable m) : (barren L R n fuel γ).Stable m where
  ready := by
    rintro j w w' ⟨hjl, hjr, hrow⟩ hmoves
    exact ⟨hl.ready hjl hmoves, hr.ready hjr hmoves, hrow⟩
  rest := by
    rintro cs j w w' ⟨rfl, hrow, ⟨as, hstate, hjl, hjr, hfuel⟩ | ⟨hfuel, hls, hrs, hjl, hjr⟩⟩ hmoves
    · exact ⟨rfl, hrow, .inl ⟨as, hstate, hl.rest hjl hmoves, hr.rest hjr hmoves, hfuel⟩⟩
    · exact ⟨rfl, hrow, .inr ⟨hfuel, hls, hrs, hl.ready hjl hmoves, hr.ready hjr hmoves⟩⟩

end Barren

end NestedLoopJoin

end Dbms18
