import Dbms18.Executor.JoinChain

/-!
# Children that write their own positions

A child of a join that writes only tuple positions of its own leaves the tuples of the other child in
the join's row. Over two such children the rows of a join are the combinations of their rows.
-/

namespace Dbms18

open List

/-- The tuples an executor writes, by position. -/
abbrev RowPart := Nat → Option RawTuple

namespace TupleRow

/-- The row with the positions in `P` taken from `a`. -/
def put (P : Nat → Prop) [DecidablePred P] (a : RowPart) (row : TupleRow) : TupleRow :=
  row.mapIdx fun i t => if P i then a i else t

variable {P Q : Nat → Prop} [DecidablePred P] [DecidablePred Q] {a b : RowPart} {row : TupleRow}

@[simp] theorem length_put : (row.put P a).length = row.length := length_mapIdx

theorem getElem?_put (i : Nat) : (row.put P a)[i]? = row[i]?.map fun t => if P i then a i else t := by
  rw [put, getElem?_mapIdx]

theorem put_put : (row.put P a).put P b = row.put P b := by
  refine ext_getElem? fun i => ?_
  simp only [getElem?_put, Option.map_map]
  congr 1
  funext t
  by_cases hP : P i <;> simp [hP]

theorem put_comm (hdisjoint : ∀ i, P i → ¬ Q i) : (row.put P a).put Q b = (row.put Q b).put P a := by
  refine ext_getElem? fun i => ?_
  simp only [getElem?_put, Option.map_map]
  congr 1
  funext t
  by_cases hP : P i
  · simp [hP, hdisjoint i hP]
  · simp [hP]

theorem put_self : row.put P (fun i => row[i]?.join) = row := by
  refine ext_getElem? fun i => ?_
  rw [getElem?_put]
  cases row[i]? with
  | none => rfl
  | some t => simp

theorem set_eq_put (i : Nat) : row.set i (a i) = row.put (· = i) a := by
  refine ext_getElem? fun k => ?_
  rw [getElem?_put, getElem?_set]
  by_cases hk : i = k
  · subst hk
    simp only [if_true]
    by_cases hlt : i < row.length
    · simp [hlt]
    · simp [hlt]
  · have hk' : ¬ k = i := fun h => hk h.symm
    simp [hk, hk']

theorem new_put_null (n : Nat) : (TupleRow.new n).put P (fun _ => none) = TupleRow.new n := by
  refine ext_getElem? fun i => ?_
  rw [getElem?_put, TupleRow.new, getElem?_replicate]
  by_cases hi : i < n <;> simp [hi]

/-- The row of width `n` with the tuples of `l` and `r`, and null at all other positions. -/
def combine (n : Nat) (P Q : Nat → Prop) [DecidablePred P] [DecidablePred Q] (l r : RowPart) : TupleRow :=
  ((TupleRow.new n).put P l).put Q r

end TupleRow

structure RowSource.OwnPositions {ω σ : Type} (S : RowSource ω σ RowPart) (P : Nat → Prop) [DecidablePred P] : Prop where
  writes : ∀ {a row row'}, S.writes a row row' → row' = row.put P a
  leaves : ∀ {row row'}, S.leaves row row' → ∃ a, row' = row.put P a

structure RowSource.KeepsWidth {ω σ α : Type} (S : RowSource ω σ α) : Prop where
  writes : ∀ {a row row'}, S.writes a row row' → row'.length = row.length
  leaves : ∀ {row row'}, S.leaves row row' → row'.length = row.length

/-- Rounds of calls: `Open`, and then one `GetNext` for each row of the round. -/
def Executor.rounds {ω σ : Type} (E : Executor ω σ) :
    List (List TupleRow) → σ → ω → Res (List (State × List (State × TupleRow)) × σ × ω)
  | [], x, w => .ok ([], x, w)
  | rows :: rounds, x, w => do
    let (state, x, w) ← E.execOpen x w
    let (results, x, w) ← E.fetch rows x w
    let (rest, x, w) ← E.rounds rounds x w
    return ((state, results) :: rest, x, w)

namespace Executor.Replays

variable {ω σ α : Type} {E : Executor ω σ} {n : Nat} {S : RowSource ω σ α} {out : α → TupleRow}

theorem fetch_eq (hE : E.Replays n S) (hwrites : ∀ {a row row'}, row.length = n → S.writes a row row' → row' = out a)
    (hleaves : ∀ {row row'}, S.leaves row row' → row' = row) {rows : List TupleRow}
    (hrows : ∀ row ∈ rows, row.length = n) {as : List α} {x : σ} {w : ω} (hrest : S.rest as x w) :
    ∃ x' w' as', E.fetch rows x w = .ok (replies (as.map out) rows, x', w') ∧ S.rest as' x' w' := by
  induction rows generalizing as x w with
  | nil => exact ⟨x, w, as, by cases as <;> rfl, hrest⟩
  | cons row rows ih =>
    have hrow := hrows row mem_cons_self
    have hrows' : ∀ row ∈ rows, row.length = n := fun r hr => hrows r (mem_cons_of_mem _ hr)
    cases as with
    | nil =>
      obtain ⟨row', x₁, w₁, hnext, hl, hrest₁, -⟩ := hE.done hrest hrow
      obtain rfl := hleaves hl
      obtain ⟨x', w', as', hfetch, hrest'⟩ := ih hrows' hrest₁
      exact ⟨x', w', as', by simp [Executor.fetch, hnext, hfetch, replies], hrest'⟩
    | cons a as =>
      obtain ⟨row', x₁, w₁, hnext, hw, hrest₁, -⟩ := hE.next hrest hrow
      obtain rfl := hwrites hrow hw
      obtain ⟨x', w', as', hfetch, hrest'⟩ := ih hrows' hrest₁
      exact ⟨x', w', as', by simp [Executor.fetch, hnext, hfetch, replies], hrest'⟩

theorem rounds_eq (hE : E.Replays n S) (hwrites : ∀ {a row row'}, row.length = n → S.writes a row row' → row' = out a)
    (hleaves : ∀ {row row'}, S.leaves row row' → row' = row) {rounds : List (List TupleRow)}
    (hrounds : ∀ rows ∈ rounds, ∀ row ∈ rows, row.length = n) {x : σ} {w : ω} (hready : S.ready x w) :
    ∃ x' w', E.rounds rounds x w = .ok (rounds.map fun rows => (.ok, replies (S.rows.map out) rows), x', w') := by
  induction rounds generalizing x w with
  | nil => exact ⟨x, w, rfl⟩
  | cons rows rounds ih =>
    obtain ⟨x₁, w₁, hopen, hrest, -⟩ := hE.execOpen hready
    obtain ⟨x₂, w₂, as, hfetch, hrest'⟩ := hE.fetch_eq hwrites hleaves (hrounds rows mem_cons_self) hrest
    obtain ⟨x', w', heq⟩ := ih (fun rows' h => hrounds rows' (mem_cons_of_mem _ h)) (hE.reopen hrest')
    exact ⟨x', w', by simp [Executor.rounds, hopen, hfetch, heq]⟩

end Executor.Replays

namespace NestedLoopJoin

section Combinations

variable {ω σ τ : Type} {left : Executor ω σ} {right : Executor ω τ} {n : Nat} {L : RowSource ω σ RowPart}
  {R : RowSource ω τ RowPart} {P Q : Nat → Prop} [DecidablePred P] [DecidablePred Q] {predicate : BooleanExpr}
  {f : RowPart → RowPart → Bool}

/-- The join of two sources with positions of their own: its row is always a combination. -/
def combineSource (n : Nat) (P Q : Nat → Prop) [DecidablePred P] [DecidablePred Q] (L : RowSource ω σ RowPart)
    (R : RowSource ω τ RowPart) (f : RowPart → RowPart → Bool) : JoinSource ω σ τ RowPart RowPart where
  n := n
  left := L
  right := R
  free row := ∃ l r, row = TupleRow.combine n P Q l r
  holds l row := ∃ r, row = TupleRow.combine n P Q l r
  shows l r row := row = TupleRow.combine n P Q l r
  f := f

theorem length_combine (l r : RowPart) : (TupleRow.combine n P Q l r).length = n := by
  rw [TupleRow.combine, TupleRow.length_put, TupleRow.length_put, TupleRow.length_new]

theorem combine_put_right (l r r' : RowPart) : (TupleRow.combine n P Q l r).put Q r' = TupleRow.combine n P Q l r' :=
  TupleRow.put_put

theorem combine_put_left (hdisjoint : ∀ i, P i → ¬ Q i) (l l' r : RowPart) :
    (TupleRow.combine n P Q l r).put P l' = TupleRow.combine n P Q l' r := by
  rw [TupleRow.combine, ← TupleRow.put_comm hdisjoint, TupleRow.put_put, TupleRow.combine]

theorem combine_joinOf (hleft : left.Replays n L) (hright : right.Replays n R) (hL : L.OwnPositions P)
    (hR : R.OwnPositions Q) (hdisjoint : ∀ i, P i → ¬ Q i) (hLR : L.Stable R.moves) (hRL : R.Stable L.moves)
    (hf : ∀ l ∈ L.rows, ∀ r ∈ R.rows, predicate.getValue (TupleRow.combine n P Q l r) = .ok (f l r)) :
    (combineSource n P Q L R f).JoinOf left right predicate where
  left := hleft
  right := hright
  leftStable := hLR
  rightStable := hRL
  width := by
    rintro row ⟨l, r, rfl⟩
    exact length_combine l r
  free := fun ⟨r, hrow⟩ => ⟨_, r, hrow⟩
  holds := by
    rintro a row row' ⟨l, r, rfl⟩ hwrites
    exact ⟨r, (hL.writes hwrites).trans (combine_put_left hdisjoint l a r)⟩
  shows := by
    rintro a b row row' ⟨r, rfl⟩ hwrites
    have hrow' := (hR.writes hwrites).trans (combine_put_right a r b)
    exact ⟨hrow', b, hrow'⟩
  leftEnd := by
    rintro row row' ⟨l, r, rfl⟩ hleaves
    obtain ⟨l', rfl⟩ := hL.leaves hleaves
    exact ⟨l', r, combine_put_left hdisjoint l l' r⟩
  rightEnd := by
    rintro a row row' ⟨r, rfl⟩ hleaves
    obtain ⟨r', rfl⟩ := hR.leaves hleaves
    exact ⟨r', combine_put_right a r r'⟩
  decides := by
    rintro l hl r hr row rfl
    exact hf l hl r hr

/-- In every round of `Open` and calls of `GetNext`, whatever the rounds before it were, the join gives
the combinations that satisfy the predicate, left-major and each once, and then `kStateEOF`. -/
theorem rounds_combinations (hleft : left.Replays n L) (hright : right.Replays n R) (hL : L.OwnPositions P)
    (hR : R.OwnPositions Q) (hdisjoint : ∀ i, P i → ¬ Q i) (hLR : L.Stable R.moves) (hRL : R.Stable L.moves) (hne : L.rows ≠ [])
    (hf : ∀ l ∈ L.rows, ∀ r ∈ R.rows, predicate.getValue (TupleRow.combine n P Q l r) = .ok (f l r))
    {x : σ} {y : τ} {w : ω} (hx : L.ready x w) (hy : R.ready y w) :
    ∃ N, ∀ fuel ≥ N, ∀ rounds : List (List TupleRow), (∀ rows ∈ rounds, ∀ row ∈ rows, row.length = n) →
      ∃ j w', (executor left right predicate fuel).rounds rounds (new n x y) w =
        .ok (rounds.map fun rows => (.ok, replies
          (L.rows.flatMap fun l => (R.rows.filter (f l)).map (TupleRow.combine n P Q l)) rows), j, w') := by
  have hJ := combine_joinOf hleft hright hL hR hdisjoint hLR hRL hf
  refine ⟨work (combineSource n P Q L R f), fun fuel hfuel rounds hrounds => ?_⟩
  have hready : ready (combineSource n P Q L R f) (new n x y) w := by
    refine ⟨hx, hy, fun _ => none, fun _ => none, ?_⟩
    rw [TupleRow.combine, TupleRow.new_put_null, TupleRow.new_put_null]
    rfl
  have hwrites : ∀ {lr row row'}, row.length = n → (source (combineSource n P Q L R f) fuel).writes lr row row' →
      row' = TupleRow.combine n P Q lr.1 lr.2 := by
    rintro ⟨l, r⟩ row row' hrow ⟨joinRow, rfl, -, rfl⟩
    exact TupleRow.copyTo_of_length_eq ((length_combine l r).trans hrow.symm)
  obtain ⟨j, w', heq⟩ := (replays hJ hne hfuel).rounds_eq hwrites (fun h => h) hrounds hready
  refine ⟨j, w', heq.trans ?_⟩
  simp only [source, combineSource, JoinSource.pairs, map_flatMap, map_map, Function.comp_def]

end Combinations

end NestedLoopJoin

/-! ## Scans -/

def SeqScan.part (scan : SeqScan) (records : List (Bytes × Bytes)) : RowSource LevelStore Unit RowPart :=
  (scan.source records).map fun a _ => a.head?

theorem SeqScan.ownPositions_part (scan : SeqScan) (records : List (Bytes × Bytes)) :
    (scan.part records).OwnPositions (· = scan.tupleIndex) where
  writes := by
    rintro b row row' ⟨a, -, rfl, t, rfl, rfl⟩
    exact TupleRow.set_eq_put (a := fun _ => some t) scan.tupleIndex
  leaves := by
    rintro row row' rfl
    exact ⟨_, TupleRow.put_self.symm⟩

theorem SeqScan.stable_part {scan other : SeqScan} {records others : List (Bytes × Bytes)}
    (hne : scan.iterator ≠ other.iterator) : (scan.part records).Stable (other.part others).moves :=
  (SeqScan.stable fun hsame => hsame _ hne).map _

/-- `T.a = U.b`, for the first columns of the tables at positions 0 and 1. -/
def equalFirst : BooleanExpr :=
  .integerCompare .equal (.slotReference ⟨0, 0, .integer⟩) (.slotReference ⟨1, 0, .integer⟩)

def recordsT : List (Bytes × Bytes) := [([1], integerRecord 5), ([2], integerRecord 7)]

def recordsU : List (Bytes × Bytes) := [([1], integerRecord 7), ([2], integerRecord 5), ([3], integerRecord 7)]

def integerRow (values : List UInt8) : TupleRow := values.map fun v => some (Cells.ofBytes (integerRecord v))

namespace NestedLoopJoin

theorem rounds_combinations_recordsTU :
    ∃ N, ∀ fuel ≥ N, ∀ rounds : List (List TupleRow), (∀ rows ∈ rounds, ∀ row ∈ rows, row.length = 2) →
      ∃ j s, (executor (SeqScan.executor ⟨0, 0⟩) (SeqScan.executor ⟨1, 1⟩) equalFirst fuel).rounds rounds (new 2 () ())
          (.scanning [recordsT, recordsU]) =
        .ok (rounds.map fun rows =>
          (.ok, replies [integerRow [5, 5], integerRow [7, 7], integerRow [7, 7]] rows), j, s) := by
  have hf : ∀ l ∈ (SeqScan.part ⟨0, 0⟩ recordsT).rows, ∀ r ∈ (SeqScan.part ⟨1, 1⟩ recordsU).rows,
      equalFirst.getValue (TupleRow.combine 2 (· = 0) (· = 1) l r) = .ok (decide (l 0 = r 1)) := by
    simp only [SeqScan.part, RowSource.map, SeqScan.source, recordsT, recordsU, map_cons, map_nil,
      forall_mem_cons]
    refine ⟨⟨rfl, rfl, rfl, ?_⟩, ⟨rfl, rfl, rfl, ?_⟩, ?_⟩ <;> simp
  have hT : (LevelStore.scanning [recordsT, recordsU]).IterAt 0 ⟨recordsT, 0⟩ := LevelStore.iterAt_scanning rfl
  have hU : (LevelStore.scanning [recordsT, recordsU]).IterAt 1 ⟨recordsU, 0⟩ := LevelStore.iterAt_scanning rfl
  exact rounds_combinations (P := (· = 0)) (Q := (· = 1)) ((SeqScan.replays recordsT (by decide)).map _)
    ((SeqScan.replays recordsU (by decide)).map _) (SeqScan.ownPositions_part ⟨0, 0⟩ recordsT)
    (SeqScan.ownPositions_part ⟨1, 1⟩ recordsU) (by rintro _ rfl; decide) (SeqScan.stable_part (by decide))
    (SeqScan.stable_part (by decide)) (by simp [SeqScan.source, RowSource.map, recordsT]) hf (x := ()) (y := ())
    ⟨0, hT⟩ ⟨0, hU⟩

/-! ## An empty left input -/

section Idle

variable {ω σ τ α β : Type} {left : Executor ω σ} {right : Executor ω τ} {n : Nat} {L : RowSource ω σ α}
  {R : RowSource ω τ β} {j : NestedLoopJoin σ τ} {w : ω}

/-- After `Open` every `GetNext` returns `kStateEOF` and leaves the row alone, whatever stands in the
place of the predicate: even one that faults on every row, so none is ever evaluated. -/
def Idle (left : Executor ω σ) (right : Executor ω τ) (n : Nat) (j : NestedLoopJoin σ τ) (w : ω) : Prop :=
  ∃ N, ∀ fuel ≥ N, ∀ (predicate : BooleanExpr) (rows : List TupleRow), (∀ row ∈ rows, row.length = n) →
    ∃ j₁ w₁ j₂ w₂, execOpen left right j w = .ok (.ok, j₁, w₁) ∧
      (executor left right predicate fuel).fetch rows j₁ w₁ = .ok (rows.map (.eof, ·), j₂, w₂)

theorem execOpen_empty (hleft : left.Replays n L) (hright : right.Replays n R) (hL : L.KeepsWidth)
    (hLR : L.Stable R.moves) (hRL : R.Stable L.moves) (hempty : L.rows = []) (hl : L.ready j.left w)
    (hr : R.ready j.right w) (hrow : j.row.length = n) :
    ∃ j₁ w₁, execOpen left right j w = .ok (.ok, j₁, w₁) ∧ j₁.leftState = .eof ∧ j₁.rightState = .ok ∧
      j₁.row.length = n ∧ L.rest [] j₁.left w₁ ∧ R.rest R.rows j₁.right w₁ := by
  obtain ⟨l, w₁, hopen, hrest, hmoves⟩ := hleft.execOpen hl
  obtain ⟨r, w₂, hopen', hrest', hmoves'⟩ := hright.execOpen (hRL.ready hr hmoves)
  rw [hempty] at hrest
  obtain ⟨row', l', w₃, hnext, hleaves, hrest₃, hmoves₃⟩ := hleft.done (hLR.rest hrest hmoves') hrow
  refine ⟨⟨l', r, .eof, .ok, row'⟩, w₃, by simp [execOpen, hopen, hopen', hnext], rfl, rfl, ?_, hrest₃,
    hRL.rest hrest' hmoves₃⟩
  exact (hL.leaves hleaves).trans hrow

theorem fetch_of_eof (hl : j.leftState = .eof) (hr : j.rightState = .eof) (predicate : BooleanExpr) (fuel : Nat)
    (rows : List TupleRow) : (executor left right predicate (fuel + 1)).fetch rows j w = .ok (rows.map (.eof, ·), j, w) := by
  induction rows with
  | nil => rfl
  | cons row rows ih =>
    have hnext : (executor left right predicate (fuel + 1)).getNext j w row = .ok (.eof, row, j, w) :=
      Res.loop_of_return (step_of_eof hl hr)
    simp [Executor.fetch, hnext, ih]

theorem getNext_of_fault (hright : right.Replays n R) {b : β} {bs : List β} (hr : R.rest (b :: bs) j.right w)
    (hrow : j.row.length = n) (hstate : j.rightState = .ok) {predicate : BooleanExpr} {e : Fault}
    (hp : ∀ row, predicate.getValue row = .error e) (fuel : Nat) (row : TupleRow) :
    getNext left right predicate (fuel + 1) j w row = .error e := by
  obtain ⟨row₁, r, w₁, hnext, -, -, -⟩ := hright.next hr hrow
  simp [getNext, Res.loop, step, hstate, hnext, hp]

def faulting : BooleanExpr := .logicExpr .equal equalFirst equalFirst

theorem idle_iff_right_empty (hleft : left.Replays n L) (hright : right.Replays n R) (hL : L.KeepsWidth) (hR : R.KeepsWidth)
    (hLR : L.Stable R.moves) (hRL : R.Stable L.moves) (hempty : L.rows = []) (hl : L.ready j.left w)
    (hr : R.ready j.right w) (hrow : j.row.length = n) : Idle left right n j w ↔ R.rows = [] := by
  obtain ⟨j₁, w₁, hopen, hleftState, hrightState, hwidth, hl₁, hr₁⟩ :=
    execOpen_empty hleft hright hL hLR hRL hempty hl hr hrow
  constructor
  · rintro ⟨N, hN⟩
    by_contra hne
    obtain ⟨b, bs, hrows⟩ := exists_cons_of_ne_nil hne
    obtain ⟨j₁', w₁', j₂, w₂, hopen', hfetch⟩ := hN (N + 1) (Nat.le_succ N) faulting [TupleRow.new n] (by simp)
    obtain ⟨-, hjw⟩ := Prod.mk.inj (Except.ok.inj (hopen.symm.trans hopen'))
    obtain ⟨rfl, rfl⟩ := Prod.mk.inj hjw
    have hfault : ∀ row, faulting.getValue row = .error .assertion := fun _ => rfl
    have hnext : getNext left right faulting (N + 1) j₁ w₁ (TupleRow.new n) = .error .assertion :=
      getNext_of_fault hright (hrows ▸ hr₁) hwidth hrightState hfault N _
    simp [Executor.fetch, executor, hnext] at hfetch
  · intro hright_empty
    refine ⟨1, fun fuel hfuel predicate rows hrows => ?_⟩
    obtain ⟨fuel, rfl⟩ := Nat.exists_eq_add_of_le' hfuel
    cases rows with
    | nil => exact ⟨j₁, w₁, j₁, w₁, hopen, rfl⟩
    | cons row rows =>
      -- the right child is at its end too, and then both flags are at `kStateEOF`
      have hj : ¬ (j₁.leftState = .eof ∧ j₁.rightState = .eof) := by simp [hrightState]
      rw [hright_empty] at hr₁
      obtain ⟨row₁, r, w₂, hright₁, hleaves, -, hmoves⟩ := hright.done hr₁ hwidth
      obtain ⟨row₂, l, w₃, hleft₂, -, -, -⟩ := hleft.done (hLR.rest hl₁ hmoves) ((hR.leaves hleaves).trans hwidth)
      have hnext : (executor left right predicate (fuel + 1)).getNext j₁ w₁ row = .ok (.eof, row,
          ⟨l, r, .eof, .eof, row₂⟩, w₃) :=
        Res.loop_of_return (step_of_end hj hright₁ hleft₂)
      refine ⟨j₁, w₁, ⟨l, r, .eof, .eof, row₂⟩, w₃, hopen, ?_⟩
      simp [Executor.fetch, hnext, fetch_of_eof]

end Idle

theorem keepsWidth_source (scan : SeqScan) (records : List (Bytes × Bytes)) : (scan.source records).KeepsWidth where
  writes := by
    rintro a row row' ⟨t, -, rfl⟩
    exact length_set
  leaves := by
    rintro row row' rfl
    rfl

theorem idle_iff_right_empty_scans : Idle (SeqScan.executor ⟨0, 0⟩) (SeqScan.executor ⟨1, 1⟩) 2 (new 2 () ())
    (.scanning [[], []]) := by
  have h0 : (LevelStore.scanning [[], []]).IterAt 0 ⟨[], 0⟩ := LevelStore.iterAt_scanning rfl
  have h1 : (LevelStore.scanning [[], []]).IterAt 1 ⟨[], 0⟩ := LevelStore.iterAt_scanning rfl
  refine (idle_iff_right_empty (n := 2) (SeqScan.replays [] (by decide)) (SeqScan.replays [] (by decide))
    (keepsWidth_source ⟨0, 0⟩ []) (keepsWidth_source ⟨1, 1⟩ []) (SeqScan.stable fun hsame => hsame _ (by decide))
    (SeqScan.stable fun hsame => hsame _ (by decide)) rfl ⟨0, h0⟩ ⟨0, h1⟩ rfl).2 rfl

/-- An empty table joined with a table of one row: a predicate on the right table lets a row through
that has no left tuple, and the comparison of the two tables reads through the null pointer. -/
theorem not_idle_empty_left :
    (∃ j s, execOpen (SeqScan.executor ⟨0, 0⟩) (SeqScan.executor ⟨1, 1⟩) (new 2 () ())
        (.scanning [[], [([1], integerRecord 5)]]) = .ok (.ok, j, s) ∧
      (∃ j' s', getNext (SeqScan.executor ⟨0, 0⟩) (SeqScan.executor ⟨1, 1⟩)
        (.integerCompare .equal (.slotReference ⟨1, 0, .integer⟩) (.integerConstValue 5)) 1 j s (.new 2) =
          .ok (.ok, [none, some (Cells.ofBytes (integerRecord 5))], j', s')) ∧
      getNext (SeqScan.executor ⟨0, 0⟩) (SeqScan.executor ⟨1, 1⟩) equalFirst 1 j s (.new 2) = .error .nullPointer) ∧
    ¬ Idle (SeqScan.executor ⟨0, 0⟩) (SeqScan.executor ⟨1, 1⟩) 2 (new 2 () ())
      (.scanning [[], [([1], integerRecord 5)]]) := by
  refine ⟨⟨_, _, rfl, ⟨_, _, rfl⟩, rfl⟩, fun ⟨N, hN⟩ => ?_⟩
  obtain ⟨j₁, w₁, j₂, w₂, hopen, hfetch⟩ := hN (N + 1) (Nat.le_succ N) faulting [TupleRow.new 2] (by simp)
  cases hopen
  cases hfetch

end NestedLoopJoin

end Dbms18
