import Dbms18.Executor.JoinFrame
import Dbms18.Executor.OwnPositions

/-!
# A join as the child of a join

In `A JOIN (B JOIN C ON p) ON q` the right child of the outer join overwrites the whole of its row, so
the outer predicate is evaluated without the tuple of `A`.
-/

namespace Dbms18

open List Res

/-! ## Evaluation with more tuples -/

/-- The tuples that the first row has, the second has too. -/
def TupleRow.Below (row row' : TupleRow) : Prop := ∀ (i : Nat) (t : RawTuple), row[i]? = some (some t) →
    row'[i]? = some (some t)

section

variable {row row' : TupleRow}

theorem TupleRow.Below.getTuple (h : row.Below row') {i : Nat} {t : RawTuple} (ht : row.getTuple i = .ok t) :
    row'.getTuple i = .ok t := by
  obtain ⟨p, hp, ht⟩ := bind_eq_ok.1 ht
  rw [getD_eq_ok] at hp ht
  simp [TupleRow.getTuple, h i t (hp.trans (congrArg some ht))]

theorem ValueExpr.getValue_mono (h : row.Below row') {e : ValueExpr} {p : ValuePointer} (hp : e.getValue row = .ok p) :
    e.getValue row' = .ok p := by
  cases e with
  | slotReference slot =>
    obtain ⟨t, ht, hp⟩ := bind_eq_ok.1 hp
    simpa [getValue, SlotReference.getValue, h.getTuple ht] using hp
  | varcharConstValue value => exact hp
  | integerConstValue value => exact hp

theorem BooleanExpr.compareBy_mono {α : Type} {read : ValuePointer → Res α} {order : α → α → Option Ordering}
    {op : OperatorType} {left right : ValueExpr} (h : row.Below row') {v : Bool}
    (hv : compareBy read order op left right row = .ok v) : compareBy read order op left right row' = .ok v := by
  obtain ⟨p, hp, hv⟩ := bind_eq_ok.1 hv
  obtain ⟨l, hl, hv⟩ := bind_eq_ok.1 hv
  obtain ⟨p', hp', hv⟩ := bind_eq_ok.1 hv
  simpa [compareBy, ValueExpr.getValue_mono h hp, hl, ValueExpr.getValue_mono h hp'] using hv

theorem BooleanExpr.getValue_mono (h : row.Below row') {e : BooleanExpr} {v : Bool} (hv : e.getValue row = .ok v) :
    e.getValue row' = .ok v := by
  induction e generalizing v with
  | varcharCompare op left right => exact compareBy_mono h hv
  | integerCompare op left right => exact compareBy_mono h hv
  | floatCompare op left right => exact compareBy_mono h hv
  | logicExpr op left right ihl ihr =>
    cases op with
    | and =>
      obtain ⟨l, hl, hv⟩ := bind_eq_ok.1 hv
      rw [getValue, ihl hl, ok_bind]
      cases l with
      | true => exact ihr hv
      | false => exact hv
    | or =>
      obtain ⟨l, hl, hv⟩ := bind_eq_ok.1 hv
      rw [getValue, ihl hl, ok_bind]
      cases l with
      | true => exact hv
      | false => exact ihr hv
    | xor =>
      obtain ⟨l, hl, hv⟩ := bind_eq_ok.1 hv
      obtain ⟨r, hr, hv⟩ := bind_eq_ok.1 hv
      rw [getValue, ihl hl, ok_bind, ihr hr]
      exact hv
    | _ => cases hv

end

/-! ## A right child that overwrites the row -/

structure RowSource.Overwrites {ω σ : Type} (S : RowSource ω σ TupleRow) (n : Nat) : Prop where
  writes : ∀ {m row row'}, row.length = n → S.writes m row row' → row' = m ∧ m.length = n
  leaves : ∀ {row row'}, S.leaves row row' → row' = row

namespace NestedLoopJoin

variable {ω σ τ α : Type} {left : Executor ω σ} {right : Executor ω τ} {n : Nat} {L : RowSource ω σ α}
  {R : RowSource ω τ TupleRow} {predicate : BooleanExpr}

/-- The join when the predicate is false on every row of the right child: no pair is given. -/
def emptySource (n : Nat) (L : RowSource ω σ α) (R : RowSource ω τ TupleRow) : JoinSource ω σ τ α TupleRow where
  n := n
  left := L
  right := R
  free row := row.length = n
  holds _ row := row.length = n
  shows _ m row := row = m
  f _ _ := false

theorem rows_emptySource (fuel : Nat) : (source (emptySource n L R) fuel).rows = [] := by
  simp [source, emptySource, JoinSource.pairs]

theorem emptySource_joinOf (hleft : left.Replays n L) (hright : right.Replays n R) (hL : L.KeepsWidth)
    (hR : R.Overwrites n) (hLR : L.Stable R.moves) (hRL : R.Stable L.moves)
    (hq : ∀ m ∈ R.rows, predicate.getValue m = .ok false) : (emptySource n L R).JoinOf left right predicate where
  left := hleft
  right := hright
  leftStable := hLR
  rightStable := hRL
  width h := h
  free h := h
  holds hrow hwrites := (hL.writes hwrites).trans hrow
  shows hrow hwrites := by
    obtain ⟨rfl, hlen⟩ := hR.writes hrow hwrites
    exact ⟨rfl, hlen⟩
  leftEnd hrow hleaves := (hL.leaves hleaves).trans hrow
  rightEnd hrow hleaves := by
    obtain rfl := hR.leaves hleaves
    exact hrow
  decides := by
    intro a _ m hm row hrow
    rw [show row = m from hrow]
    exact hq m hm

theorem getNext_skip (left : Executor ω σ) (hright : right.Replays n R) (hR : R.Overwrites n) {ms ms' : List TupleRow}
    (hq : ∀ m ∈ ms, predicate.getValue m = .ok false) {j : NestedLoopJoin σ τ} {w : ω} (hj : j.leftState = .ok)
    (hrow : j.row.length = n) (hrest : R.rest (ms ++ ms') j.right w) (fuel : Nat) (row : TupleRow) :
    ∃ j' w', getNext left right predicate (fuel + ms.length) j w row = getNext left right predicate fuel j' w' row ∧
      j'.leftState = .ok ∧ j'.row.length = n ∧ R.rest ms' j'.right w' := by
  induction ms generalizing j w with
  | nil => exact ⟨j, w, rfl, hj, hrow, hrest⟩
  | cons m ms ih =>
    obtain ⟨row₁, r, w₁, hnext, hwrites, hrest₁, -⟩ := hright.next hrest hrow
    obtain ⟨rfl, hlen⟩ := hR.writes hrow hwrites
    have hj' : ¬ (j.leftState = .eof ∧ j.rightState = .eof) := by simp [hj]
    have hstep : step left right predicate row (j, w) =
        .ok (.inl ({ j with right := r, row := row₁, rightState := .ok }, w₁)) :=
      step_of_mismatch hj' hnext (hq _ mem_cons_self)
    obtain ⟨j', w', heq, h⟩ := ih (j := { j with right := r, row := row₁, rightState := .ok })
      (fun m hm => hq m (mem_cons_of_mem _ hm)) hj hlen hrest₁
    exact ⟨j', w', (Res.loop_of_continue hstep).trans heq, h⟩

theorem getNext_first (hright : right.Replays n R) (hR : R.Overwrites n) {ms ms' : List TupleRow} {m : TupleRow}
    (hq : ∀ m ∈ ms, predicate.getValue m = .ok false) {j : NestedLoopJoin σ τ} {w : ω} (hj : j.leftState = .ok)
    (hrow : j.row.length = n) (hrest : R.rest (ms ++ m :: ms') j.right w) (fuel : Nat) {row : TupleRow}
    (hdest : row.length = n) :
    (∀ e, predicate.getValue m = .error e → getNext left right predicate (fuel + 1 + ms.length) j w row = .error e) ∧
      (predicate.getValue m = .ok true →
        ∃ j' w', getNext left right predicate (fuel + 1 + ms.length) j w row = .ok (.ok, m, j', w')) := by
  obtain ⟨j', w', hskip, hstate, hwidth, hrest'⟩ := getNext_skip left hright hR hq hj hrow hrest (fuel + 1) row
  obtain ⟨row₁, r, w'', hnext, hwrites, -, -⟩ := hright.next hrest' hwidth
  obtain ⟨rfl, hlen⟩ := hR.writes hwidth hwrites
  have hj' : ¬ (j'.leftState = .eof ∧ j'.rightState = .eof) := by simp [hstate]
  refine ⟨fun e he => hskip.trans ?_, fun htrue =>
    ⟨{ j' with right := r, row := row₁, rightState := .ok }, w'', hskip.trans ?_⟩⟩
  · simp [getNext, Res.loop, step, hstate, hnext, he]
  · rw [getNext, Res.loop_of_return (step_of_match hj' hnext htrue),
      TupleRow.copyTo_of_length_eq (hlen.trans hdest.symm)]

end NestedLoopJoin

/-! ## `A JOIN (B JOIN C ON p) ON q` -/

/-- With enough fuel the plan can be opened, and then gives exactly `rows`. -/
def Plan.Returns (plan : Plan) (n : Nat) (s : LevelStore) (rows : List TupleRow) : Prop :=
  ∃ N, ∀ fuel ≥ N, ∃ x s', (plan.executor fuel).execOpen plan.new s = .ok (.ok, x, s') ∧
    ∀ dests : List TupleRow, (∀ dest ∈ dests, dest.length = n) →
      ∃ x' s'', (plan.executor fuel).fetch dests x s' = .ok (replies rows dests, x', s'')

/-- The value of a predicate where it has one. -/
def BooleanExpr.holds (e : BooleanExpr) (row : TupleRow) : Bool :=
  match e.getValue row with
  | .ok v => v
  | .error _ => false

theorem BooleanExpr.getValue_eq_holds {e : BooleanExpr} {row : TupleRow} (h : ∃ v, e.getValue row = .ok v) :
    e.getValue row = .ok (e.holds row) := by
  obtain ⟨v, hv⟩ := h
  rw [BooleanExpr.holds, hv]

/-- The scans of three tables, the records they go through, and the two predicates. -/
structure ParenthesisedJoin where
  n : Nat
  a : SeqScan
  b : SeqScan
  c : SeqScan
  as : List (Bytes × Bytes)
  bs : List (Bytes × Bytes)
  cs : List (Bytes × Bytes)
  p : BooleanExpr
  q : BooleanExpr

namespace ParenthesisedJoin

def right (J : ParenthesisedJoin) : Plan := .nestedLoopJoin J.n (.seqScan J.b) (.seqScan J.c) J.p

def plan (J : ParenthesisedJoin) : Plan := .nestedLoopJoin J.n (.seqScan J.a) J.right J.q

def inner (J : ParenthesisedJoin) (b c : Bytes × Bytes) : TupleRow :=
  ((TupleRow.new J.n).set J.b.tupleIndex (some (Cells.ofBytes b.2))).set J.c.tupleIndex (some (Cells.ofBytes c.2))

def outer (J : ParenthesisedJoin) (a b c : Bytes × Bytes) : TupleRow :=
  (J.inner b c).set J.a.tupleIndex (some (Cells.ofBytes a.2))

def inners (J : ParenthesisedJoin) : List TupleRow :=
  J.bs.flatMap fun b => (J.cs.filter fun c => J.p.holds (J.inner b c)).map (J.inner b)

/-- The rows that `A JOIN (B JOIN C ON p) ON q` stands for. -/
def reference (J : ParenthesisedJoin) : List TupleRow :=
  J.as.flatMap fun a => J.bs.flatMap fun b =>
    (J.cs.filter fun c => J.p.holds (J.inner b c) && J.q.holds (J.outer a b c)).map (J.outer a b)

/-- The three scans have iterators and positions of their own, the tables are not empty, and the
predicates have a value on the rows they speak about. -/
structure Stored (J : ParenthesisedJoin) (s : LevelStore) : Prop where
  scans : ∃ i j k, s.IterAt J.a.iterator ⟨J.as, i⟩ ∧ s.IterAt J.b.iterator ⟨J.bs, j⟩ ∧ s.IterAt J.c.iterator ⟨J.cs, k⟩
  iterators : [J.a.iterator, J.b.iterator, J.c.iterator].Nodup
  positions : [J.a.tupleIndex, J.b.tupleIndex, J.c.tupleIndex].Nodup
  width : ∀ i ∈ [J.a.tupleIndex, J.b.tupleIndex, J.c.tupleIndex], i < J.n
  nonempty : J.as ≠ [] ∧ J.bs ≠ [] ∧ J.cs ≠ []
  p_value : ∀ b ∈ J.bs, ∀ c ∈ J.cs, ∃ v, J.p.getValue (J.inner b c) = .ok v
  q_value : ∀ a ∈ J.as, ∀ b ∈ J.bs, ∀ c ∈ J.cs, ∃ v, J.q.getValue (J.outer a b c) = .ok v

variable {J : ParenthesisedJoin} {s : LevelStore} {fuel : Nat}

def join (J : ParenthesisedJoin) : JoinSource LevelStore Unit Unit RowPart RowPart :=
  NestedLoopJoin.combineSource J.n (· = J.b.tupleIndex) (· = J.c.tupleIndex) (J.b.part J.bs) (J.c.part J.cs)
    fun l r => J.p.holds (TupleRow.combine J.n (· = J.b.tupleIndex) (· = J.c.tupleIndex) l r)

def source (J : ParenthesisedJoin) (fuel : Nat) :
    RowSource LevelStore (NestedLoopJoin Unit Unit) TupleRow :=
  (NestedLoopJoin.source J.join fuel).map fun lr =>
    TupleRow.combine J.n (· = J.b.tupleIndex) (· = J.c.tupleIndex) lr.1 lr.2

theorem combine_eq_inner (b c : Bytes × Bytes) :
    TupleRow.combine J.n (· = J.b.tupleIndex) (· = J.c.tupleIndex) (fun _ => some (Cells.ofBytes b.2))
      (fun _ => some (Cells.ofBytes c.2)) = J.inner b c := by
  rw [TupleRow.combine, ← TupleRow.set_eq_put, ← TupleRow.set_eq_put, inner]

theorem rows_source : (J.source fuel).rows = J.inners := by
  simp only [source, RowSource.map, NestedLoopJoin.source, join, NestedLoopJoin.combineSource, JoinSource.pairs,
    SeqScan.part, SeqScan.source, map_flatMap, flatMap_map, map_map, filter_map, Function.comp_def,
    head?_cons, combine_eq_inner, inners]

theorem overwrites_source : (J.source fuel).Overwrites J.n where
  writes := by
    rintro m row row' hrow ⟨⟨l, r⟩, -, rfl, joinRow, rfl, -, rfl⟩
    exact ⟨TupleRow.copyTo_of_length_eq ((NestedLoopJoin.length_combine l r).trans hrow.symm),
      NestedLoopJoin.length_combine l r⟩
  leaves h := h

section Stored

variable (hs : J.Stored s)

include hs

theorem Stored.join_joinOf : J.join.JoinOf J.b.executor J.c.executor J.p := by
  have hne : J.b.iterator ≠ J.c.iterator := by
    have := hs.iterators
    simp only [nodup_cons, mem_cons, not_mem_nil] at this
    tauto
  have hpos : J.b.tupleIndex ≠ J.c.tupleIndex := by
    have := hs.positions
    simp only [nodup_cons, mem_cons, not_mem_nil] at this
    tauto
  refine NestedLoopJoin.combine_joinOf ((SeqScan.replays J.bs (hs.width _ (by simp))).map _)
    ((SeqScan.replays J.cs (hs.width _ (by simp))).map _) (J.b.ownPositions_part J.bs) (J.c.ownPositions_part J.cs) ?_
    (SeqScan.stable_part hne) (SeqScan.stable_part hne.symm) ?_
  · rintro i rfl
    exact hpos
  · intro l hl r hr
    obtain ⟨_, hl', rfl⟩ := mem_map.1 hl
    obtain ⟨_, hr', rfl⟩ := mem_map.1 hr
    obtain ⟨b, hb, rfl⟩ := mem_map.1 hl'
    obtain ⟨c, hc, rfl⟩ := mem_map.1 hr'
    simp only [head?_cons, combine_eq_inner]
    exact BooleanExpr.getValue_eq_holds (hs.p_value b hb c hc)

theorem Stored.replays (hfuel : NestedLoopJoin.work J.join ≤ fuel) :
    (NestedLoopJoin.executor J.b.executor J.c.executor J.p fuel).Replays J.n (J.source fuel) := by
  have hne : (J.b.part J.bs).rows ≠ [] := by simpa [SeqScan.part, SeqScan.source, RowSource.map] using hs.nonempty.2.1
  exact (NestedLoopJoin.replays hs.join_joinOf hne hfuel).map _

theorem Stored.ready : (J.source fuel).ready (NestedLoopJoin.new J.n () ()) s := by
  obtain ⟨i, j, k, -, hb, hc⟩ := hs.scans
  refine ⟨⟨j, hb⟩, ⟨k, hc⟩, fun _ => none, fun _ => none, ?_⟩
  rw [TupleRow.combine, TupleRow.new_put_null, TupleRow.new_put_null]
  rfl

theorem Stored.stable : (J.a.source J.as).Stable (J.source fuel).moves ∧ (J.source fuel).Stable (J.a.source J.as).moves := by
  have hnodup := hs.iterators
  simp only [nodup_cons, mem_cons, not_mem_nil, or_false, not_or] at hnodup
  obtain ⟨⟨hab, hac⟩, -⟩ := hnodup
  constructor
  · refine RowSource.Stable.reflTransGen (SeqScan.stable ?_)
    rintro s s' (hb | hc)
    · exact hb _ hab
    · exact hc _ hac
  · refine (NestedLoopJoin.stable ?_ ?_).map _
    · exact (SeqScan.stable fun hsame => hsame _ (Ne.symm hab)).map _
    · exact (SeqScan.stable fun hsame => hsame _ (Ne.symm hac)).map _

theorem Stored.getElem?_inner (b c : Bytes × Bytes) : (J.inner b c)[J.a.tupleIndex]? = some none := by
  have hnodup := hs.positions
  simp only [nodup_cons, mem_cons, not_mem_nil, or_false, not_or] at hnodup
  obtain ⟨⟨hab, hac⟩, -⟩ := hnodup
  rw [inner, getElem?_set_ne (Ne.symm hac), getElem?_set_ne (Ne.symm hab), TupleRow.new,
    getElem?_replicate, if_pos (hs.width _ (by simp))]

theorem Stored.getElem?_outer (a b c : Bytes × Bytes) :
    (J.outer a b c)[J.a.tupleIndex]? = some (some (Cells.ofBytes a.2)) := by
  rw [outer, getElem?_set_self]
  exact (List.getElem?_eq_some_iff.1 (hs.getElem?_inner b c)).1

theorem Stored.below (a b c : Bytes × Bytes) : (J.inner b c).Below (J.outer a b c) := by
  intro i t hi
  have hne : J.a.tupleIndex ≠ i := by
    rintro rfl
    rw [hs.getElem?_inner] at hi
    cases hi
  rw [outer, getElem?_set_ne hne]
  exact hi

end Stored

theorem mem_inners {m : TupleRow} : m ∈ J.inners ↔ ∃ b ∈ J.bs, ∃ c ∈ J.cs, J.p.holds (J.inner b c) ∧ m = J.inner b c := by
  simp only [inners, mem_flatMap, mem_map, mem_filter]
  constructor
  · rintro ⟨b, hb, c, ⟨hc, hp⟩, rfl⟩
    exact ⟨b, hb, c, hc, hp, rfl⟩
  · rintro ⟨b, hb, c, hc, hp, rfl⟩
    exact ⟨b, hb, c, ⟨hc, hp⟩, rfl⟩

theorem Stored.reference_eq_nil (hs : J.Stored s) (hq : ∀ m ∈ J.inners, J.q.getValue m = .ok false) : J.reference = [] := by
  simp only [reference, flatMap_eq_nil_iff, map_eq_nil_iff, filter_eq_nil_iff]
  intro a ha b hb c hc hholds
  obtain ⟨hp, hholds⟩ := Bool.and_eq_true_iff.1 hholds
  have hfalse := BooleanExpr.getValue_mono (hs.below a b c) (hq _ (mem_inners.2 ⟨b, hb, c, hc, hp, rfl⟩))
  rw [BooleanExpr.holds, hfalse] at hholds
  cases hholds

theorem Stored.returns_nil (hs : J.Stored s) (hq : ∀ m ∈ J.inners, J.q.getValue m = .ok false) :
    J.plan.Returns J.n s [] := by
  let E := NestedLoopJoin.emptySource J.n (J.a.source J.as) (J.source 0)
  refine ⟨max (NestedLoopJoin.work J.join) (NestedLoopJoin.work E), fun fuel hfuel => ?_⟩
  obtain ⟨i, j, k, ha, hb, hc⟩ := hs.scans
  have hJ := NestedLoopJoin.emptySource_joinOf (SeqScan.replays J.as (hs.width _ (by simp)))
    (hs.replays (le_of_max_le_left hfuel)) (NestedLoopJoin.keepsWidth_source J.a J.as) overwrites_source hs.stable.1
    hs.stable.2 (rows_source ▸ hq)
  have hne : (J.a.source J.as).rows ≠ [] := by simpa [SeqScan.source] using hs.nonempty.1
  have hwork : NestedLoopJoin.work (NestedLoopJoin.emptySource J.n (J.a.source J.as) (J.source fuel)) ≤ fuel :=
    le_of_max_le_right hfuel
  have hreplays := NestedLoopJoin.replays hJ hne hwork
  have hready : NestedLoopJoin.ready (NestedLoopJoin.emptySource J.n (J.a.source J.as) (J.source fuel))
      (NestedLoopJoin.new J.n () (NestedLoopJoin.new J.n () ())) s :=
    ⟨⟨i, ha⟩, hs.ready, TupleRow.length_new J.n⟩
  obtain ⟨x, s', hopen, hrest, -⟩ := hreplays.execOpen hready
  refine ⟨x, s', hopen, fun dests hdests => ?_⟩
  have hwrites : ∀ {am row row'}, row.length = J.n →
      (NestedLoopJoin.source (NestedLoopJoin.emptySource J.n (J.a.source J.as) (J.source fuel)) fuel).writes am row row' →
      row' = am.2 := by
    rintro ⟨a, m⟩ row row' hrow ⟨joinRow, rfl, hfree, rfl⟩
    exact TupleRow.copyTo_of_length_eq (Eq.trans hfree hrow.symm)
  rw [NestedLoopJoin.rows_emptySource] at hrest
  obtain ⟨x', s'', -, hfetch, -⟩ := hreplays.fetch_eq hwrites (fun h => h) hdests hrest
  exact ⟨x', s'', hfetch⟩

theorem Stored.getNext_first (hs : J.Stored s) {ms ms' : List TupleRow} {m : TupleRow} (hinners : J.inners = ms ++ m :: ms')
    (hq : ∀ m ∈ ms, J.q.getValue m = .ok false) (hfuel : NestedLoopJoin.work J.join ≤ fuel + 1 + ms.length) :
    ∃ x s', (J.plan.executor (fuel + 1 + ms.length)).execOpen J.plan.new s = .ok (.ok, x, s') ∧
      (∀ e, J.q.getValue m = .error e →
        (J.plan.executor (fuel + 1 + ms.length)).getNext x s' (TupleRow.new J.n) = .error e) ∧
      (J.q.getValue m = .ok true → ∃ x' s'',
        (J.plan.executor (fuel + 1 + ms.length)).getNext x s' (TupleRow.new J.n) = .ok (.ok, m, x', s'')) := by
  obtain ⟨i, j, k, ha, hb, hc⟩ := hs.scans
  obtain ⟨a, as, has⟩ := exists_cons_of_ne_nil hs.nonempty.1
  have hright := hs.replays hfuel
  have hrows : (J.a.source J.as).rows = [Cells.ofBytes a.2] :: as.map fun r => [Cells.ofBytes r.2] := by
    simp [SeqScan.source, has]
  obtain ⟨l, r, row, w, hopen, ⟨t, -, rfl⟩, -, hrest, -⟩ := NestedLoopJoin.execOpen_cons
    (j := NestedLoopJoin.new J.n () (NestedLoopJoin.new J.n () ())) (SeqScan.replays J.as (hs.width _ (by simp))) hright
    hs.stable.1 hs.stable.2 hrows ⟨i, ha⟩ hs.ready (TupleRow.length_new J.n)
  rw [rows_source, hinners] at hrest
  obtain ⟨herror, htrue⟩ := NestedLoopJoin.getNext_first hright overwrites_source hq
    (j := ⟨l, r, .ok, .ok, _⟩) rfl (length_set.trans (TupleRow.length_new J.n)) hrest fuel (TupleRow.length_new J.n)
  exact ⟨_, w, hopen, herror, htrue⟩

theorem Stored.returns_iff (hs : J.Stored s) : (∃ rows, rows.Perm J.reference ∧ J.plan.Returns J.n s rows) ↔
    ∀ m ∈ J.inners, J.q.getValue m = .ok false := by
  constructor
  · rintro ⟨rows, hperm, N, hN⟩
    by_contra hne
    -- the first inner row on which the outer predicate is not false
    classical
    obtain ⟨m, hfind⟩ : ∃ m, J.inners.find? (fun m => J.q.getValue m ≠ .ok false) = some m := by
      rw [← Option.isSome_iff_exists, find?_isSome]
      simpa using hne
    obtain ⟨hm, ms, ms', hinners, hms⟩ := find?_eq_some_iff_append.1 hfind
    obtain ⟨x, s', hopen, herror, htrue⟩ := hs.getNext_first hinners (by simpa using hms)
      (by omega : NestedLoopJoin.work J.join ≤ N + NestedLoopJoin.work J.join + 1 + ms.length)
    obtain ⟨x₁, s₁, hopen', hfetch⟩ := hN (N + NestedLoopJoin.work J.join + 1 + ms.length) (by omega)
    obtain ⟨-, hxs⟩ := Prod.mk.inj (Except.ok.inj (hopen.symm.trans hopen'))
    obtain ⟨rfl, rfl⟩ := Prod.mk.inj hxs
    obtain ⟨x', s'', hfetch⟩ := hfetch [TupleRow.new J.n] (by simp)
    cases hvalue : J.q.getValue m with
    | error e => simp [Executor.fetch, herror e hvalue] at hfetch
    | ok v =>
      obtain rfl : v = true := by simpa [hvalue] using hm
      obtain ⟨x₂, s₂, hnext⟩ := htrue hvalue
      simp only [Executor.fetch, hnext, Res.ok_bind] at hfetch
      cases rows with
      | nil => cases hfetch
      | cons row rows =>
        obtain ⟨hreplies, -⟩ := Prod.mk.inj (Except.ok.inj hfetch)
        obtain rfl : m = row := (Prod.mk.inj (List.cons.inj hreplies).1).2
        have hmem : m ∈ J.reference := hperm.subset mem_cons_self
        simp only [reference, mem_flatMap, mem_map] at hmem
        obtain ⟨a, -, b, -, c, -, houter⟩ := hmem
        obtain ⟨b', -, c', -, -, hinner⟩ := mem_inners.1 (hinners ▸ (by simp : m ∈ ms ++ m :: ms'))
        have hget := hs.getElem?_outer a b c
        rw [houter, hinner, hs.getElem?_inner] at hget
        cases hget
  · intro hq
    exact ⟨[], by rw [hs.reference_eq_nil hq], hs.returns_nil hq⟩

end ParenthesisedJoin

/-- A call of a join that gives a row leaves the caller's tuples of other tables alone only where there
are none. And `A JOIN (B JOIN C ON p) ON q` gives the rows it stands for only if the outer predicate is
false, without a tuple of `A`, on every row of the inner join: then there are none. -/
theorem join_as_child_iff (n fuel : Nat) (left right : Plan) (predicate : BooleanExpr) (J : ParenthesisedJoin)
    (s₀ : LevelStore) :
    (∀ {x x' : NestedLoopJoin left.Members right.Members} {s s' : LevelStore} {row row' : TupleRow},
      Plan.Reached fuel (.nestedLoopJoin n left right predicate) x → row.length = n →
      ((Plan.nestedLoopJoin n left right predicate).executor fuel).getNext x s row = .ok (.ok, row', x', s') →
      ((∀ i ∉ left.positions ++ right.positions, row'[i]? = row[i]?) ↔
        ∀ i ∉ left.positions ++ right.positions, ∀ t, row[i]? ≠ some (some t))) ∧ (J.Stored s₀ →
      ((∃ rows, rows.Perm J.reference ∧ J.plan.Returns J.n s₀ rows) ↔
        ∀ b ∈ J.bs, ∀ c ∈ J.cs, J.p.holds (J.inner b c) → J.q.getValue (J.inner b c) = .ok false)) := by
  refine ⟨Plan.frame_iff, fun hs => hs.returns_iff.trans ⟨fun h b hb c hc hp => ?_, fun h m hm => ?_⟩⟩
  · exact h _ (ParenthesisedJoin.mem_inners.2 ⟨b, hb, c, hc, hp, rfl⟩)
  · obtain ⟨b, hb, c, hc, hp, rfl⟩ := ParenthesisedJoin.mem_inners.1 hm
    exact h b hb c hc hp

/-- `A`, `B` and `C` with one row each, joined on `B.x = C.x`, and with `q` over all three. -/
def ParenthesisedJoin.ofOne (q : BooleanExpr) : ParenthesisedJoin where
  n := 3
  a := ⟨0, 0⟩
  b := ⟨1, 1⟩
  c := ⟨2, 2⟩
  as := [([1], integerRecord 5)]
  bs := [([1], integerRecord 5)]
  cs := [([1], integerRecord 5)]
  p := .integerCompare .equal (.slotReference ⟨1, 0, .integer⟩) (.slotReference ⟨2, 0, .integer⟩)
  q := q

def storageABC : LevelStore := .scanning (List.replicate 3 [([1], integerRecord 5)])

theorem ParenthesisedJoin.stored_ofOne {q : BooleanExpr} (hq : ∃ v, q.getValue (integerRow [5, 5, 5]) = .ok v) :
    (ofOne q).Stored storageABC where
  scans := ⟨0, 0, 0, LevelStore.iterAt_scanning rfl, LevelStore.iterAt_scanning rfl, LevelStore.iterAt_scanning rfl⟩
  iterators := by simp [ofOne]
  positions := by simp [ofOne]
  width := by simp [ofOne]
  nonempty := by simp [ofOne]
  p_value := by
    simp only [ofOne, forall_mem_singleton]
    exact ⟨true, rfl⟩
  q_value := by
    simp only [ofOne, forall_mem_singleton]
    exact hq

theorem ParenthesisedJoin.getNext_ofOne (q : BooleanExpr) (d : Option RawTuple) :
    ∃ x s x' s', (ofOne q).right.Reached 2 x ∧ ((ofOne q).right.executor 2).getNext x s [d, none, none] =
      .ok (.ok, none :: integerRow [5, 5], x', s') := by
  have hcalls : ∃ x' s', (do
      let (_, x, s) ← ((ofOne q).right.executor 2).execOpen (ofOne q).right.new storageABC
      ((ofOne q).right.executor 2).getNext x s [d, none, none]) = .ok (.ok, none :: integerRow [5, 5], x', s') :=
    ⟨_, _, rfl⟩
  obtain ⟨x', s', hcalls⟩ := hcalls
  obtain ⟨⟨state, x, s⟩, hopen, hnext⟩ := bind_eq_ok.1 hcalls
  exact ⟨x, s, x', s', .execOpen .new hopen, hnext⟩

/-- The inner join called with an empty row, and an outer predicate that is false on all of `B`. -/
theorem join_as_child_iff_ofOne :
    (∃ x s x' s', ((ParenthesisedJoin.ofOne equalFirst).right.executor 2).getNext x s (.new 3) =
        .ok (.ok, none :: integerRow [5, 5], x', s') ∧
      ∀ i ∉ [1, 2], (none :: integerRow [5, 5])[i]? = (TupleRow.new 3)[i]?) ∧
    ∃ q rows, rows.Perm (ParenthesisedJoin.ofOne q).reference ∧
      (ParenthesisedJoin.ofOne q).plan.Returns 3 storageABC rows := by
  constructor
  · obtain ⟨x, s, x', s', hx, hnext⟩ := ParenthesisedJoin.getNext_ofOne equalFirst none
    have hframe := (join_as_child_iff 3 2 _ _ _ (ParenthesisedJoin.ofOne equalFirst) storageABC).1 hx rfl hnext
    refine ⟨x, s, x', s', hnext, hframe.2 fun i _ t => ?_⟩
    exact (TupleRow.NullOutside.new [] 3).null i not_mem_nil t
  · let q : BooleanExpr := .integerCompare .equal (.slotReference ⟨1, 0, .integer⟩) (.integerConstValue 7)
    have hrows := (join_as_child_iff 3 2 (.seqScan ⟨1, 1⟩) (.seqScan ⟨2, 2⟩) q (ParenthesisedJoin.ofOne q) storageABC).2
    refine ⟨q, (hrows (ParenthesisedJoin.stored_ofOne ⟨false, rfl⟩)).2 ?_⟩
    simp only [ParenthesisedJoin.ofOne, forall_mem_singleton]
    exact fun _ => rfl

/-- With `A.x = B.x` for the outer predicate one row is expected, but the predicate reads the tuple of
`A` through a null pointer; and the inner join has lost a tuple of `A` in the caller's row. -/
theorem not_join_as_child :
    (∃ x s x' s', (ParenthesisedJoin.ofOne equalFirst).right.Reached 2 x ∧
      ((ParenthesisedJoin.ofOne equalFirst).right.executor 2).getNext x s
        [some (Cells.ofBytes (integerRecord 5)), none, none] = .ok (.ok, none :: integerRow [5, 5], x', s')) ∧
    (ParenthesisedJoin.ofOne equalFirst).reference = [integerRow [5, 5, 5]] ∧
    ¬ ∃ rows, rows.Perm (ParenthesisedJoin.ofOne equalFirst).reference ∧
      (ParenthesisedJoin.ofOne equalFirst).plan.Returns 3 storageABC rows := by
  refine ⟨ParenthesisedJoin.getNext_ofOne equalFirst _, rfl, fun h => ?_⟩
  · have hfalse := (ParenthesisedJoin.stored_ofOne (q := equalFirst) ⟨true, rfl⟩).returns_iff.1 h _
      (ParenthesisedJoin.mem_inners.2 ⟨_, mem_cons_self, _, mem_cons_self, rfl, rfl⟩)
    cases hfalse

end Dbms18
