import Dbms18.Executor.Feed

/-!
# What a join leaves of the caller's row

A join copies the whole of its own row to the caller. Positions of tables that are not under the join
are null in it, so what the caller had there is lost.
-/

namespace Dbms18

open Res

/-- The tuple positions of the tables under a plan. A projection puts its tuple at position 0. -/
def Plan.positions : Plan → List Nat
  | seqScan scan => [scan.tupleIndex]
  | nestedLoopJoin _ left right _ => left.positions ++ right.positions
  | select left _ => left.positions
  | project _ _ _ => [0]

inductive Plan.Reached (fuel : Nat) (plan : Plan) : plan.Members → Prop
  | new : Reached fuel plan plan.new
  | prepare {x x' : plan.Members} {s s' : LevelStore} {state : State} (hx : Reached fuel plan x)
    (h : (plan.executor fuel).prepare x s = .ok (state, x', s')) : Reached fuel plan x'
  | execOpen {x x' : plan.Members} {s s' : LevelStore} {state : State} (hx : Reached fuel plan x)
    (h : (plan.executor fuel).execOpen x s = .ok (state, x', s')) : Reached fuel plan x'
  | getNext {x x' : plan.Members} {s s' : LevelStore} {row row' : TupleRow} {state : State} (hx : Reached fuel plan x)
    (h : (plan.executor fuel).getNext x s row = .ok (state, row', x', s')) : Reached fuel plan x'
  | close {x x' : plan.Members} {s s' : LevelStore} (hx : Reached fuel plan x)
    (h : (plan.executor fuel).close x s = .ok (x', s')) : Reached fuel plan x'

structure TupleRow.NullOutside (ps : List Nat) (n : Nat) (row : TupleRow) : Prop where
  width : row.length = n
  null : row.NullAt (· ∉ ps)

namespace TupleRow.NullOutside

variable {ps : List Nat} {n m : Nat} {row dest : TupleRow}

theorem new (ps : List Nat) (n : Nat) : (TupleRow.new n).NullOutside ps n := ⟨length_new n, nullAt_new _ n⟩

theorem set (h : row.NullOutside ps n) {k : Nat} (hk : k ∈ ps) (t : Option RawTuple) : NullOutside ps n (row.set k t) :=
  ⟨List.length_set.trans h.width, h.null.set (not_not_intro hk) t⟩

theorem copyTo (h : row.NullOutside ps n) (hdest : dest.NullOutside ps m) : (row.copyTo dest).NullOutside ps m :=
  ⟨(TupleRow.length_copyTo row dest).trans hdest.width, h.null.copyTo hdest.null⟩

theorem getElem?_eq (h : row.NullOutside ps n) {i : Nat} (hi : i ∉ ps) : row[i]? = if i < n then some none else none := by
  cases hget : row[i]? with
  | none =>
    have hle := List.getElem?_eq_none_iff.1 hget
    rw [if_neg (by rw [← h.width]; omega)]
  | some t =>
    obtain ⟨hlt, -⟩ := List.getElem?_eq_some_iff.1 hget
    rw [if_pos (h.width ▸ hlt)]
    cases t with
    | none => rfl
    | some t => exact absurd hget (h.null i hi t)

end TupleRow.NullOutside

namespace Plan

variable {fuel n : Nat} {plan : Plan}

theorem ensures_prepare_close (plan : Plan) (fuel : Nat) (x : plan.Members) (s : LevelStore) :
    Ensures ((plan.executor fuel).prepare x s) (fun r => r.2.1 = x) ∧
      Ensures ((plan.executor fuel).close x s) fun r => r.1 = x := by
  induction plan generalizing s with
  | seqScan scan => exact ⟨ensures_ok rfl, ensures_ok rfl⟩
  | nestedLoopJoin n left right predicate ihl ihr =>
    obtain ⟨l, r, ls, rs, row⟩ := x
    constructor
    · refine (ihl l s).1.bind fun r₁ hr₁ => ?_
      obtain rfl := hr₁
      dsimp only
      split
      · exact ensures_ok rfl
      refine (ihr r _).1.bind fun r₂ hr₂ => ?_
      obtain rfl := hr₂
      exact ensures_ok rfl
    · refine (ihl l s).2.bind fun r₁ hr₁ => ?_
      obtain rfl := hr₁
      refine (ihr r _).2.bind fun r₂ hr₂ => ?_
      obtain rfl := hr₂
      exact ensures_ok rfl
  | select left predicate ih => exact ih x s
  | project left attrs n ih =>
    obtain ⟨l, row⟩ := x
    constructor
    · refine (ih l s).1.bind fun r₁ hr₁ => ?_
      obtain rfl := hr₁
      exact ensures_ok rfl
    · refine (ih l s).2.bind fun r₁ hr₁ => ?_
      obtain rfl := hr₁
      exact ensures_ok rfl

theorem exists_keepsRow (plan : Plan) (fuel : Nat) {ps : List Nat} (hps : plan.positions ⊆ ps) :
    ∃ J : plan.Members → Prop, J plan.new ∧ ∀ n, (plan.executor fuel).KeepsRow J (TupleRow.NullOutside ps n) := by
  induction plan generalizing ps with
  | seqScan scan =>
    exact ⟨fun _ => True, trivial, fun n => SeqScan.keepsRow fun hrow t => hrow.set (hps List.mem_cons_self) _⟩
  | nestedLoopJoin n left right predicate ihl ihr =>
    obtain ⟨J, hJ, hl⟩ := ihl (List.append_subset.1 hps).1
    obtain ⟨K, hK, hr⟩ := ihr (List.append_subset.1 hps).2
    exact ⟨_, ⟨hJ, hK, .new ps n⟩, fun m => NestedLoopJoin.keepsRow (hl n) (hr n) TupleRow.NullOutside.copyTo predicate fuel⟩
  | select left predicate ih =>
    obtain ⟨J, hJ, hl⟩ := ih hps
    exact ⟨J, hJ, fun n => Select.keepsRow (hl n) predicate fuel⟩
  | project left attrs n ih =>
    obtain ⟨J, hJ, hl⟩ := ih (List.Subset.refl _)
    refine ⟨_, ⟨hJ, .new left.positions n⟩, fun m => Project.keepsRow (hl n) (fun hrow t => ?_) attrs⟩
    exact hrow.set (hps List.mem_cons_self) _

theorem Reached.keeps {x : plan.Members} (hx : Reached fuel plan x) {J : plan.Members → Prop} (hnew : J plan.new)
    (hJ : (plan.executor fuel).KeepsRow J fun _ => True) : J x := by
  induction hx with
  | new => exact hnew
  | @prepare x x' s s' state _ h ih =>
    obtain rfl : x' = x := (ensures_prepare_close plan fuel x s).1 _ h
    exact ih
  | execOpen _ h ih => exact hJ.execOpen ih _ h
  | getNext _ h ih => exact (hJ.getNext ih trivial _ h).2
  | @close x x' s s' _ h ih =>
    obtain rfl : x' = x := (ensures_prepare_close plan fuel x s).2 _ h
    exact ih

section Join

variable {left right : Plan} {predicate : BooleanExpr}

theorem Reached.nullOutside {x : NestedLoopJoin left.Members right.Members}
    (hx : Reached fuel (.nestedLoopJoin n left right predicate) x) :
    x.row.NullOutside (left.positions ++ right.positions) n := by
  obtain ⟨J, hJ, hl⟩ := exists_keepsRow left fuel (List.subset_append_left _ right.positions)
  obtain ⟨K, hK, hr⟩ := exists_keepsRow right fuel (List.subset_append_right left.positions _)
  have hkeeps : (NestedLoopJoin.executor (left.executor fuel) (right.executor fuel) predicate fuel).KeepsRow
      (fun j => J j.left ∧ K j.right ∧ j.row.NullOutside (left.positions ++ right.positions) n) fun _ => True :=
    NestedLoopJoin.keepsRow (hl n) (hr n) (fun _ _ => trivial) predicate fuel
  exact (hx.keeps ⟨hJ, hK, .new _ n⟩ hkeeps).2.2

theorem ensures_copyTo {ω σ τ : Type} (left : Executor ω σ) (right : Executor ω τ) (predicate : BooleanExpr) (fuel : Nat)
    (j : NestedLoopJoin σ τ) (w : ω) (row : TupleRow) :
    Ensures (NestedLoopJoin.getNext left right predicate fuel j w row) fun r =>
      r.1 = .ok → r.2.1 = r.2.2.1.row.copyTo row := by
  refine ensures_loop (I := fun _ => True) ?_ trivial fuel
  rintro ⟨j, w⟩ -
  simp only [NestedLoopJoin.step]
  split
  · exact ensures_ok (by rintro ⟨⟩)
  refine .of_bind fun r => ?_
  split
  · refine .of_bind fun b => ?_
    split
    · exact ensures_ok fun _ => rfl
    · exact ensures_ok trivial
  next hright =>
    split
    · refine .of_bind fun r => ?_
      split
      next hleft => exact ensures_ok fun hok => absurd hok hleft
      refine .of_bind fun r => ?_
      split
      next hopen => exact ensures_ok fun hok => absurd hok hopen
      · exact ensures_ok trivial
    · exact ensures_ok fun hok => absurd hok hright

/-- After a call that gives a row, the caller has kept what it had at positions of other tables exactly
if it had nothing there. -/
theorem frame_iff {x x' : NestedLoopJoin left.Members right.Members} {s s' : LevelStore} {row row' : TupleRow}
    (hx : Reached fuel (.nestedLoopJoin n left right predicate) x) (hrow : row.length = n)
    (hnext : ((Plan.nestedLoopJoin n left right predicate).executor fuel).getNext x s row = .ok (.ok, row', x', s')) :
    (∀ i ∉ left.positions ++ right.positions, row'[i]? = row[i]?) ↔
      ∀ i ∉ left.positions ++ right.positions, ∀ t, row[i]? ≠ some (some t) := by
  have hx' := (hx.getNext hnext).nullOutside
  have hcopy : row' = x'.row.copyTo row := ensures_copyTo _ _ _ _ _ _ _ _ hnext rfl
  rw [TupleRow.copyTo_of_length_eq (hx'.width.trans hrow.symm)] at hcopy
  subst hcopy
  constructor
  · intro h i hi t
    rw [← h i hi]
    exact hx'.null i hi t
  · intro h i hi
    have hdest : row.NullOutside (left.positions ++ right.positions) n := ⟨hrow, h⟩
    rw [hx'.getElem?_eq hi, hdest.getElem?_eq hi]

end Join

end Plan

end Dbms18
