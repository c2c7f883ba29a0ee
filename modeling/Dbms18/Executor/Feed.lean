import Dbms18.Executor.JoinChain
import Dbms18.Lib.Ensures

/-!
# The rows that a join feeds to the executor above it

A projection or a selection calls `GetNext` of its child again and again with the same row. Positions
of the row that no scan of the child writes stay null.
-/

namespace Dbms18

open Res

/-- Calls of `GetNext`, each with the row of the call before, until `kStateEOF`. -/
def Executor.feed {ω σ : Type} (E : Executor ω σ) : Nat → σ → ω → TupleRow → Res (List TupleRow)
  | 0, _, _, _ => .error .outOfFuel
  | k + 1, x, w, row => do
    let (state, row, x, w) ← E.getNext x w row
    if state = .eof then return []
    return row :: (← E.feed k x w row)

def TupleRow.NullAt (p : Nat → Prop) (row : TupleRow) : Prop := ∀ i, p i → ∀ t, row[i]? ≠ some (some t)

namespace TupleRow

variable {p : Nat → Prop} {row dest : TupleRow}

theorem nullAt_new (p : Nat → Prop) (n : Nat) : (TupleRow.new n).NullAt p := by
  intro i _ t h
  simp [TupleRow.new, List.getElem?_replicate] at h

theorem NullAt.set (h : row.NullAt p) {k : Nat} (hk : ¬ p k) (t : Option RawTuple) : NullAt p (row.set k t) := by
  intro i hi t'
  have hne : k ≠ i := fun heq => hk (heq ▸ hi)
  rw [List.getElem?_set_ne hne]
  exact h i hi t'

theorem NullAt.copyTo (h : row.NullAt p) (hdest : dest.NullAt p) : (row.copyTo dest).NullAt p := by
  unfold TupleRow.copyTo
  split
  · intro i hi t
    rw [List.getElem?_append]
    split
    · exact h i hi t
    · rw [List.getElem?_drop, Nat.add_sub_cancel' (by omega)]
      exact hdest i hi t
  · exact hdest

theorem length_copyTo (row dest : TupleRow) : (row.copyTo dest).length = dest.length := by
  unfold TupleRow.copyTo
  split
  case isTrue hle => rw [List.length_append, List.length_drop, Nat.add_sub_cancel' hle]
  case isFalse => rfl

end TupleRow

/-- Calls of the executor keep a property `J` of its members, and `GetNext` then a property `R` of the
row it is given. -/
structure Executor.KeepsRow {ω σ : Type} (E : Executor ω σ) (J : σ → Prop) (R : TupleRow → Prop) : Prop where
  execOpen : ∀ {x w}, J x → Ensures (E.execOpen x w) fun r => J r.2.1
  getNext : ∀ {x w row}, J x → R row → Ensures (E.getNext x w row) fun r => R r.2.1 ∧ J r.2.2.1

variable {R : TupleRow → Prop}

theorem SeqScan.keepsRow {scan : SeqScan} (hset : ∀ {row}, R row → ∀ t, R (row.set scan.tupleIndex (some t))) :
    scan.executor.KeepsRow (fun _ => True) R where
  execOpen _ := .of_bind fun _ => ensures_ok trivial
  getNext {x w row} _ hrow := by
    refine Ensures.bind (Q := fun r => R r.2.1) (.of_bind fun valid => ?_) fun r hr => ensures_ok ⟨hr, trivial⟩
    split
    · refine .of_bind fun t => Ensures.bind (Q := R) (.of_bind fun _ => ensures_ok (hset hrow _)) ?_
      exact fun row' hrow' => .of_bind fun _ => ensures_ok hrow'
    · exact ensures_ok hrow

namespace NestedLoopJoin

variable {ω σ τ : Type} {left : Executor ω σ} {right : Executor ω τ} {J : σ → Prop} {K : τ → Prop}
  {R R' : TupleRow → Prop}

theorem keepsRow (hl : left.KeepsRow J R) (hr : right.KeepsRow K R)
    (hcopy : ∀ {row dest : TupleRow}, R row → R' dest → R' (row.copyTo dest)) (predicate : BooleanExpr) (fuel : Nat) :
    (executor left right predicate fuel).KeepsRow (fun j => J j.left ∧ K j.right ∧ R j.row) R' where
  execOpen {j w} hj := by
    obtain ⟨hjl, hjr, hrow⟩ := hj
    refine (hl.execOpen hjl).bind fun r hr₁ => ?_
    dsimp only
    split
    · exact ensures_ok ⟨hr₁, hjr, hrow⟩
    refine (hr.execOpen hjr).bind fun r' hr₂ => ?_
    split
    · exact ensures_ok ⟨hr₁, hr₂, hrow⟩
    refine (hl.getNext hr₁ hrow).bind fun r'' hr₃ => ?_
    split <;> exact ensures_ok ⟨hr₃.2, hr₂, hr₃.1⟩
  getNext {j w row} hj hrow := by
    refine ensures_loop (I := fun jw => J jw.1.left ∧ K jw.1.right ∧ R jw.1.row) ?_ hj fuel
    rintro ⟨j, w⟩ ⟨hjl, hjr, hjrow⟩
    simp only [step]
    split
    · exact ensures_ok ⟨hrow, hjl, hjr, hjrow⟩
    refine (hr.getNext hjr hjrow).bind fun r hr₁ => ?_
    split
    · refine .of_bind fun b => ?_
      split
      · exact ensures_ok ⟨hcopy hr₁.1 hrow, hjl, hr₁.2, hr₁.1⟩
      · exact ensures_ok ⟨hjl, hr₁.2, hr₁.1⟩
    split
    · refine (hl.getNext hjl hr₁.1).bind fun r hr₂ => ?_
      split
      · exact ensures_ok ⟨hrow, hr₂.2, hr₁.2, hr₂.1⟩
      refine (hr.execOpen hr₁.2).bind fun r hr₃ => ?_
      split
      · exact ensures_ok ⟨hrow, hr₂.2, hr₃, hr₂.1⟩
      · exact ensures_ok ⟨hr₂.2, hr₃, hr₂.1⟩
    · exact ensures_ok ⟨hrow, hjl, hr₁.2, hr₁.1⟩

end NestedLoopJoin

variable {σ : Type} {J : σ → Prop}

theorem Select.keepsRow {ω : Type} {left : Executor ω σ} (hl : left.KeepsRow J R)
    (predicate : BooleanExpr) (fuel : Nat) : (executor left predicate fuel).KeepsRow J R where
  execOpen := hl.execOpen
  getNext {x w row} hx hrow := by
    refine ensures_loop (I := fun lw => J lw.1 ∧ R lw.2.2) ?_ ⟨hx, hrow⟩ fuel
    rintro ⟨l, w, row⟩ ⟨hl₁, hrow₁⟩
    refine (hl.getNext hl₁ hrow₁).bind fun r hr => ?_
    dsimp only
    split
    · exact ensures_ok hr
    refine .of_bind fun b => ?_
    split
    · exact ensures_ok hr
    · exact ensures_ok hr.symm

theorem Project.keepsRow {ω : Type} {left : Executor ω σ} {R' : TupleRow → Prop}
    (hl : left.KeepsRow J R) (hset : ∀ {row}, R' row → ∀ t, R' (row.set 0 (some t))) (attrs : List ValueExpr) :
    (executor left attrs).KeepsRow (fun p => J p.left ∧ R p.tupleRow) R' where
  execOpen hp := (hl.execOpen hp.1).bind fun _ hr => ensures_ok ⟨hr, hp.2⟩
  getNext hp hrow := by
    refine (hl.getNext hp.1 hp.2).bind fun r hr => ?_
    dsimp only
    split
    · exact ensures_ok ⟨hrow, hr.2, hr.1⟩
    · refine .of_bind fun t => Ensures.bind (Q := R') (.of_bind fun _ => ensures_ok (hset hrow t)) ?_
      exact fun row' hrow' => ensures_ok ⟨hrow', hr.2, hr.1⟩

variable {s : LevelStore} {outs : List (List RawTuple)} {n m : Nat} {plan : Plan} {hs : List Nat}

theorem Chained.keepsRow {b : Nat} (h : Chained n s b plan hs m outs) {m' : Nat} (hm : b + m ≤ m') (fuel : Nat) :
    ∃ J : plan.Members → Prop, J plan.new ∧ (plan.executor fuel).KeepsRow J (TupleRow.NullAt (m' ≤ ·)) := by
  induction h with
  | scan scan hindex hc => exact ⟨fun _ => True, trivial, SeqScan.keepsRow fun hrow _ => hrow.set (by omega) _⟩
  | @join b left hs m outs scan records pos predicate f hleft hrow hindex hiterator hc hdecides ih =>
    obtain ⟨J, hnew, hleft⟩ := ih (by omega)
    exact ⟨_, ⟨hnew, trivial, TupleRow.nullAt_new _ n⟩,
      NestedLoopJoin.keepsRow hleft (SeqScan.keepsRow fun hrow _ => hrow.set (by omega) _) TupleRow.NullAt.copyTo predicate
        fuel⟩
  | barren predicate _ _ _ ihl ihr =>
    obtain ⟨J, hnew, hleft⟩ := ihl (by omega)
    obtain ⟨K, hnew', hright⟩ := ihr (by omega)
    exact ⟨_, ⟨hnew, hnew', TupleRow.nullAt_new _ n⟩,
      NestedLoopJoin.keepsRow hleft hright TupleRow.NullAt.copyTo predicate fuel⟩

/-- With enough fuel the plan can be opened, and then feeds `rows` into a row of width `n`. -/
def Plan.Feeds (plan : Plan) (n : Nat) (s : LevelStore) (rows : List TupleRow) : Prop :=
  ∃ N, ∀ fuel ≥ N, ∃ x s', (plan.executor fuel).execOpen plan.new s = .ok (.ok, x, s') ∧
    (plan.executor fuel).feed fuel x s' (TupleRow.new n) = .ok rows

theorem Plan.Feeds.unique {rows rows' : List TupleRow}
    (h : plan.Feeds n s rows) (h' : plan.Feeds n s rows') : rows = rows' := by
  obtain ⟨fuel, ⟨x, s₁, hopen, hfeed⟩, x', s₁', hopen', hfeed'⟩ := Res.exists_fuel h h'
  obtain ⟨-, hx⟩ := Prod.mk.inj (Except.ok.inj (hopen.symm.trans hopen'))
  obtain ⟨rfl, rfl⟩ := Prod.mk.inj hx
  exact Except.ok.inj (hfeed.symm.trans hfeed')

end Dbms18
