import Dbms18.Executor.Plan
import Dbms18.Lib.Ensures

/-!
# What the executors of a plan leave as it is

The executors reach the storage only through `SeqScan`, which moves its iterator. So a property of the
storage that moving an iterator keeps, every plan keeps.
-/

namespace Dbms18

open Res

structure Executor.Keeps {ω σ : Type} (E : Executor ω σ) (I : ω → Prop) : Prop where
  prepare : ∀ {x w}, I w → Ensures (E.prepare x w) fun r => I r.2.2
  execOpen : ∀ {x w}, I w → Ensures (E.execOpen x w) fun r => I r.2.2
  getNext : ∀ {x w row}, I w → Ensures (E.getNext x w row) fun r => I r.2.2.2
  close : ∀ {x w}, I w → Ensures (E.close x w) fun r => I r.2

section

variable {ω σ τ : Type} {left : Executor ω σ} {right : Executor ω τ} {I : ω → Prop}

theorem NestedLoopJoin.keeps (hl : left.Keeps I) (hr : right.Keeps I) (predicate : BooleanExpr) (fuel : Nat) :
    (executor left right predicate fuel).Keeps I where
  prepare hw := by
    refine (hl.prepare hw).bind fun r hr₁ => ?_
    dsimp only
    split
    · exact ensures_ok hr₁
    · exact (hr.prepare hr₁).bind fun _ h => ensures_ok h
  execOpen hw := by
    refine (hl.execOpen hw).bind fun r hr₁ => ?_
    dsimp only
    split
    · exact ensures_ok hr₁
    refine (hr.execOpen hr₁).bind fun r hr₂ => ?_
    split
    · exact ensures_ok hr₂
    refine (hl.getNext hr₂).bind fun r hr₃ => ?_
    split <;> exact ensures_ok hr₃
  getNext {j w row} hw := by
    refine ensures_loop (I := fun jw => I jw.2) ?_ hw fuel
    rintro ⟨j, w⟩ hw
    simp only [step]
    split
    · exact ensures_ok hw
    refine (hr.getNext hw).bind fun r hr₁ => ?_
    split
    · refine .of_bind fun b => ?_
      split <;> exact ensures_ok hr₁
    split
    · refine (hl.getNext hr₁).bind fun r hr₂ => ?_
      split
      · exact ensures_ok hr₂
      refine (hr.execOpen hr₂).bind fun r hr₃ => ?_
      split <;> exact ensures_ok hr₃
    · exact ensures_ok hr₁
  close hw := (hl.close hw).bind fun _ hr₁ => (hr.close hr₁).bind fun _ h => ensures_ok h

theorem Select.keeps (hl : left.Keeps I) (predicate : BooleanExpr) (fuel : Nat) :
    (executor left predicate fuel).Keeps I where
  prepare := hl.prepare
  execOpen := hl.execOpen
  getNext {x w row} hw := by
    refine ensures_loop (I := fun lw => I lw.2.1) ?_ hw fuel
    rintro ⟨l, w, row⟩ hw
    refine (hl.getNext hw).bind fun r hr₁ => ?_
    dsimp only
    split
    · exact ensures_ok hr₁
    refine .of_bind fun b => ?_
    split <;> exact ensures_ok hr₁
  close := hl.close

theorem Project.keeps (hl : left.Keeps I) (projectAttr : List ValueExpr) : (executor left projectAttr).Keeps I where
  prepare hw := (hl.prepare hw).bind fun _ h => ensures_ok h
  execOpen hw := (hl.execOpen hw).bind fun _ h => ensures_ok h
  getNext hw := by
    refine (hl.getNext hw).bind fun r hr₁ => ?_
    dsimp only
    split
    · exact ensures_ok hr₁
    · exact .of_bind fun _ => .of_bind fun _ => ensures_ok hr₁
  close hw := (hl.close hw).bind fun _ h => ensures_ok h

end

structure LevelStore.Unmoved (I : LevelStore → Prop) : Prop where
  seekToFirst : ∀ {s}, I s → ∀ h, Ensures (s.seekToFirst h) I
  iterNext : ∀ {s}, I s → ∀ h, Ensures (s.iterNext h) I

theorem SeqScan.keeps {I : LevelStore → Prop} (hI : LevelStore.Unmoved I) (scan : SeqScan) : scan.executor.Keeps I where
  prepare hs := ensures_ok hs
  execOpen hs := by
    refine Ensures.bind (Q := fun r => I r.2) ?_ fun _ h => ensures_ok h
    exact (hI.seekToFirst hs _).bind fun _ h => ensures_ok h
  getNext hs := by
    refine Ensures.bind (Q := fun r => I r.2.2) (.of_bind fun b => ?_) fun _ h => ensures_ok h
    split
    · exact .of_bind fun _ => .of_bind fun _ => (hI.iterNext hs _).bind fun _ h => ensures_ok h
    · exact ensures_ok hs
  close hs := ensures_ok hs

theorem Plan.keeps {I : LevelStore → Prop} (hI : LevelStore.Unmoved I) (fuel : Nat) (plan : Plan) :
    (plan.executor fuel).Keeps I := by
  induction plan with
  | seqScan scan => exact scan.keeps hI
  | nestedLoopJoin tupleCount left right predicate ihl ihr => exact NestedLoopJoin.keeps ihl ihr predicate fuel
  | select left predicate ih => exact Select.keeps ih predicate fuel
  | project left projectAttr tupleCount ih => exact Project.keeps ih projectAttr

end Dbms18
