import Dbms18.Executor.Keeps
import Dbms18.Realizer.Agreement
import Dbms18.Realizer.Execute
import Dbms18.Storage.Handles

/-!
# What a query holds

`Check` and `Build` send nothing, and every iterator they obtain is in `all_iter_`. The executors keep
the reference counts, so the destructor can release the iterators.
-/

namespace Dbms18

open Res

variable {S : Type}

theorem LevelStore.Counted.perm {s : LevelStore} {held held' : List (S × Nat)} (hs : s.Counted held)
    (h : held.Perm held') : s.Counted held' where
  toWf := hs.toWf
  reference_eq hh := by
    rw [hs.reference_eq hh, (h.map Prod.snd).count_eq]
  held_live hp := hs.held_live (h.mem_iff.2 hp)

variable {held : List (S × Nat)}

theorem LevelStore.Counted.ensures_newHandler {s : LevelStore} (hs : s.Counted held)
    (kind : HandlerKind) (relid : RelationId) (x : S) :
    Res.Ensures (s.newHandler kind relid) fun r => r.2.Counted ((x, r.1) :: held) := by
  intro r hr
  rcases hs.newHandler kind relid x with ⟨-, h, s', hnew, hs', -⟩ | ⟨-, hnew⟩
  · obtain rfl := Except.ok.inj (hnew.symm.trans hr)
    exact hs'
  · cases hnew.symm.trans hr

theorem LevelStore.counted_unmoved (held : List (S × Nat)) : Unmoved fun s => s.Counted held := by
  have hmove : ∀ {s : LevelStore}, s.Counted held → ∀ h (move : Cursor → Cursor),
      Res.Ensures (s.iter h >>= fun c => s.setIter h (move c)) fun s => s.Counted held := by
    intro s hs h move s' hmoved
    obtain ⟨c, hiter, hset⟩ := bind_eq_ok.1 hmoved
    obtain ⟨⟨relid, reference, impl⟩, hh, hiter⟩ := bind_eq_ok.1 hiter
    rw [getD_eq_ok] at hh
    rw [setIter, hh] at hset
    obtain rfl := Except.ok.inj hset
    cases impl with
    | write batch => cases hiter
    | iterator c' => exact hs.setHandler hh rfl rfl rfl
  exact ⟨fun hs h => hmove hs h Cursor.seekToFirst, fun hs h => hmove hs h Cursor.next⟩

variable {s s' : LevelStore}

theorem LevelStore.Counted.setWriter {h : Nat}
    {w w' : WriteHandlerImpl} (hs : s.Counted held) (hw : s.writer h = .ok w) (hset : s.setWriter h w' = .ok s') :
    s'.Counted held := by
  obtain ⟨⟨relid, reference, impl⟩, hh, hw⟩ := bind_eq_ok.1 hw
  rw [getD_eq_ok] at hh
  rw [LevelStore.setWriter, hh] at hset
  obtain rfl := Except.ok.inj hset
  cases impl with
  | iterator c => cases hw
  | write batch =>
    have hset : (s.setHandler h ⟨relid, reference, .write w'.batch⟩).Counted held := hs.setHandler hh rfl rfl rfl
    exact ⟨hset.toWf.setDatabases _, hset.reference_eq, hset.held_live⟩

theorem LevelStore.Counted.put {h : Nat} {key value : Bytes}
    (hs : s.Counted held) (hput : s.put h key value = .ok s') : s'.Counted held := by
  obtain ⟨w, hw, hset⟩ := bind_eq_ok.1 hput
  exact hs.setWriter hw hset

theorem LevelStore.Counted.commit {h : Nat} {status : WriteStatus}
    {ok : Bool} (hs : s.Counted held) (hcommit : s.commit h status = .ok (ok, s')) : s'.Counted held := by
  obtain ⟨w, hw, hcommit⟩ := bind_eq_ok.1 hcommit
  obtain ⟨s₁, hset, heq⟩ := bind_eq_ok.1 hcommit
  obtain ⟨-, rfl⟩ := Prod.mk.inj (Except.ok.inj heq)
  exact hs.setWriter hw hset

namespace QueryRealizer

/-- The store counts the handlers of the query, and those that others hold. -/
def Holds (q : QueryRealizer) (others : List (Unit × Nat)) : Prop :=
  q.storage.Counted (q.allIter.map (Prod.mk ()) ++ others)

structure Quiet (q q' : QueryRealizer) : Prop where
  sent : q'.sent = q.sent
  holds : ∀ others, q.Holds others → q'.Holds others

variable {q q' : QueryRealizer}

theorem Quiet.of_eq (hsent : q'.sent = q.sent) (hstorage : q'.storage = q.storage)
    (hiter : q'.allIter = q.allIter) : Quiet q q' where
  sent := hsent
  holds others h := by
    rw [Holds, hstorage, hiter]
    exact h

theorem Quiet.refl (q : QueryRealizer) : Quiet q q := .of_eq rfl rfl rfl

theorem Quiet.trans {q q₁ q₂ : QueryRealizer} (h₁ : Quiet q q₁) (h₂ : Quiet q₁ q₂) : Quiet q q₂ :=
  ⟨h₂.sent.trans h₁.sent, fun others h => h₂.holds others (h₁.holds others h)⟩

/-- Whatever state it returns, `f` is quiet. -/
def Silent (f : QueryRealizer → Res (State × QueryRealizer)) : Prop :=
  ∀ ⦃q state q'⦄, f q = .ok (state, q') → Quiet q q'

theorem Silent.andThen {f g : QueryRealizer → Res (State × QueryRealizer)} (hf : Silent f) (hg : Silent g) :
    Silent fun q => andThen (f q) g := by
  intro q state q' h
  obtain ⟨⟨state₁, q₁⟩, hx, h⟩ := bind_eq_ok.1 h
  dsimp only at h
  split at h
  · obtain ⟨-, rfl⟩ := Prod.mk.inj (Except.ok.inj h)
    exact hf hx
  · exact (hf hx).trans (hg h)

theorem Silent.checkAll {α : Type} {f : α → QueryRealizer → Res (State × QueryRealizer)} (hf : ∀ a, Silent (f a))
    (as : List α) : Silent (checkAll f as) := by
  induction as with
  | nil =>
    intro q state q' h
    obtain ⟨-, rfl⟩ := Prod.mk.inj (Except.ok.inj h)
    exact .refl _
  | cons a as ih => exact (hf a).andThen ih

theorem quiet_insertSlot (q : QueryRealizer) (ref : ColumnReference) (slot : SlotReference) :
    Quiet q (q.insertSlot ref slot) := by
  rw [insertSlot]
  split <;> exact .of_eq rfl rfl rfl

theorem silent_checkColumnReference (ref : ColumnReference) (type : ClauseType) :
    Silent fun q => q.checkColumnReference ref type := by
  have hbind : ∀ name rel i, Silent fun q => q.bindColumn ref type name rel i := by
    intro name rel i q state q' h
    simp only [bindColumn, bind_eq_ok] at h
    obtain ⟨_, -, _, -, _, -, heq⟩ := h
    obtain ⟨-, rfl⟩ := Prod.mk.inj (Except.ok.inj heq)
    exact quiet_insertSlot ..
  intro q state q' h
  simp only [checkColumnReference] at h
  (repeat' split at h) <;> first
    | exact hbind _ _ _ h
    | (obtain ⟨-, rfl⟩ := Prod.mk.inj (Except.ok.inj h); exact .of_eq rfl rfl rfl)

theorem silent_checkExpressionBase (type : ClauseType) (e : ExpressionBase) : Silent (checkExpressionBase type e) := by
  induction e with
  | null => exact nofun
  | columnReference ref => exact silent_checkColumnReference ref type
  | constValue value =>
    intro q state q' h
    obtain ⟨-, rfl⟩ := Prod.mk.inj (Except.ok.inj h)
    exact .refl _
  | operation op left right ihl ihr =>
    intro q state q' h
    obtain ⟨_, -, h⟩ := bind_eq_ok.1 h
    exact ihl.andThen ihr h

theorem silent_checkTableFactor (factor : TableFactor) : Silent (checkTableFactor factor) := by
  induction factor with
  | tableReference ref =>
    intro q state q' h
    simp only [checkTableFactor] at h
    split at h <;> (obtain ⟨-, rfl⟩ := Prod.mk.inj (Except.ok.inj h); exact .of_eq rfl rfl rfl)
  | joinClause left right predicate type ihl ihr =>
    exact ihl.andThen (ihr.andThen (silent_checkExpressionBase .joinOn predicate))
  | subQuery =>
    intro q state q' h
    obtain ⟨-, rfl⟩ := Prod.mk.inj (Except.ok.inj h)
    exact .refl _

theorem silent_check (stmt : SelectStmt) : Silent (check stmt) := by
  have hall : ∀ type es, Silent (checkAll (checkExpressionBase type) es) := fun type es =>
    .checkAll (silent_checkExpressionBase type) es
  exact (Silent.checkAll silent_checkTableFactor _).andThen
    ((hall _ _).andThen ((hall _ _).andThen ((hall _ _).andThen (hall _ _))))

variable {q : QueryRealizer} {others : List (Unit × Nat)}

theorem holds_push {s : LevelStore} {h : Nat} (hs : s.Counted (((), h) :: (q.allIter.map (Prod.mk ()) ++ others))) :
    s.Counted ((q.allIter ++ [h]).map (Prod.mk ()) ++ others) := by
  refine hs.perm ?_
  rw [List.map_append, List.append_assoc]
  exact List.perm_middle.symm

theorem quiet_buildTableScan {ref : TableReference} {plan : Plan} (h : q.buildTableScan ref = .ok (plan, q')) : Quiet q q' := by
  obtain ⟨rel, relation, iter, storage, -, hiter, -, -, rfl⟩ := buildTableScan_eq_ok h
  exact ⟨rfl, fun others hq => holds_push (LevelStore.Counted.ensures_newHandler hq .iterator rel.id () _ hiter)⟩

theorem quiet_buildJoin {factor : TableFactor} {plan : Plan} (h : buildJoin factor q = .ok (plan, q')) : Quiet q q' := by
  induction factor generalizing q q' plan with
  | tableReference ref =>
    exact quiet_buildTableScan h
  | joinClause left right predicate type ihl ihr =>
    obtain ⟨_, q₁, _, _, hl, hr, -, -⟩ := buildJoin_joinClause_eq_ok h
    exact (ihl hl).trans (ihr hr)
  | subQuery => cases h

theorem quiet_projectTargets {targets : List ExpressionBase} {ok : Bool}
    (h : projectTargets targets q = .ok (ok, q')) : Quiet q q' := by
  fun_induction projectTargets targets q with
  | case1 | case3 =>
    obtain ⟨-, rfl⟩ := Prod.mk.inj (Except.ok.inj h)
    exact .of_eq rfl rfl rfl
  | case2 => cases h
  | case4 ref targets q slot hslot ih =>
    simp only [bind_eq_ok] at h
    obtain ⟨rowDesc, -, desc, -, h⟩ := h
    have hpush : Quiet q (q.pushColumn slot desc) := .of_eq rfl rfl rfl
    exact hpush.trans (ih desc h)
  | case5 _ _ _ _ _ ih => exact Quiet.trans (.of_eq rfl rfl rfl) (ih h)

theorem quiet_projectStar (h : q.projectStar = .ok q') : Quiet q q' := by
  refine foldlM_keeps (P := Quiet q) ?_ (.refl q) h
  intro q₁ ⟨name, relation⟩ _ q₂ hq₁ h₂
  refine foldlM_keeps (P := Quiet q) ?_ hq₁ h₂
  intro q₃ a _ q₄ hq₃ h₄
  simp only [projectAttribute, bind_eq_ok] at h₄
  obtain ⟨_, -, _, -, heq⟩ := h₄
  obtain rfl := Except.ok.inj heq
  exact hq₃.trans (.of_eq rfl rfl rfl)

theorem quiet_buildFrom {factors : List TableFactor} {join : Option Plan}
    (h : buildFrom factors q = .ok (join, q')) : Quiet q q' := by
  cases factors with
  | nil =>
    obtain ⟨-, rfl⟩ := Prod.mk.inj (Except.ok.inj h)
    exact .of_eq rfl rfl rfl
  | cons factor factors =>
    obtain ⟨⟨plan, q₁⟩, hjoin, heq⟩ := bind_eq_ok.1 h
    obtain ⟨-, rfl⟩ := Prod.mk.inj (Except.ok.inj heq)
    exact quiet_buildJoin hjoin

theorem quiet_buildProjection {selectList : List ExpressionBase} {top : Plan} {plan : Option Plan}
    (h : q.buildProjection selectList top = .ok (plan, q')) : Quiet q q' := by
  obtain ⟨⟨ok, q₁⟩, htargets, h⟩ := bind_eq_ok.1 h
  have hquiet := quiet_projectTargets htargets
  cases ok with
  | false =>
    obtain ⟨-, rfl⟩ := Prod.mk.inj (Except.ok.inj h)
    exact hquiet
  | true =>
    obtain ⟨q₂, hstar, heq⟩ := bind_eq_ok.1 h
    obtain ⟨-, rfl⟩ := Prod.mk.inj (Except.ok.inj heq)
    split at hstar
    · exact hquiet.trans (quiet_projectStar hstar)
    · obtain rfl := Except.ok.inj hstar
      exact hquiet

theorem silent_build (stmt : SelectStmt) : Silent (build stmt) := by
  intro q state q' h
  obtain ⟨⟨join, q₁⟩, hfrom, h⟩ := bind_eq_ok.1 h
  have hquiet := quiet_buildFrom hfrom
  cases join with
  | none =>
    obtain ⟨-, rfl⟩ := Prod.mk.inj (Except.ok.inj h)
    exact hquiet
  | some join =>
    obtain ⟨top, -, h⟩ := bind_eq_ok.1 h
    cases top with
    | none =>
      obtain ⟨-, rfl⟩ := Prod.mk.inj (Except.ok.inj h)
      exact hquiet.trans (.of_eq rfl rfl rfl)
    | some top =>
      obtain ⟨⟨plan, q₂⟩, hproj, heq⟩ := bind_eq_ok.1 h
      obtain ⟨-, rfl⟩ := Prod.mk.inj (Except.ok.inj heq)
      exact hquiet.trans ((quiet_buildProjection hproj).trans (.of_eq rfl rfl rfl))

theorem holds_execSelect {fuel fuel' : Nat} (hq : q.Holds others) :
    Res.Ensures (q.execSelect (Plan.executor fuel') fuel) fun r => r.2.Holds others := by
  refine .of_bind fun plan => ?_
  have hkeeps := plan.keeps (LevelStore.counted_unmoved (q.allIter.map (Prod.mk ()) ++ others)) fuel'
  refine (hkeeps.prepare hq).bind fun r hr₁ => ?_
  dsimp only
  split
  · exact ensures_ok hr₁
  refine (hkeeps.execOpen hr₁).bind fun r hr₂ => ?_
  split
  · exact ensures_ok hr₂
  have hstep : ∀ l : SelectLoop LevelStore plan.Members, l.world.Counted (q.allIter.map (Prod.mk ()) ++ others) →
      Res.Ensures (SelectLoop.step (plan.executor fuel') q.outputRowDesc l)
        (Sum.elim (fun l => l.world.Counted (q.allIter.map (Prod.mk ()) ++ others))
          fun sl => sl.2.world.Counted (q.allIter.map (Prod.mk ()) ++ others)) := by
    intro l hl
    refine (hkeeps.getNext hl).bind fun r hr₃ => ?_
    dsimp only
    split
    · exact ensures_ok hr₃
    · exact .of_bind fun bytes => ensures_ok hr₃
  refine (ensures_loop hstep hr₂ fuel).bind fun sl hsl => ?_
  refine (hkeeps.close hsl).bind fun r hr₃ => ?_
  split <;> exact ensures_ok hr₃

theorem exists_destroy (hq : q.Holds others) :
    ∃ s, q.destroy = .ok s ∧ s.Counted others := by
  have hfold : ∀ (hs : List Nat) (s : LevelStore), s.Counted (hs.map (Prod.mk ()) ++ others) →
      ∃ s', hs.foldlM LevelStore.deleteIOObject s = .ok s' ∧ s'.Counted others := by
    intro hs
    induction hs with
    | nil => exact fun s h => ⟨s, rfl, h⟩
    | cons h hs ih =>
      intro s hcounted
      obtain ⟨s₁, hdelete, hs₁⟩ := hcounted.deleteIOObject (x := ()) (h := h) (by simp)
      obtain ⟨s', hrest, hs'⟩ := ih s₁ (by simpa using hs₁)
      exact ⟨s', by rw [List.foldlM_cons, hdelete]; exact hrest, hs'⟩
  exact hfold q.allIter q.storage hq

end QueryRealizer

end Dbms18
