import Dbms18.Realizer.Outcome

/-!
# Is what `Check` accepts safe to build?

`Sound` says that `Check` uses no null pointer and that, if it accepts a SELECT, `Build` comes back,
with a plan that stays within its rows if it is successful. `sound_iff` gives the statements for which
that is so. `Check` looks at all items of the FROM clause while `Build` scans only those of the first
one, and `Check` counts the names of the tables while `Build` counts the scans.
-/

namespace Dbms18

open List

/-- The plan reads only columns that its tables have, and writes only tuples that its rows have. The
caller of a plan gives it rows of width 1. -/
structure Plan.Safe (plan : Plan) (descs : List RowDesc) : Prop where
  slots : ∀ slot ∈ plan.slots, slot.tupleIndex < plan.tupleCount ∧ slot.Held descs
  scans : plan.Fits 1

theorem Plan.safe_project_iff {top : Plan} {attrs : List ValueExpr} {n : Nat} {descs : List RowDesc}
    (hlt : ∀ slot ∈ top.slots ++ attrs.flatMap ValueExpr.slots, slot.tupleIndex < n) :
    (Plan.project top attrs n).Safe descs ↔
      top.Fits n ∧ ∀ slot ∈ top.slots ++ attrs.flatMap ValueExpr.slots, slot.Held descs := by
  constructor
  · rintro ⟨hslots, hfits⟩
    exact ⟨hfits, fun slot hslot => (hslots slot hslot).2⟩
  · rintro ⟨hfits, hheld⟩
    exact ⟨fun slot hslot => ⟨hlt slot hslot, hheld slot hslot⟩, hfits⟩

def SelectStmt.projected (stmt : SelectStmt) (tables : Scope) : List SlotReference :=
  tables.slotsOf (stmt.selectList.flatMap ExpressionBase.columns) ++ if stmt.selectList = [] then tables.starSlots else []

namespace QueryRealizer

variable {q : QueryRealizer} {tables : Scope} {catalog : Catalog} {storage : LevelStore} {stmt : SelectStmt}

def Sound (catalog : Catalog) (storage : LevelStore) (stmt : SelectStmt) : Prop :=
  check stmt (new catalog storage) ≠ .error .nullPointer ∧
    ∀ q, check stmt (new catalog storage) = .ok (.ok, q) → ∃ state q', build stmt q = .ok (state, q') ∧
      (state = .ok → ∃ plan, q'.topExec = some plan ∧ plan.Safe q'.allTupleDesc)

/-- A SELECT whose first FROM item is `factor`, with the tables as `Check` has registered them: the item
can be built, the operands of every comparison in WHERE have one type, and if WHERE can be built too,
there are no more scans than names and every column read is one of the table scanned at its index. -/
structure Plannable (catalog : Catalog) (storage : LevelStore) (stmt : SelectStmt) (tables : Scope)
    (factor : TableFactor) : Prop where
  buildable : factor.Buildable catalog (storage.Openable .iterator) tables
  matched : ∀ e ∈ stmt.optWhere, e.Matched tables.typeOf
  safe : (∀ e ∈ stmt.optWhere, e.WellTyped tables.typeOf) → factor.references.length ≤ tables.length ∧
    ∀ slot ∈ tables.slotsOf factor.columns ++ (tables.slotsOf (stmt.optWhere.flatMap ExpressionBase.columns) ++
      stmt.projected tables), slot.Held ((factor.scanned catalog).map Relation.toDesc)

/-- `Check` comes to no missing node, or stops before it; and what it accepts is plannable. -/
def Handled (catalog : Catalog) (storage : LevelStore) (stmt : SelectStmt) : Prop :=
  ¬ Scope.MeetsNull catalog [] stmt.visits ∧ (Scope.AllFound catalog [] stmt.visits →
    ∀ factor rest, stmt.tableReference = factor :: rest →
      Plannable catalog storage stmt (Scope.visitAll catalog [] stmt.visits) factor)

/-! ## The projection -/

theorem lt_of_mem_slotsOf {refs : List ColumnReference} {slot : SlotReference} (h : slot ∈ tables.slotsOf refs) :
    slot.tupleIndex < tables.length := by
  obtain ⟨ref, -, hslot⟩ := mem_filterMap.1 h
  obtain ⟨name, rel, a, hmeans⟩ := Scope.means_of_resolve hslot
  exact (List.getElem?_eq_some_iff.1 hmeans.table).1

theorem lt_of_mem_projected {slot : SlotReference} (h : slot ∈ stmt.projected tables) : slot.tupleIndex < tables.length := by
  rcases mem_append.1 h with h | h
  · exact lt_of_mem_slotsOf h
  · split at h
    · obtain ⟨⟨t, i⟩, ht, h⟩ := mem_flatMap.1 h
      obtain ⟨a, -, rfl⟩ := mem_map.1 h
      exact (List.getElem?_eq_some_iff.1 (mem_zipIdx_iff_getElem?.1 ht)).1
    · cases h

theorem pushed_projection (hq : q.Scoped tables) (hes : ∀ e ∈ stmt.selectList, e.IsExpr)
    (hbound : ∀ ref ∈ stmt.selectList.flatMap ExpressionBase.columns, ∃ slot, q.name2slot ref = some slot) (top : Plan) :
    ∃ slots x, (∀ slot, slot ∈ slots ↔ slot ∈ stmt.projected tables) ∧ Pushed q slots x ∧
      q.buildProjection stmt.selectList top =
        (fun q' => (some (.project top q'.projectionList q'.name2relation.size), q')) <$> x := by
  by_cases hempty : stmt.selectList = []
  · refine ⟨q.starColumns, q.projectStar, fun slot => ?_, pushed_star q, ?_⟩
    · simp [SelectStmt.projected, hempty, Scope.slotsOf, mem_starSlots hq]
    · simp only [buildProjection, hempty, projectTargets, Res.ok_bind]
      rfl
  · obtain ⟨hpushed, hok⟩ := pushed_targets hq hes hbound
    refine ⟨_, _, fun slot => ?_, hpushed, ?_⟩
    · simp [SelectStmt.projected, hempty]
    · unfold buildProjection
      cases htargets : projectTargets stmt.selectList q with
      | error f => rfl
      | ok r =>
        have htrue := hok r htargets
        obtain ⟨ok, q'⟩ := r
        obtain rfl : ok = true := htrue
        simp [hempty]

def finish (selectList : List ExpressionBase) (top : Plan) (q : QueryRealizer) : Res (State × QueryRealizer) := do
  let (top, q) ← q.buildProjection selectList top
  return (if top.isSome then .ok else .buildError, { q with topExec := top })

theorem finish_iff (hq : q.Scoped tables) (hlist : q.projectionList = []) (hes : ∀ e ∈ stmt.selectList, e.IsExpr)
    (hbound : ∀ ref ∈ stmt.selectList.flatMap ExpressionBase.columns, ∃ slot, q.name2slot ref = some slot) {top : Plan}
    (htop : ∀ slot ∈ top.slots, slot.tupleIndex < tables.length) :
    (∃ state q', finish stmt.selectList top q = .ok (state, q') ∧
      (state = .ok → ∃ plan, q'.topExec = some plan ∧ plan.Safe q'.allTupleDesc)) ↔
      top.Fits tables.length ∧ ∀ slot ∈ top.slots ++ stmt.projected tables, slot.Held q.allTupleDesc := by
  obtain ⟨slots, x, hslots, hpushed, hproj⟩ := pushed_projection hq hes hbound top
  rw [finish, hproj]
  cases hpushed with
  | fault hheld =>
    refine iff_of_false ?_ ?_
    · rintro ⟨state, q', h, -⟩
      cases h
    · rintro ⟨-, h⟩
      exact hheld fun slot hslot => h slot (mem_append_right _ ((hslots slot).1 hslot))
  | @pushed q' hheld hprojects hlist' =>
    have hdescs : q'.allTupleDesc = q.allTupleDesc := by rw [hprojects]
    have hsize : q'.name2relation.size = tables.length := (hq.projects hprojects).relationSize
    rw [hlist, nil_append] at hlist'
    have hflat : q'.projectionList.flatMap ValueExpr.slots = slots := by
      rw [hlist', flatMap_map]
      exact flatMap_singleton' slots
    have hread : ∀ slot, slot ∈ top.slots ++ q'.projectionList.flatMap ValueExpr.slots ↔
        slot ∈ top.slots ++ stmt.projected tables := by
      intro slot
      rw [hflat, mem_append, mem_append, hslots]
    have hlt : ∀ slot ∈ top.slots ++ q'.projectionList.flatMap ValueExpr.slots, slot.tupleIndex < tables.length := by
      intro slot hslot
      rcases mem_append.1 ((hread slot).1 hslot) with h | h
      · exact htop slot h
      · exact lt_of_mem_projected h
    have hsafe : (Plan.project top q'.projectionList tables.length).Safe q.allTupleDesc ↔ _ := Plan.safe_project_iff hlt
    simp only [hread] at hsafe
    rw [← hsafe, ← hdescs, ← hsize]
    constructor
    · rintro ⟨state, q₂, h, hok⟩
      obtain ⟨rfl, rfl⟩ := Prod.mk.inj (Except.ok.inj h)
      obtain ⟨plan, hplan, hplanSafe⟩ := hok rfl
      obtain rfl := Option.some.inj hplan
      exact hplanSafe
    · intro h
      exact ⟨.ok, _, rfl, fun _ => ⟨_, rfl, h⟩⟩

/-! ## All of `Build` -/

theorem build_eq {factor : TableFactor} {rest : List TableFactor} (hfrom : stmt.tableReference = factor :: rest) :
    build stmt q = buildJoin factor q >>= fun r => buildWhere stmt.optWhere r.1 r.2 >>= fun top =>
      match top with
      | none => .ok (.buildError, { r.2 with topExec := none })
      | some top => finish stmt.selectList top r.2 := by
  rw [build, hfrom, buildFrom, bind_assoc]
  rfl

theorem build_iff {factor : TableFactor} {rest : List TableFactor} (hstmt : stmt.Parsed) (hs : storage.Wf)
    (hfrom : stmt.tableReference = factor :: rest) (hfound : Scope.AllFound catalog [] stmt.visits)
    (hchecked : Checked (new catalog storage) q (Scope.visitAll catalog [] stmt.visits) (columnsOf stmt.visits)) :
    (∃ state q', build stmt q = .ok (state, q') ∧
      (state = .ok → ∃ plan, q'.topExec = some plan ∧ plan.Safe q'.allTupleDesc)) ↔
      Plannable catalog storage stmt (Scope.visitAll catalog [] stmt.visits) factor := by
  have hjoin := joinBuilt_of_checked hstmt hs (hfrom ▸ mem_cons_self) hfound hchecked
  generalize Scope.visitAll catalog [] stmt.visits = tables at hchecked hjoin ⊢
  obtain ⟨rfl, rfl, hdesc, hlist, -⟩ := hchecked.unbuilt
  have hbound : ∀ ref, .column ref ∈ stmt.visits → ∃ slot, q.name2slot ref = some slot :=
    fun ref href => hchecked.bound ref (mem_columnsOf.2 href)
  rw [build_eq hfrom]
  generalize buildJoin factor q = x at hjoin
  cases hjoin with
  | fault hnot =>
    refine iff_of_false ?_ fun h => hnot h.buildable
    rintro ⟨state, q', h, -⟩
    cases h
  | @built join q₁ hbuildable hgrows hwf hopens hdescs hslots hfits =>
    have hq₁ := hchecked.scope.grows hgrows
    have hlist₁ : q₁.projectionList = [] := by rw [hgrows]; exact hlist
    have hname2slot : q₁.name2slot = q.name2slot := by rw [hgrows]
    rw [hdesc, nil_append] at hdescs
    rw [hdesc, length_nil, Nat.zero_add] at hfits
    have hselect : ∀ ref ∈ stmt.selectList.flatMap ExpressionBase.columns, ∃ slot, q₁.name2slot ref = some slot := by
      intro ref href
      obtain ⟨e, he, href⟩ := mem_flatMap.1 href
      rw [hname2slot]
      exact hbound ref (SelectStmt.visits_select_subset he (ExpressionBase.column_mem_visits.2 href))
    -- with WHERE built, the projection decides
    have hfinish : ∀ top : Plan, (∀ e ∈ stmt.optWhere, e.WellTyped tables.typeOf) →
        top.slots = tables.slotsOf factor.columns ++ tables.slotsOf (stmt.optWhere.flatMap ExpressionBase.columns) →
        (top.Fits tables.length ↔ join.Fits tables.length) →
        ((∃ state q', finish stmt.selectList top q₁ = .ok (state, q') ∧
          (state = .ok → ∃ plan, q'.topExec = some plan ∧ plan.Safe q'.allTupleDesc)) ↔
          Plannable q.catalog q.storage stmt tables factor) := by
      intro top htyped htop hfits'
      have hlt : ∀ slot ∈ top.slots, slot.tupleIndex < tables.length := by
        intro slot hslot
        rw [htop, ← Scope.slotsOf_append] at hslot
        exact lt_of_mem_slotsOf hslot
      rw [finish_iff hq₁ hlist₁ hstmt.selectList hselect hlt, hfits', hfits, htop, hdescs, append_assoc]
      exact ⟨fun h => ⟨hbuildable, fun e he => (htyped e he).matched, fun _ => h⟩, fun h => h.safe htyped⟩
    simp only [Res.ok_bind]
    rcases hstmt.optWhere with hwhere | ⟨e, hwhere, he⟩
    · simp only [hwhere, buildWhere, Res.ok_bind]
      exact hfinish join (by simp [hwhere]) (by simp [hslots, hwhere, Scope.slotsOf]) Iff.rfl
    · have hsubWhere : e.visits ⊆ stmt.visits := SelectStmt.visits_where_subset (by simp [hwhere])
      have hboolean := booleanBuilt hq₁ he (fun hnull => hfound.null_not_mem (hsubWhere hnull))
        fun ref href => hname2slot ▸ hbound ref (hsubWhere (ExpressionBase.column_mem_visits.2 href))
      simp only [hwhere, buildWhere, buildSelect]
      generalize q₁.buildBooleanExpression e = y at hboolean
      cases hboolean with
      | fault hnot =>
        refine iff_of_false ?_ fun h => hnot (h.matched e (by simp [hwhere]))
        rintro ⟨state, q', h, -⟩
        cases h
      | missing hmatched hnot =>
        refine iff_of_true ⟨.buildError, _, rfl, by rintro ⟨⟩⟩ ⟨hbuildable, ?_, fun h => ?_⟩
        · simpa [hwhere] using hmatched
        · exact absurd (h e (by simp [hwhere])) hnot
      | @built b htyped hbslots =>
        refine hfinish (.select join b) (by simpa [hwhere] using htyped) ?_ Iff.rfl
        simp [Plan.slots, hslots, hbslots, hwhere]

/-- `Check` is sound for `Build` on a SELECT exactly when it comes to no missing node, or stops before
it, and what it accepts is plannable. -/
theorem sound_iff (hstmt : stmt.Parsed) (hs : storage.Wf) : Sound catalog storage stmt ↔ Handled catalog storage stmt := by
  have hwalked : Walked catalog _ _ _ _ := walked_check hstmt storage
  unfold Sound Handled
  generalize check stmt (new catalog storage) = x at hwalked
  cases hwalked with
  | null hnull => exact iff_of_false (fun h => h.1 rfl) fun h => h.1 hnull
  | rejected hstate hfound hnull =>
    refine iff_of_true ⟨nofun, fun q h => ?_⟩ ⟨hnull, fun h => absurd h hfound⟩
    exact absurd (Prod.mk.inj (Except.ok.inj h)).1 hstate
  | @accepted q hfound hchecked =>
    obtain ⟨factor, rest, hfrom⟩ := exists_cons_of_ne_nil hstmt.tableReference_ne_nil
    have hiff := build_iff hstmt hs hfrom hfound hchecked
    constructor
    · rintro ⟨-, hbuild⟩
      refine ⟨hfound.not_meetsNull, fun _ factor' rest' hfrom' => ?_⟩
      obtain ⟨rfl, -⟩ := List.cons.inj (hfrom.symm.trans hfrom')
      exact hiff.1 (hbuild q rfl)
    · rintro ⟨-, hplannable⟩
      refine ⟨nofun, fun q' h => ?_⟩
      obtain rfl := (Prod.mk.inj (Except.ok.inj h)).2
      exact hiff.2 (hplannable hfound factor rest hfrom)

/-! ## Statements over two tables -/

theorem sound_selectTU : Sound catalogTU (.started fun _ => ∅) selectTU := by
  refine (sound_iff parsed_selectTU (LevelStore.wf_started _)).2 ⟨fun h => ?_, fun _ factor rest hfrom => ?_⟩
  · exact absurd h.null_mem (by decide)
  · obtain ⟨rfl, -⟩ := List.cons.inj hfrom
    have htables : Scope.visitAll catalogTU [] selectTU.visits = [(ascii "t", tableT), (ascii "u", tableU)] := by rfl
    rw [htables]
    refine ⟨⟨?_, ?_, .integer, rfl, rfl, rfl⟩, by simp [selectTU], fun _ => ⟨by decide, ?_⟩⟩
    · intro rel hrel
      obtain rfl := Option.some.inj hrel
      exact .inr ⟨rfl, by decide, by decide⟩
    · intro rel hrel
      obtain rfl := Option.some.inj hrel
      exact .inr ⟨rfl, by decide, by decide⟩
    · have hheld : ∀ (k : Nat) (slot : SlotReference), k < 2 → slot.tupleIndex = k → slot.slotIndex = 0 → slot.Held
          (((TableFactor.chain refT [(refU, equalAB)]).scanned catalogTU).map Relation.toDesc) := by
        intro k slot hk hi hj
        unfold SlotReference.Held
        rw [hi, hj]
        rcases k with _ | _ | k
        · exact ⟨_, rfl, by decide⟩
        · exact ⟨_, rfl, by decide⟩
        · omega
      have hslots : ∀ slot ∈ Scope.slotsOf [(ascii "t", tableT), (ascii "u", tableU)]
          (TableFactor.chain refT [(refU, equalAB)]).columns ++ (Scope.slotsOf [(ascii "t", tableT), (ascii "u", tableU)]
            (selectTU.optWhere.flatMap ExpressionBase.columns) ++
              selectTU.projected [(ascii "t", tableT), (ascii "u", tableU)]),
          slot.tupleIndex < 2 ∧ slot.slotIndex = 0 := by decide
      exact fun slot hslot => hheld _ slot (hslots slot hslot).1 rfl (hslots slot hslot).2

/-- `a` -/
def columnA : ExpressionBase := .columnReference ⟨0, [], ascii "a"⟩

/-- `SELECT * FROM t WHERE NOT a = 5` -/
def selectNot : SelectStmt :=
  ⟨[], [.tableReference refT], [.operation .not (.operation .equal columnA (.constValue (.integer 5))) .null], [], []⟩

/-- `SELECT * FROM t WHERE a = 'x'` -/
def selectMistyped : SelectStmt :=
  ⟨[], [.tableReference refT], [.operation .equal columnA (.constValue (.varchar (ascii "x")))], [], []⟩

/-- `SELECT b FROM t, u` -/
def selectComma : SelectStmt :=
  ⟨[.columnReference ⟨0, [], ascii "b"⟩], [.tableReference refT, .tableReference refU], [], [], []⟩

/-- `Check` uses a null pointer on the first statement; it accepts the other two, and `Build` fails an
assertion on each. -/
theorem not_sound_not :
    (selectNot.Parsed ∧ ¬ Sound catalogTU (.started fun _ => ∅) selectNot) ∧
    (selectMistyped.Parsed ∧ ¬ Sound catalogTU (.started fun _ => ∅) selectMistyped) ∧
    (selectComma.Parsed ∧ ¬ Sound catalogTU (.started fun _ => ∅) selectComma) := by
  have hasserts : ∀ {stmt : SelectStmt}, (∃ q, check stmt (new catalogTU (.started fun _ => ∅)) = .ok (.ok, q) ∧
      build stmt q = .error .assertion) → ¬ Sound catalogTU (.started fun _ => ∅) stmt := by
    rintro stmt ⟨q, hcheck, hbuild⟩ ⟨-, hsound⟩
    obtain ⟨state, q', hok, -⟩ := hsound q hcheck
    cases hbuild.symm.trans hok
  have hrefT : (TableFactor.tableReference refT).IsTableReference := .table (ascii "t") []
  have hrefU : (TableFactor.tableReference refU).IsTableReference := .table (ascii "u") []
  have hequal : ∀ value, (ExpressionBase.operation .equal columnA (.constValue value)).IsBooleanExpression :=
    fun value => .compare rfl (.column _) (.const value)
  refine ⟨⟨⟨nofun, nofun, ?_, .inr ⟨_, rfl, .not (hequal _)⟩, nofun, nofun⟩, fun h => h.1 rfl⟩,
    ⟨⟨nofun, nofun, ?_, .inr ⟨_, rfl, hequal _⟩, nofun, nofun⟩, hasserts ⟨_, rfl, rfl⟩⟩,
    ⟨⟨?_, nofun, ?_, .inl rfl, nofun, nofun⟩, hasserts ⟨_, rfl, rfl⟩⟩⟩
  · simpa [selectNot] using hrefT
  · simpa [selectMistyped] using hrefT
  · simpa [selectComma] using ExpressionBase.IsExpr.column _
  · simpa [selectComma] using ⟨hrefT, hrefU⟩

end QueryRealizer

end Dbms18
