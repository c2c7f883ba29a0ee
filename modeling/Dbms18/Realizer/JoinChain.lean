import Dbms18.Executor.JoinChain
import Dbms18.Lib.LexProduct
import Dbms18.Realizer.Agreement
import Dbms18.Realizer.Predicate
import Dbms18.Storage.Scans

/-!
# What a join of tables gives

`Scope.joined` is what a chain of joins means: the combinations of one row of each table that satisfy
all predicates, in the lexicographic order of the tables' scan orders. The plan that `BuildJoin` makes
of `t₁ JOIN t₂ ON p₁ JOIN …` gives exactly these.
-/

namespace Dbms18

open List

theorem ExpressionBase.value_congr {env env' : ColumnReference → Option Value} {e : ExpressionBase}
    (h : ∀ ref ∈ e.columns, env ref = env' ref) : e.value env = e.value env' := by
  cases e with
  | columnReference ref => exact h ref mem_cons_self
  | constValue value => cases value <;> rfl
  | null | operation => rfl

theorem ExpressionBase.holds_congr {env env' : ColumnReference → Option Value} {e : ExpressionBase}
    (h : ∀ ref ∈ e.columns, env ref = env' ref) : e.holds env = e.holds env' := by
  induction e with
  | null | columnReference | constValue => rfl
  | operation op left right ihl ihr =>
    have hl : ∀ ref ∈ left.columns, env ref = env' ref := fun ref href => h ref (mem_append_left _ href)
    have hr : ∀ ref ∈ right.columns, env ref = env' ref := fun ref href => h ref (mem_append_right _ href)
    simp only [holds, value_congr hl, value_congr hr, ihl hl, ihr hr]

def tuplesOf (c : List StoredRow) : List RawTuple := c.map StoredRow.tuple

namespace Scope

variable {tables : Scope} {stored : List (List StoredRow)} {predicates : List ExpressionBase} {p : ExpressionBase}
  {rows : List StoredRow} {c : List StoredRow}

def satisfies (tables : Scope) (c : List StoredRow) (p : ExpressionBase) : Bool :=
  p.holds (tables.env (c.map StoredRow.values))

/-- The combinations of one row of each table that satisfy the predicates. -/
def joined (tables : Scope) (predicates : List ExpressionBase) (stored : List (List StoredRow)) : List (List StoredRow) :=
  (lexProduct stored).filter fun c => predicates.all (tables.satisfies c)

/-- The predicate mentions only columns of the first `m` tables. -/
def Within (tables : Scope) (m : Nat) (p : ExpressionBase) : Prop :=
  ∀ ref ∈ p.columns, ∃ slot, tables.resolve ref = some slot ∧ slot.tupleIndex < m

theorem Within.mono {m m' : Nat} (h : tables.Within m p) (hle : m ≤ m') : tables.Within m' p := by
  intro ref href
  obtain ⟨slot, hslot, hlt⟩ := h ref href
  exact ⟨slot, hslot, hlt.trans_le hle⟩

theorem Within.satisfies_append {m : Nat} (h : tables.Within m p) (hlen : c.length = m) (c' : List StoredRow) :
    tables.satisfies (c ++ c') p = tables.satisfies c p := by
  refine ExpressionBase.holds_congr fun ref href => ?_
  obtain ⟨slot, hslot, hlt⟩ := h ref href
  have hlt' : slot.tupleIndex < (c.map StoredRow.values).length := by rwa [length_map, hlen]
  simp only [env, hslot, Option.bind_eq_bind, Option.bind_some, map_append, getElem?_append_left hlt']

theorem length_of_mem_lexProduct (hc : c ∈ lexProduct stored) : c.length = stored.length :=
  (mem_lexProduct.1 hc).length_eq

theorem joined_concat (hwithin : ∀ p ∈ predicates, tables.Within stored.length p) :
    tables.joined (predicates ++ [p]) (stored ++ [rows]) = (tables.joined predicates stored).flatMap fun c =>
      (rows.map fun r => c ++ [r]).filter fun c => tables.satisfies c p := by
  have hold : ∀ c ∈ lexProduct stored, ∀ r, predicates.all (tables.satisfies (c ++ [r])) =
      predicates.all (tables.satisfies c) := by
    intro c hc r
    rw [Bool.eq_iff_iff, all_eq_true, all_eq_true]
    refine forall₂_congr fun p hp => ?_
    rw [(hwithin p hp).satisfies_append (length_of_mem_lexProduct hc)]
  rw [joined, joined, lexProduct_concat, filter_flatMap]
  generalize lexProduct stored = cs at hold
  induction cs with
  | nil => rfl
  | cons c cs ih =>
    have hc := hold c mem_cons_self
    rw [flatMap_cons, ih fun c' hc' => hold c' (mem_cons_of_mem _ hc')]
    cases hall : predicates.all (tables.satisfies c) with
    | true => simp [hall, filter_map, Function.comp_def, hc]
    | false => simp [hall, filter_map, Function.comp_def, hc]

end Scope

/-- The records that a scan of the relation goes through are those of `rows`, which have the types of
its columns. -/
structure StoredAs (s : LevelStore) (rel : Relation) (rows : List StoredRow) : Prop where
  records : (s.scanRecords rel.id).map Prod.snd = rows.map StoredRow.record
  typed : ∀ r ∈ rows, r.values.Typed rel
  holds : ∀ r ∈ rows, r.tuple.Holds r.values

def TablesHold (s : LevelStore) : Scope → List (List StoredRow) → Prop := List.Forall₂ fun t => StoredAs s t.2

theorem TupleRow.getTuple_of_isPrefix {row : TupleRow} {ts : List RawTuple} {k : Nat} {t : RawTuple}
    (hrow : ts.map some <+: row) (hk : ts[k]? = some t) : row.getTuple k = .ok t := by
  obtain ⟨rest, rfl⟩ := hrow
  have hlt : k < (ts.map some).length := by simpa using (List.getElem?_eq_some_iff.1 hk).1
  simp [getTuple, getElem?_append_left hlt, hk]

theorem TablesHold.shows {s : LevelStore} {tables : Scope} {stored : List (List StoredRow)} (h : TablesHold s tables stored)
    {m : Nat} {rs : List StoredRow} (hc : rs ∈ lexProduct (stored.take m)) {row : TupleRow}
    (hrow : (tuplesOf rs).map some <+: row) : tables.Shows row (rs.map StoredRow.values) := by
  have hrows : ∀ {k : Nat} {values : Row}, (rs.map StoredRow.values)[k]? = some values → ∃ r rows t, rs[k]? = some r ∧
      values = r.values ∧ tables[k]? = some t ∧ r ∈ rows ∧ StoredAs s t.2 rows := by
    intro k values hk
    rw [getElem?_map, Option.map_eq_some_iff] at hk
    obtain ⟨r, hr, rfl⟩ := hk
    obtain ⟨rows, hrows, hmem⟩ := forall₂_getElem?_left (mem_lexProduct.1 hc) hr
    rw [getElem?_take, Option.ite_none_right_eq_some] at hrows
    obtain ⟨t, ht, hstored⟩ := forall₂_getElem?_right h hrows.2
    exact ⟨r, rows, t, hr, rfl, ht, hmem, hstored⟩
  constructor
  · intro k values hk
    obtain ⟨r, rows, ⟨name, rel⟩, -, rfl, ht, hmem, hstored⟩ := hrows hk
    exact ⟨name, rel, ht, hstored.typed r hmem⟩
  · intro k values hk
    obtain ⟨r, rows, t, hr, rfl, -, hmem, hstored⟩ := hrows hk
    exact ⟨r.tuple, TupleRow.getTuple_of_isPrefix hrow (by simp [tuplesOf, hr]), hstored.holds r hmem⟩

namespace QueryRealizer

variable {q q' : QueryRealizer} {tables : Scope} {stored : List (List StoredRow)} {m : Nat} {hs : List Nat}

/-! ## The scans -/

/-- `q'` is `q` after the scans of the first `m` tables have been built, with the iterators `hs`. The
relations of the other tables are as they were. -/
structure Opened (q : QueryRealizer) (tables : Scope) (m : Nat) (hs : List Nat) (q' : QueryRealizer) : Prop where
  grows : Grows q q'
  count : q'.allTupleDesc.length = m
  wf : q'.storage.Wf
  mapped : ∀ h ∈ hs, ∃ k < m, ∃ t, tables[k]? = some t ∧ q'.storage.handlerMap .iterator t.2.id = some h
  scanRecords : ∀ k t, m ≤ k → tables[k]? = some t → q'.storage.scanRecords t.2.id = q.storage.scanRecords t.2.id
  openable : ∀ k t, m ≤ k → tables[k]? = some t → q.storage.Openable .iterator t.2.id →
    q'.storage.Openable .iterator t.2.id

theorem Opened.refl (hs : q.storage.Wf) (hdesc : q.allTupleDesc = []) : Opened q tables 0 [] q :=
  ⟨rfl, by simp [hdesc], hs, by simp, fun _ _ _ _ => rfl, fun _ _ _ _ hopen => hopen⟩

theorem position_of_id (hids : (tables.map fun t => t.2.id).Nodup) {i k : Nat} {t t' : Bytes × Relation}
    (hi : tables[i]? = some t) (hk : tables[k]? = some t') (heq : t.2.id = t'.2.id) : i = k := by
  have hlt : i < (tables.map fun t => t.2.id).length := by simpa using (List.getElem?_eq_some_iff.1 hi).1
  exact (getElem?_inj hlt hids).1 (by simp [hi, hk, heq])

theorem Opened.buildTableScan (hq : q.Scoped tables) (hids : (tables.map fun t => t.2.id).Nodup)
    (ho : Opened q tables m hs q') {ref : TableReference} {rel : Relation} (ht : tables[m]? = some (ref.name, rel))
    (hrel : q.catalog.getRelation ref.tableName = some rel) (hopen : q.storage.Openable .iterator rel.id) :
    ∃ h q'', q'.buildTableScan ref = .ok (.seqScan ⟨h, m⟩, q'') ∧ Opened q tables (m + 1) (h :: hs) q'' ∧ h ∉ hs ∧
      (∃ pos, q''.storage.IterAt h ⟨q.storage.scanRecords rel.id, pos⟩) ∧
      ∀ h' c, q'.storage.IterAt h' c → q''.storage.IterAt h' c := by
  obtain ⟨h, s, hnew, ha⟩ := LevelStore.exists_acquired ho.wf (ho.openable m _ le_rfl ht hopen)
  have hq' := hq.grows ho.grows
  have hrel' : q'.catalog.getRelation ref.tableName = some rel := by
    rw [ho.grows]
    exact hrel
  have hrelation : q'.name2relation[ref.name]? = some rel := (hq'.relation _ _).2 (mem_of_getElem? ht)
  have hother : ∀ k t, k ≠ m → tables[k]? = some t → t.2.id ≠ rel.id :=
    fun k t hk ht' heq => hk (position_of_id hids ht' ht heq)
  -- the handlers of the tables before are still theirs
  have hmapped : ∀ h' ∈ hs, ∃ k < m, ∃ t, tables[k]? = some t ∧ s.handlerMap .iterator t.2.id = some h' := by
    intro h' hh'
    obtain ⟨k, hk, t, htk, hmap⟩ := ho.mapped h' hh'
    exact ⟨k, hk, t, htk, (ha.handlerMap .iterator _ (hother k t hk.ne htk)).trans hmap⟩
  refine ⟨h, { q' with
      storage := s
      allIter := q'.allIter ++ [h]
      allTupleDesc := q'.allTupleDesc ++ [rel.toDesc] }, ?_, ⟨?_, ?_, ha.wf, ?_, ?_, ?_⟩, ?_, ?_, ha.iterAt⟩
  · simp [QueryRealizer.buildTableScan, hrel', hnew, hrelation, ho.count]
  · rw [Grows, ho.grows]
  · simp [ho.count]
  · intro h' hh'
    rcases mem_cons.1 hh' with rfl | hh'
    · exact ⟨m, Nat.lt_succ_self m, _, ht, ha.mapped⟩
    · obtain ⟨k, hk, t, htk, hmap⟩ := hmapped h' hh'
      exact ⟨k, Nat.lt_succ_of_lt hk, t, htk, hmap⟩
  · intro k t hk htk
    rw [ha.scanRecords _ (hother k t (by omega) htk)]
    exact ho.scanRecords k t (by omega) htk
  · intro k t hk htk hopen'
    exact (ha.openable_iff (hother k t (by omega) htk)).2 (ho.openable k t (by omega) htk hopen')
  · intro hmem
    obtain ⟨k, hk, t, htk, hmap⟩ := hmapped h hmem
    obtain ⟨y, hy, -, hy'⟩ := ha.wf.live hmap
    obtain ⟨z, hz, -, hz'⟩ := ha.wf.live ha.mapped
    obtain rfl := Option.some.inj (hy.symm.trans hz)
    exact hother k t hk.ne htk (hy'.symm.trans hz')
  · obtain ⟨pos, hiter⟩ := ha.iterator
    exact ⟨pos, ho.scanRecords m _ le_rfl ht ▸ hiter⟩

/-! ## The joins -/

theorem extend_tuplesOf {f : List RawTuple → Bool} {c : List StoredRow} {records : List (Bytes × Bytes)}
    {rows : List StoredRow} {p : List StoredRow → Bool} (hrecords : records.map Prod.snd = rows.map StoredRow.record)
    (hf : ∀ r ∈ rows, f (tuplesOf (c ++ [r])) = p (c ++ [r])) :
    extend f (tuplesOf c) records = ((rows.map fun r => c ++ [r]).filter p).map tuplesOf := by
  have hmap : (records.map fun r => tuplesOf c ++ [Cells.ofBytes r.2]) = (rows.map fun r => c ++ [r]).map tuplesOf := by
    calc (records.map fun r => tuplesOf c ++ [Cells.ofBytes r.2])
        = (records.map Prod.snd).map fun b => tuplesOf c ++ [Cells.ofBytes b] := by rw [map_map]; rfl
      _ = (rows.map fun r => c ++ [r]).map tuplesOf := by
        rw [hrecords, map_map, map_map]
        exact map_congr_left fun r _ => by simp [tuplesOf, StoredRow.tuple]
  rw [extend, hmap, filter_map]
  congr 1
  refine filter_congr fun c' hc' => ?_
  obtain ⟨r, hr, rfl⟩ := mem_map.1 hc'
  exact hf r hr

/-- `BuildJoin` makes of `factor`, over the first `m` tables, a chain of joins that gives the combinations
satisfying `predicates`. -/
def Built (q : QueryRealizer) (tables : Scope) (stored : List (List StoredRow)) (m : Nat)
    (predicates : List ExpressionBase) (factor : TableFactor) : Prop :=
  ∃ plan hs q', buildJoin factor q = .ok (plan, q') ∧ Opened q tables m hs q' ∧
    (∀ p ∈ predicates, tables.Within m p) ∧
    Chained tables.length q'.storage 0 plan hs m ((tables.joined predicates (stored.take m)).map tuplesOf)

section Build

variable (hq : q.Scoped tables) (hids : (tables.map fun t => t.2.id).Nodup) (hstored : TablesHold q.storage tables stored)
  {predicates : List ExpressionBase} {factor : TableFactor} {ref : TableReference} {rel : Relation}
include hq hids hstored

theorem Built.scan (hs : q.storage.Wf) (hdesc : q.allTupleDesc = []) (ht : tables[0]? = some (ref.name, rel))
    (hrel : q.catalog.getRelation ref.tableName = some rel) (hopen : q.storage.Openable .iterator rel.id) :
    Built q tables stored 1 [] (.tableReference ref) := by
  obtain ⟨h, q', hscan, ho, -, ⟨pos, hc⟩, -⟩ := (Opened.refl hs hdesc).buildTableScan hq hids ht hrel hopen
  obtain ⟨rows, hrows, hrel'⟩ := forall₂_getElem?_left hstored ht
  refine ⟨_, _, q', hscan, ho, by simp, ?_⟩
  have hchained := Chained.scan (n := tables.length) ⟨h, 0⟩ rfl hc
  convert hchained using 1
  have htake : stored.take 1 = [rows] := by
    rw [take_add_one, take_zero, hrows]
    rfl
  calc (tables.joined [] (stored.take 1)).map tuplesOf
      = (rows.map StoredRow.record).map fun b => [Cells.ofBytes b] := by
        simp [htake, Scope.joined, tuplesOf, StoredRow.tuple]
    _ = (q.storage.scanRecords rel.id).map fun r => [Cells.ofBytes r.2] := by
        rw [← hrel'.records, map_map]
        rfl

theorem Built.join (hb : Built q tables stored m predicates factor) (ht : tables[m]? = some (ref.name, rel))
    (hrel : q.catalog.getRelation ref.tableName = some rel) (hopen : q.storage.Openable .iterator rel.id)
    (hrow : tables.joined predicates (stored.take m) ≠ []) {p : ExpressionBase} (htyped : p.WellTyped tables.typeOf)
    (hbound : ∀ ref ∈ p.columns, ∃ slot, q.name2slot ref = some slot) (hwithin : tables.Within (m + 1) p) :
    Built q tables stored (m + 1) (predicates ++ [p]) (.joinClause factor (.tableReference ref) p .inner) := by
  obtain ⟨plan, hs, q₁, hleft, ho, hpreds, hchained⟩ := hb
  obtain ⟨h, q', hscan, ho', hnot, ⟨pos, hc⟩, hiter⟩ := ho.buildTableScan hq hids ht hrel hopen
  obtain ⟨rows, hrows, hrel'⟩ := forall₂_getElem?_left hstored ht
  have hq' := hq.grows ho'.grows
  have hbound' : ∀ ref ∈ p.columns, ∃ slot, q'.name2slot ref = some slot := by
    rw [ho'.grows]
    exact hbound
  obtain ⟨b, hb, hvalue⟩ := buildBooleanExpression_scoped hq' htyped hbound'
  have htake : stored.take (m + 1) = stored.take m ++ [rows] := by
    rw [take_add_one, hrows]
    rfl
  have hlen : (stored.take m).length = m :=
    length_take_of_le (List.getElem?_eq_some_iff.1 hrows).1.le
  -- the predicate's expression decides the predicate on every row that starts with a combination
  have hdecides : ∀ c ∈ lexProduct (stored.take (m + 1)), ∀ row, (tuplesOf c).map some <+: row →
      b.getValue row = .ok (tables.satisfies c p) := by
    intro c hc row hrow
    refine hvalue row _ (hstored.shows hc hrow) fun ref href slot hslot => ?_
    obtain ⟨slot', hslot', hlt⟩ := hwithin ref href
    obtain rfl := Option.some.inj (hslot.symm.trans hslot')
    rwa [length_map, Scope.length_of_mem_lexProduct hc, htake, length_append, hlen]
  let f := fun ts : List RawTuple => (b.getValue (ts.map some)).toOption.getD false
  have hf : ∀ c ∈ lexProduct (stored.take (m + 1)), f (tuplesOf c) = tables.satisfies c p := by
    intro c hc
    simp only [f, hdecides c hc _ (prefix_refl _)]
    rfl
  have hmem : ∀ c ∈ tables.joined predicates (stored.take m), ∀ r ∈ rows, c ++ [r] ∈ lexProduct (stored.take (m + 1)) := by
    intro c hc r hr
    rw [htake, lexProduct_concat, mem_flatMap]
    exact ⟨c, mem_of_mem_filter hc, mem_map_of_mem hr⟩
  refine ⟨.nestedLoopJoin tables.length plan (.seqScan ⟨h, m⟩) b, h :: hs, q', ?_, ho', ?_, ?_⟩
  · simp [buildJoin, hleft, hscan, hb, hq'.relationSize]
  · intro p' hp'
    rcases mem_append.1 hp' with hp' | hp'
    · exact (hpreds p' hp').mono (Nat.le_succ m)
    · exact mem_singleton.1 hp' ▸ hwithin
  · have hjoin := Chained.join ⟨h, m⟩ b f (hchained.mono hiter) (by simpa using hrow) (Nat.zero_add m).symm hnot hc ?_
    · convert hjoin using 1
      rw [htake, Scope.joined_concat (by rwa [hlen]), flatMap_map, map_flatMap]
      refine flatMap_congr fun c hc => ?_
      exact (extend_tuplesOf hrel'.records fun r hr => hf _ (hmem c hc r hr)).symm
    · intro a r row ha hr _ hprefix
      obtain ⟨c, hc, rfl⟩ := mem_map.1 ha
      have hr' := mem_map_of_mem (f := Prod.snd) hr
      rw [hrel'.records] at hr'
      obtain ⟨w, hw, heq⟩ := mem_map.1 hr'
      have htuples : tuplesOf c ++ [Cells.ofBytes r.2] = tuplesOf (c ++ [w]) := by
        simp [tuplesOf, StoredRow.tuple, heq]
      rw [htuples] at hprefix ⊢
      rw [hdecides _ (hmem c hc w hw) row hprefix, hf _ (hmem c hc w hw)]

theorem Built.chain (hopen : ∀ t ∈ tables, q.storage.Openable .iterator t.2.id)
    {joins : List (TableReference × ExpressionBase)} (hb : Built q tables stored m predicates factor)
    (htables : TablesOf q.catalog (joins.map Prod.fst) (tables.drop m)) (htyped : ∀ j ∈ joins, j.2.WellTyped tables.typeOf)
    (hbound : ∀ j ∈ joins, ∀ ref ∈ j.2.columns, ∃ slot, q.name2slot ref = some slot)
    (hwithin : ∀ k j, joins[k]? = some j → tables.Within (m + k + 1) j.2)
    (hrows : ∀ k < joins.length, tables.joined (predicates ++ (joins.take k).map Prod.snd) (stored.take (m + k)) ≠ []) :
    Built q tables stored (m + joins.length) (predicates ++ joins.map Prod.snd)
      (joins.foldl (fun left j => .joinClause left (.tableReference j.1) j.2 .inner) factor) := by
  induction joins generalizing factor m predicates with
  | nil => simpa using hb
  | cons j joins ih =>
    obtain ⟨⟨name, rel⟩, rest, ⟨rfl, hrel⟩, hrest, hdrop⟩ := forall₂_cons_left_iff.1 htables
    have ht : tables[m]? = some (j.1.name, rel) := by
      have h0 : (tables.drop m)[0]? = some (j.1.name, rel) := by rw [hdrop]; rfl
      simpa using h0
    have hdrop' : rest = tables.drop (m + 1) := by rw [← tail_drop, hdrop]; rfl
    have hjoin := hb.join hq hids hstored ht hrel (hopen _ (mem_of_getElem? ht)) (by simpa using hrows 0 (by simp))
      (htyped j mem_cons_self) (hbound j mem_cons_self) (hwithin 0 j rfl)
    have hchain := ih hjoin (hdrop' ▸ hrest) (fun j' hj' => htyped j' (mem_cons_of_mem _ hj'))
      (fun j' hj' => hbound j' (mem_cons_of_mem _ hj')) (fun k j' hk => ?_) (fun k hk => ?_)
    · simpa [Nat.add_assoc, Nat.add_comm 1] using hchain
    · simpa [Nat.add_assoc, Nat.add_comm 1] using hwithin (k + 1) j' hk
    · simpa [Nat.add_assoc, Nat.add_comm 1] using hrows (k + 1) (by simpa using hk)

end Build

/-! ## The FROM clause -/

section Chain

variable {first : TableReference} {joins : List (TableReference × ExpressionBase)} {factor : TableFactor}

theorem references_chain : (TableFactor.chain first joins).references = first :: joins.map Prod.fst := by
  have hfold : ∀ factor : TableFactor,
      (joins.foldl (fun left j => .joinClause left (.tableReference j.1) j.2 .inner) factor).references =
        factor.references ++ joins.map Prod.fst := by
    induction joins with
    | nil => simp
    | cons j joins ih =>
      intro factor
      rw [foldl_cons, ih]
      simp [TableFactor.references]
  exact hfold _

theorem columns_chain : (TableFactor.chain first joins).columns = joins.flatMap fun j => j.2.columns := by
  have hfold : ∀ factor : TableFactor,
      (joins.foldl (fun left j => .joinClause left (.tableReference j.1) j.2 .inner) factor).columns =
        factor.columns ++ joins.flatMap fun j => j.2.columns := by
    induction joins with
    | nil => simp
    | cons j joins ih =>
      intro factor
      rw [foldl_cons, ih]
      simp [TableFactor.columns]
  exact hfold _

theorem within_of_bounded
    (h : Bounded tables (joins.foldl (fun left j => .joinClause left (.tableReference j.1) j.2 .inner) factor) 0) :
    Bounded tables factor 0 ∧ ∀ k j, joins[k]? = some j → tables.Within (factor.references.length + k + 1) j.2 := by
  induction joins generalizing factor with
  | nil => exact ⟨h, by simp⟩
  | cons j joins ih =>
    obtain ⟨⟨hfactor, -, hj⟩, hjoins⟩ := ih h
    refine ⟨hfactor, fun k j' hk => ?_⟩
    cases k with
    | zero =>
      obtain rfl := Option.some.inj hk
      simpa [TableFactor.references, Scope.Within] using hj
    | succ k => simpa [TableFactor.references, Nat.add_assoc, Nat.add_comm 1] using hjoins k j' hk

theorem openable_of_buildJoin {plan : Plan} (hs : q.storage.Wf) (h : buildJoin factor q = .ok (plan, q')) :
    q'.storage.Wf ∧ q'.catalog = q.catalog ∧
      (∀ relid, q'.storage.Openable .iterator relid → q.storage.Openable .iterator relid) ∧
      ∀ ref ∈ factor.references, ∀ rel, q.catalog.getRelation ref.tableName = some rel →
        q.storage.Openable .iterator rel.id := by
  induction factor generalizing q q' plan with
  | tableReference ref =>
    obtain ⟨rel, iter, storage, relation, hrel, hiter, -, -, rfl⟩ := buildTableScan_eq_ok h
    obtain ⟨hopen, ha⟩ := LevelStore.acquired_of_newIterator hs hiter
    refine ⟨ha.wf, rfl, fun relid hopen' => ?_, fun ref' href rel' hrel' => ?_⟩
    · by_cases heq : relid = rel.id
      · exact heq ▸ hopen
      · exact (ha.openable_iff heq).1 hopen'
    · obtain rfl := mem_singleton.1 href
      obtain rfl := Option.some.inj (hrel.symm.trans hrel')
      exact hopen
  | joinClause left right predicate type ihl ihr =>
    obtain ⟨leftExec, q₁, rightExec, e, hl, hr, -, -⟩ := buildJoin_joinClause_eq_ok h
    obtain ⟨hs₁, hcatalog₁, hback₁, hleft⟩ := ihl hs hl
    obtain ⟨hs₂, hcatalog₂, hback₂, hright⟩ := ihr hs₁ hr
    refine ⟨hs₂, hcatalog₂.trans hcatalog₁, fun relid hopen => hback₁ _ (hback₂ _ hopen), fun ref href rel hrel => ?_⟩
    rcases mem_append.1 href with href | href
    · exact hleft ref href rel hrel
    · exact hback₁ _ (hright ref href rel (hcatalog₁ ▸ hrel))
  | subQuery => cases h

end Chain

/-- The plan of `FROM t₁ JOIN t₂ ON p₁ JOIN …` over distinct tables. If all its tables can be opened
`BuildJoin` makes one, and opened it gives the combinations of rows that satisfy the predicates, in
lexicographic order, and then `kStateEOF` for ever. -/
theorem buildJoin_chain_gives_joined {stmt : SelectStmt} {catalog : Catalog} {storage : LevelStore}
    {first : TableReference} {joins : List (TableReference × ExpressionBase)}
    (hfrom : stmt.tableReference = [.chain first joins]) (hcheck : check stmt (new catalog storage) = .ok (.ok, q))
    (htables : TablesOf catalog (first :: joins.map Prod.fst) tables) (hnames : (tables.map Prod.fst).Nodup)
    (hids : (tables.map fun t => t.2.id).Nodup) (hwf : storage.Wf) (hstored : TablesHold storage tables stored)
    (htyped : ∀ j ∈ joins, j.2.WellTyped tables.typeOf)
    (hrows : ∀ k < joins.length, tables.joined ((joins.take k).map Prod.snd) (stored.take (k + 1)) ≠ []) :
    ((∀ t ∈ tables, storage.Openable .iterator t.2.id) →
      ∃ plan q', buildJoin (.chain first joins) q = .ok (plan, q')) ∧
    ∀ plan q', buildJoin (.chain first joins) q = .ok (plan, q') →
      ∃ N, ∀ fuel ≥ N, ∃ x s, (plan.executor fuel).execOpen plan.new q'.storage = .ok (.ok, x, s) ∧
        ∀ rows : List TupleRow, (∀ row ∈ rows, row.length = tables.length) →
          ∃ x' s', (plan.executor fuel).fetch rows x s =
            .ok (replies (((tables.joined (joins.map Prod.snd) stored).map tuplesOf).map (List.map some)) rows, x', s') := by
  have hnodup : ((TableFactor.chain first joins).references.map TableReference.name).Nodup := by
    rw [references_chain, ← htables.map_fst]
    exact hnames
  obtain ⟨tables', htables', hbounded, hchecked⟩ := checked_of_check hfrom hnodup hcheck
  obtain rfl := (references_chain ▸ htables').unique htables
  obtain ⟨rfl, rfl, hdesc, -⟩ := hchecked.unbuilt
  have hbound : ∀ j ∈ joins, ∀ ref ∈ j.2.columns, ∃ slot, q.name2slot ref = some slot := by
    intro j hj ref href
    refine hchecked.bound ref (mem_append_left _ ?_)
    rw [columns_chain]
    exact mem_flatMap.2 ⟨j, hj, href⟩
  obtain ⟨-, hwithin⟩ := within_of_bounded hbounded
  have hbuilt : (∀ t ∈ tables', q.storage.Openable .iterator t.2.id) →
      Built q tables' stored (1 + joins.length) (joins.map Prod.snd) (.chain first joins) := by
    intro hopen
    obtain ⟨⟨name, rel⟩, rest, ⟨rfl, hrel⟩, hrest, rfl⟩ := forall₂_cons_left_iff.1 htables
    have hscan := Built.scan hchecked.scope hids hstored hwf hdesc rfl hrel (hopen _ mem_cons_self)
    have hchain := hscan.chain hchecked.scope hids hstored hopen hrest htyped hbound hwithin
      (by simpa [Nat.add_comm] using hrows)
    exact hchain
  have hlen : tables'.length = 1 + joins.length := by
    rw [← htables.length_eq, length_cons, length_map, Nat.add_comm]
  refine ⟨fun hopen => ?_, fun plan q' hplan => ?_⟩
  · obtain ⟨plan, hs, q', hplan, -⟩ := hbuilt hopen
    exact ⟨plan, q', hplan⟩
  · have hopen : ∀ t ∈ tables', q.storage.Openable .iterator t.2.id := by
      intro t ht
      obtain ⟨k, hk⟩ := mem_iff_getElem?.1 ht
      obtain ⟨ref, href, -, hrel⟩ := htables'.reference_of_table hk
      exact (openable_of_buildJoin hwf hplan).2.2.2 ref (mem_of_getElem? href) t.2 hrel
    obtain ⟨plan', hs, q'', hplan', -, -, hchained⟩ := hbuilt hopen
    obtain ⟨rfl, rfl⟩ := Prod.mk.inj (Except.ok.inj (hplan.symm.trans hplan'))
    rw [← hlen, take_of_length_le hstored.length_eq.ge] at hchained
    exact hchained.fetch_eq

def integerRow (n : UInt8) : StoredRow := ⟨[4, 0, 8, 0, n, 0, 0, 0, 0, 0, 0, 0], [.integer n.toUInt64.toInt64]⟩

def row5 : StoredRow := integerRow 5

def storageTU : LevelStore :=
  .started fun relid => if relid = 2 ∨ relid = 3 then Std.ExtTreeMap.ofList [(ascii "k", row5.record)] compare else ∅

theorem holds_integerRow : ∀ n ∈ [(1 : UInt8), 5, 7], (integerRow n).tuple.Holds (integerRow n).values := by
  have hvalue : ∀ n ∈ [(1 : UInt8), 5, 7],
      (integerRow n).tuple.getValue 4 8 = .ok (Value.integer n.toUInt64.toInt64).bytes := by
    simp only [forall_mem_cons]
    exact ⟨rfl, rfl, rfl, by simp⟩
  intro n hn j v hj
  match j with
  | 0 =>
    obtain rfl := Option.some.inj hj
    exact ⟨4, 8, rfl, rfl, rfl, hvalue n hn⟩
  | j + 1 => cases hj

def tableV : Relation :=
  Relation.addAttribute { name := ascii "v", id := 4 } { name := ascii "c", dataType := .integer, maxLength := 8 } true

def refV : TableReference := newTableReference (ascii "v") []

def catalogTUV : Catalog := (catalogTU.insertRelation tableV).1

/-- `t` holds 1 and 5, `u` and `v` hold 5 and 7. -/
def rowsTUV (relid : RelationId) : List StoredRow :=
  (if relid = 2 then [1, 5] else if relid = 3 ∨ relid = 4 then [5, 7] else []).map integerRow

def storageRows : LevelStore :=
  .started fun relid => Std.ExtTreeMap.ofList ([ascii "k", ascii "l"].zip ((rowsTUV relid).map StoredRow.record)) compare

theorem storedAs_rowsTUV : ∀ rel ∈ [tableT, tableU, tableV], StoredAs storageRows rel (rowsTUV rel.id) := by
  have hrecords : ∀ rel ∈ [tableT, tableU, tableV],
      (storageRows.scanRecords rel.id).map Prod.snd = (rowsTUV rel.id).map StoredRow.record ∧
      ∀ n, (integerRow n).values.Typed rel := by
    simp only [forall_mem_cons]
    exact ⟨⟨rfl, fun _ => rfl⟩, ⟨rfl, fun _ => rfl⟩, ⟨rfl, fun _ => rfl⟩, by simp⟩
  have hrows : ∀ {relid r}, r ∈ rowsTUV relid → ∃ n ∈ [(1 : UInt8), 5, 7], r = integerRow n := by
    intro relid r hr
    obtain ⟨n, hn, rfl⟩ := mem_map.1 hr
    refine ⟨n, ?_, rfl⟩
    split_ifs at hn
    · exact mem_of_mem_take (i := 2) hn
    · exact mem_of_mem_tail hn
    · cases hn
  intro rel hrel
  obtain ⟨heq, htyped⟩ := hrecords rel hrel
  refine ⟨heq, fun r hr => ?_, fun r hr => ?_⟩ <;> obtain ⟨n, hn, rfl⟩ := hrows hr
  · exact htyped n
  · exact holds_integerRow n hn

/-- `a < u.b` -/
def lessAB : ExpressionBase :=
  .operation .less (.columnReference ⟨0, [], ascii "a"⟩) (.columnReference ⟨1, ascii "u", ascii "b"⟩)

/-- `u.b = v.c` -/
def equalBC : ExpressionBase :=
  .operation .equal (.columnReference ⟨2, ascii "u", ascii "b"⟩) (.columnReference ⟨3, ascii "v", ascii "c"⟩)

/-- `SELECT * FROM t JOIN u ON a < u.b JOIN v ON u.b = v.c` -/
def selectTUV : SelectStmt := ⟨[], [.chain refT [(refU, lessAB), (refV, equalBC)]], [], [], []⟩

theorem joined_on_selectTUV : ∃ q plan q', check selectTUV (new catalogTUV storageRows) = .ok (.ok, q) ∧
    buildJoin (.chain refT [(refU, lessAB), (refV, equalBC)]) q = .ok (plan, q') ∧
    ∃ N, ∀ fuel ≥ N, ∃ x s, (plan.executor fuel).execOpen plan.new q'.storage = .ok (.ok, x, s) ∧
      ∀ rows : List TupleRow, (∀ row ∈ rows, row.length = 3) → ∃ x' s', (plan.executor fuel).fetch rows x s =
        .ok (replies ([[1, 5, 5], [1, 7, 7], [5, 7, 7]].map fun ns => ns.map fun n => some (integerRow n).tuple) rows,
          x', s') := by
  obtain ⟨q, hcheck⟩ : ∃ q, check selectTUV (new catalogTUV storageRows) = .ok (.ok, q) := ⟨_, rfl⟩
  have htables : TablesOf catalogTUV [refT, refU, refV]
      [(ascii "t", tableT), (ascii "u", tableU), (ascii "v", tableV)] :=
    .cons ⟨rfl, rfl⟩ (.cons ⟨rfl, rfl⟩ (.cons ⟨rfl, rfl⟩ .nil))
  have hstored : TablesHold storageRows [(ascii "t", tableT), (ascii "u", tableU), (ascii "v", tableV)]
      [rowsTUV 2, rowsTUV 3, rowsTUV 4] :=
    .cons (storedAs_rowsTUV _ (by simp)) (.cons (storedAs_rowsTUV _ (by simp)) (.cons (storedAs_rowsTUV _ (by simp)) .nil))
  have htyped : ∀ j ∈ [(refU, lessAB), (refV, equalBC)],
      j.2.WellTyped (Scope.typeOf [(ascii "t", tableT), (ascii "u", tableU), (ascii "v", tableV)]) := by
    simp only [forall_mem_cons]
    exact ⟨⟨.integer, rfl, rfl, rfl⟩, ⟨.integer, rfl, rfl, rfl⟩, by simp⟩
  have hfrom : selectTUV.tableReference = [.chain refT [(refU, lessAB), (refV, equalBC)]] := rfl
  obtain ⟨hmade, hgives⟩ := buildJoin_chain_gives_joined hfrom hcheck htables (by decide) (by decide)
    (LevelStore.wf_started _) hstored htyped (by decide)
  obtain ⟨plan, q', hplan⟩ := hmade (by simp [LevelStore.Openable, storageRows, LevelStore.started]; decide)
  exact ⟨q, plan, q', hcheck, hplan, hgives plan q' hplan⟩

end QueryRealizer

end Dbms18
