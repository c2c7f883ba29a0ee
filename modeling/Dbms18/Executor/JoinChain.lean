import Dbms18.Executor.JoinOperator

/-!
# Chains of nested-loop joins

The executors of a left-deep join: the first table's scan, and over it one join per further table,
each with that table's scan as its right child. Every executor in the chain gives rows that have one tuple
for each table below it, from a position `b` on. A right child that is a join itself is in the chain only if
it gives no rows: the join copies the rows of its right child whole. `Supplies` is what a parent relies on:
the rows the executor still has to give, and the handlers it may touch while giving them.
-/

namespace Dbms18

open List

namespace LevelStore

def SameOn (s s' : LevelStore) (hs : List Nat) : Prop := ∀ h ∈ hs, s'.handlers h = s.handlers h

def SameOutside (s s' : LevelStore) (hs : List Nat) : Prop := ∀ h ∉ hs, s'.handlers h = s.handlers h

variable {s s' s'' : LevelStore} {h : Nat} {hs hs' : List Nat} {c : Cursor}

theorem SameOutside.refl (s : LevelStore) (hs : List Nat) : s.SameOutside s hs := fun _ _ => rfl

theorem SameOutside.trans (h₁ : s.SameOutside s' hs) (h₂ : s'.SameOutside s'' hs) : s.SameOutside s'' hs :=
  fun h hh => (h₂ h hh).trans (h₁ h hh)

theorem SameOutside.mono (h₁ : s.SameOutside s' hs) (hsub : hs ⊆ hs') : s.SameOutside s' hs' :=
  fun h hh => h₁ h fun hmem => hh (hsub hmem)

theorem SameExcept.sameOutside (hsame : s.SameExcept s' h) (hmem : h ∈ hs) : s.SameOutside s' hs :=
  fun h' hh' => hsame h' fun heq => hh' (heq ▸ hmem)

theorem SameExcept.sameOn (hsame : s.SameExcept s' h) (hnot : h ∉ hs) : s.SameOn s' hs :=
  fun h' hh' => hsame h' fun heq => hnot (heq ▸ hh')

theorem IterAt.of_eq (hc : s.IterAt h c) (heq : s'.handlers h = s.handlers h) : s'.IterAt h c := by
  obtain ⟨relid, reference, hh⟩ := hc
  exact ⟨relid, reference, heq.trans hh⟩

end LevelStore

/-- `rest as x s` are the states in which `E` has the rows `as` still to give: each `GetNext` gives the
next one, as the first tuples of a row of width `n`, and once there is none left every call returns
`kStateEOF` and leaves the row alone. The handlers in `hs` are all that `E` depends on and changes. -/
structure Supplies {σ : Type} (E : Executor LevelStore σ) (n : Nat) (hs : List Nat)
    (rest : List (List RawTuple) → σ → LevelStore → Prop) : Prop where
  next : ∀ {a as x s} {row : TupleRow}, rest (a :: as) x s → row.length = n →
    ∃ row' x' s', E.getNext x s row = .ok (.ok, row', x', s') ∧ row'.length = n ∧ a.map some <+: row' ∧
      rest as x' s' ∧ s.SameOutside s' hs
  done : ∀ {x s} {row : TupleRow}, rest [] x s → row.length = n →
    ∃ x' s', E.getNext x s row = .ok (.eof, row, x', s') ∧ rest [] x' s' ∧ s.SameOutside s' hs
  frame : ∀ {as x s s'}, rest as x s → s.SameOn s' hs → rest as x s'

/-! ## A scan -/

def SeqScan.rest (scan : SeqScan) (records : List (Bytes × Bytes)) (as : List (List RawTuple)) (_ : Unit)
    (s : LevelStore) : Prop :=
  ∃ pos, s.IterAt scan.iterator ⟨records, pos⟩ ∧ as = (records.drop pos).map fun r => [Cells.ofBytes r.2]

variable {scan : SeqScan} {s : LevelStore} {records : List (Bytes × Bytes)} {pos n b m : Nat} {row : TupleRow}

section IterAt

variable (hc : s.IterAt scan.iterator ⟨records, pos⟩)

include hc

theorem SeqScan.executor_getNext_of_record (hpos : pos < records.length) (hrow : scan.tupleIndex < row.length) :
    ∃ s', scan.executor.getNext () s row =
        .ok (.ok, row.set scan.tupleIndex (some (Cells.ofBytes records[pos].2)), (), s') ∧
      s'.IterAt scan.iterator ⟨records, pos + 1⟩ ∧ s.SameExcept s' scan.iterator := by
  obtain ⟨s', hnext, hc', hsame⟩ := getNext_of_record hc (getElem?_eq_getElem hpos) hrow
  exact ⟨s', by simp [executor, hnext], hc', hsame⟩

theorem SeqScan.executor_getNext_of_end (hend : records.length ≤ pos) :
    scan.executor.getNext () s row = .ok (.eof, row, (), s) := by
  simp [executor, getNext_of_end hc hend]

theorem SeqScan.execOpen_rest :
    ∃ s', scan.executor.execOpen () s = .ok (.ok, (), s') ∧ s'.IterAt scan.iterator ⟨records, 0⟩ ∧
      s.SameExcept s' scan.iterator := by
  obtain ⟨s', hopen, hc', hsame⟩ := execOpen_of_iterAt hc
  exact ⟨s', by simp [executor, hopen], hc', hsame⟩

end IterAt

def SeqScan.source (scan : SeqScan) (records : List (Bytes × Bytes)) : RowSource LevelStore Unit (List RawTuple) where
  rows := records.map fun r => [Cells.ofBytes r.2]
  ready _ s := ∃ pos, s.IterAt scan.iterator ⟨records, pos⟩
  rest := scan.rest records
  moves s s' := s.SameExcept s' scan.iterator
  writes a row row' := ∃ t, a = [t] ∧ row' = row.set scan.tupleIndex (some t)
  leaves row row' := row' = row

theorem SeqScan.replays (records : List (Bytes × Bytes)) (hindex : scan.tupleIndex < n) :
    scan.executor.Replays n (scan.source records) where
  execOpen := by
    rintro x s ⟨pos, hc⟩
    obtain ⟨s', hopen, hc', hsame⟩ := execOpen_rest hc
    exact ⟨(), s', hopen, ⟨0, hc', rfl⟩, hsame⟩
  next := by
    rintro a as x s row ⟨pos, hc, heq⟩ hrow
    have hpos : pos < records.length := by
      by_contra hge
      rw [drop_eq_nil_of_le (by omega)] at heq
      cases heq
    rw [drop_eq_getElem_cons hpos, map_cons] at heq
    obtain ⟨rfl, rfl⟩ := List.cons.inj heq
    obtain ⟨s', hnext, hc', hsame⟩ := executor_getNext_of_record hc hpos (by omega : _ < row.length)
    exact ⟨_, (), s', hnext, ⟨_, rfl, rfl⟩, ⟨pos + 1, hc', rfl⟩, hsame⟩
  done := by
    rintro x s row ⟨pos, hc, heq⟩ -
    have hend : records.length ≤ pos := by simpa using heq.symm
    exact ⟨row, (), s, executor_getNext_of_end hc hend, rfl, ⟨pos, hc, heq⟩, fun _ _ => rfl⟩
  reopen := by
    rintro as x s ⟨pos, hc, -⟩
    exact ⟨pos, hc⟩
  subset := by
    rintro as x s ⟨pos, -, rfl⟩
    exact map_subset _ (drop_subset pos records)

theorem SeqScan.stable {moves : LevelStore → LevelStore → Prop}
    (h : ∀ {s s'}, moves s s' → s'.handlers scan.iterator = s.handlers scan.iterator) :
    (scan.source records).Stable moves where
  ready := by
    rintro x s s' ⟨pos, hc⟩ hmoves
    exact ⟨pos, hc.of_eq (h hmoves)⟩
  rest := by
    rintro as x s s' ⟨pos, hc, heq⟩ hmoves
    exact ⟨pos, hc.of_eq (h hmoves), heq⟩

def integerRecord (value : UInt8) : Bytes := [4, 0, 8, 0, value, 0, 0, 0, 0, 0, 0, 0]

/-! ## A join over an executor and a scan -/

theorem TupleRow.copyTo_of_length_eq {dest : TupleRow} (h : row.length = dest.length) : row.copyTo dest = row := by
  rw [copyTo, if_pos h.le, h, drop_length, append_nil]

theorem isPrefix_set {a : List RawTuple} (ha : a.map some <+: row.drop b) (hlt : b + a.length < row.length) (t : RawTuple) :
    (a ++ [t]).map some <+: (row.set (b + a.length) (some t)).drop b := by
  rw [drop_set, if_neg (by omega), Nat.add_sub_cancel_left]
  have hlt' : a.length < (row.drop b).length := by
    rw [length_drop]
    omega
  obtain ⟨rest, heq⟩ := ha
  rw [← heq] at hlt' ⊢
  cases rest with
  | nil => simp at hlt'
  | cons x rest => exact ⟨rest, by simp⟩

def extend (f : List RawTuple → Bool) (a : List RawTuple) (records : List (Bytes × Bytes)) : List (List RawTuple) :=
  (records.map fun r => a ++ [Cells.ofBytes r.2]).filter f

/-- The source gives the rows `outs`, one tuple for each of `m` tables, as the tuples from `b` on of rows
of width `n`, and reaches the handlers in `hs` only. -/
structure RowSource.ChainOf {σ : Type} (S : RowSource LevelStore σ (List RawTuple)) (n : Nat) (hs : List Nat) (b m : Nat)
    (outs : List (List RawTuple)) : Prop where
  rows : S.rows = outs
  length : ∀ a ∈ outs, a.length = m
  writes : ∀ {a row row'}, row.length = n → S.writes a row row' →
    row'.length = n ∧ a.map some <+: row'.drop b ∧ a.length = m
  leaves : ∀ {row row'}, S.leaves row row' → row' = row
  moves : ∀ {s s'}, S.moves s s' → s.SameOutside s' hs
  stable : S.Stable fun s s' => s.SameOn s' hs

variable {hs : List Nat} {outs : List (List RawTuple)} {σ : Type}

theorem Executor.Replays.supplies {E : Executor LevelStore σ} {S : RowSource LevelStore σ (List RawTuple)}
    (hE : E.Replays n S) (hS : S.ChainOf n hs 0 m outs) :
    Supplies E n hs S.rest where
  next hrest hrow := by
    obtain ⟨row', x', s', hnext, hwrites, hrest', hmoves⟩ := hE.next hrest hrow
    obtain ⟨hwidth, htuples, -⟩ := hS.writes hrow hwrites
    exact ⟨row', x', s', hnext, hwidth, htuples, hrest', hS.moves hmoves⟩
  done hrest hrow := by
    obtain ⟨row', x', s', hnext, hleaves, hrest', hmoves⟩ := hE.done hrest hrow
    obtain rfl := hS.leaves hleaves
    exact ⟨x', s', hnext, hrest', hS.moves hmoves⟩
  frame := hS.stable.rest

theorem SeqScan.chainOf (records : List (Bytes × Bytes)) (hindex : scan.tupleIndex = b) (hn : b < n) :
    (scan.source records).ChainOf n [scan.iterator] b 1 (records.map fun r => [Cells.ofBytes r.2]) where
  rows := rfl
  length := by
    intro a ha
    obtain ⟨r, -, rfl⟩ := mem_map.1 ha
    rfl
  writes := by
    rintro a row row' hrow ⟨t, rfl, rfl⟩
    have hset := isPrefix_set (a := []) (b := b) (List.nil_prefix : [] <+: row.drop b) (by simpa [hrow] using hn) t
    exact ⟨by rw [length_set, hrow], by simpa [hindex] using hset, rfl⟩
  leaves h := h
  moves hsame := hsame.sameOutside (by simp)
  stable := SeqScan.stable fun hsame => hsame _ (by simp)

section Level

variable {σ : Type} {S : RowSource LevelStore σ (List RawTuple)} {n b m : Nat} {hs : List Nat} {outs : List (List RawTuple)}
  {scan : SeqScan} {records : List (Bytes × Bytes)} {f : List RawTuple → Bool} {fuel : Nat}

def level (n b m : Nat) (S : RowSource LevelStore σ (List RawTuple)) (scan : SeqScan) (records : List (Bytes × Bytes))
    (f : List RawTuple → Bool) : JoinSource LevelStore σ Unit (List RawTuple) (List RawTuple) where
  n := n
  left := S
  right := scan.source records
  free row := row.length = n
  holds a row := row.length = n ∧ a.map some <+: row.drop b ∧ a.length = m
  shows a a' row := row.length = n ∧ (a ++ a').map some <+: row.drop b
  f a a' := f (a ++ a')

theorem level_joinOf {E : Executor LevelStore σ} {predicate : BooleanExpr} (hE : E.Replays n S) (hS : S.ChainOf n hs b m outs)
    (hindex : scan.tupleIndex = b + m) (hlt : b + m < n) (hiterator : scan.iterator ∉ hs)
    (hdecides : ∀ {a r row}, a ∈ outs → r ∈ records → row.length = n →
      (a ++ [Cells.ofBytes r.2]).map some <+: row.drop b → predicate.getValue row = .ok (f (a ++ [Cells.ofBytes r.2]))) :
    (level n b m S scan records f).JoinOf E scan.executor predicate where
  left := hE
  right := SeqScan.replays records (hindex ▸ hlt)
  leftStable :=
    ⟨fun hready hsame => hS.stable.ready hready (LevelStore.SameExcept.sameOn hsame hiterator),
      fun hrest hsame => hS.stable.rest hrest (LevelStore.SameExcept.sameOn hsame hiterator)⟩
  rightStable := SeqScan.stable fun hmoves => hS.moves hmoves _ hiterator
  width h := h
  free h := h.1
  holds hrow hwrites := hS.writes hrow hwrites
  shows := by
    rintro a a' row row' ⟨hrow, htuples, hlen⟩ ⟨t, rfl, rfl⟩
    have hset := isPrefix_set htuples (by omega) t
    rw [hlen, ← hindex] at hset
    have hwidth : (row.set scan.tupleIndex (some t)).length = n := by rw [length_set, hrow]
    exact ⟨⟨hwidth, hset⟩, hwidth, (by simp : a.map some <+: _).trans hset, hlen⟩
  leftEnd hrow hleaves := by
    obtain rfl := hS.leaves hleaves
    exact hrow
  rightEnd hholds hleaves := by
    obtain rfl := hleaves
    exact hholds
  decides := by
    rintro a ha a' ha' row ⟨hrow, htuples⟩
    obtain ⟨r, hr, rfl⟩ := mem_map.1 ha'
    exact hdecides (hS.rows ▸ ha) hr hrow htuples

theorem map_pairs_level (a : List RawTuple) :
    ((level n b m S scan records f).pairs a (scan.source records).rows).map (fun ab => ab.1 ++ ab.2) =
      extend f a records := by
  simp [JoinSource.pairs, SeqScan.source, level, extend, filter_map, Function.comp_def]

theorem level_chainOf (hS : S.ChainOf n hs b m outs) :
    ((NestedLoopJoin.source (level n b m S scan records f) fuel).map fun ab => ab.1 ++ ab.2).ChainOf n
      (scan.iterator :: hs) b (m + 1) (outs.flatMap fun a => extend f a records) where
  rows := by
    show (S.rows.flatMap fun a => (level n b m S scan records f).pairs a (scan.source records).rows).map _ = _
    simp only [map_flatMap, map_pairs_level, hS.rows]
  length := by
    intro c hc
    obtain ⟨a, ha, hc⟩ := mem_flatMap.1 hc
    obtain ⟨r, -, rfl⟩ := mem_map.1 (mem_of_mem_filter hc)
    simpa using hS.length a ha
  writes := by
    rintro c row row' hrow ⟨⟨a, b⟩, hab, rfl, joinRow, ⟨hwidth, htuples⟩, -, rfl⟩
    obtain ⟨a, ha, hab⟩ := mem_flatMap.1 hab
    obtain ⟨b, hb, hab⟩ := mem_map.1 hab
    obtain ⟨rfl, rfl⟩ := Prod.mk.inj hab
    obtain ⟨r, -, rfl⟩ := mem_map.1 (mem_of_mem_filter hb)
    rw [TupleRow.copyTo_of_length_eq (hwidth.trans hrow.symm)]
    refine ⟨hwidth, htuples, ?_⟩
    simpa using hS.length a (hS.rows ▸ ha)
  leaves h := h
  moves hmoves := by
    -- every step of the run is a call of one of the two children
    induction hmoves with
    | refl => exact .refl _ _
    | tail _ hstep ih =>
      refine ih.trans ?_
      rcases hstep with hleft | hright
      · exact (hS.moves hleft).mono (by simp)
      · exact LevelStore.SameExcept.sameOutside hright (by simp)
  stable := by
    refine (NestedLoopJoin.stable ?_ ?_).map _
    · exact ⟨fun hready hsame => hS.stable.ready hready fun h hh => hsame h (mem_cons_of_mem _ hh),
        fun hrest hsame => hS.stable.rest hrest fun h hh => hsame h (mem_cons_of_mem _ hh)⟩
    · exact SeqScan.stable fun hsame => hsame _ mem_cons_self

end Level

/-! ## A join over an executor and one without rows -/

theorem barren_chainOf {τ : Type} {L : RowSource LevelStore σ (List RawTuple)} {R : RowSource LevelStore τ (List RawTuple)}
    {b' m' fuel : Nat} {hs hs' : List Nat} {outs outs' : List (List RawTuple)} (hL : L.ChainOf n hs b m outs)
    (hR : R.ChainOf n hs' b' m' outs') :
    (NestedLoopJoin.barren L R n fuel (List RawTuple)).ChainOf n (hs' ++ hs) b (m + m') [] where
  rows := rfl
  length := by simp
  writes _ h := h.elim
  leaves h := h
  moves hmoves := by
    induction hmoves with
    | refl => exact .refl _ _
    | tail _ hstep ih =>
      refine ih.trans ?_
      rcases hstep with hleft | hright
      · exact (hL.moves hleft).mono (by simp)
      · exact (hR.moves hright).mono (by simp)
  stable := by
    refine NestedLoopJoin.stable_barren ?_ ?_
    · exact ⟨fun hready hsame => hL.stable.ready hready fun h hh => hsame h (mem_append_right _ hh),
        fun hrest hsame => hL.stable.rest hrest fun h hh => hsame h (mem_append_right _ hh)⟩
    · exact ⟨fun hready hsame => hR.stable.ready hready fun h hh => hsame h (mem_append_left _ hh),
        fun hrest hsame => hR.stable.rest hrest fun h hh => hsame h (mem_append_left _ hh)⟩

/-! ## Chains -/

/-- `plan` is a chain of joins over the scans of `m` tables, whose tuples stand from position `b` on. The
iterators `hs` of the scans are distinct and in place, and `outs` are the combinations of records that
satisfy the predicates of all levels. A level over a table has a row to its left; any other right child
gives no rows. -/
inductive Chained (n : Nat) (s : LevelStore) : Nat → Plan → List Nat → Nat → List (List RawTuple) → Prop
  | scan {b : Nat} (scan : SeqScan) {records : List (Bytes × Bytes)} {pos : Nat} (hindex : scan.tupleIndex = b)
    (hc : s.IterAt scan.iterator ⟨records, pos⟩) :
    Chained n s b (.seqScan scan) [scan.iterator] 1 (records.map fun r => [Cells.ofBytes r.2])
  | join {b : Nat} {left : Plan} {hs : List Nat} {m : Nat} {outs : List (List RawTuple)} (scan : SeqScan)
    {records : List (Bytes × Bytes)} {pos : Nat} (predicate : BooleanExpr) (f : List RawTuple → Bool)
    (hleft : Chained n s b left hs m outs) (hrow : outs ≠ []) (hindex : scan.tupleIndex = b + m)
    (hiterator : scan.iterator ∉ hs) (hc : s.IterAt scan.iterator ⟨records, pos⟩)
    (hdecides : ∀ {a r row}, a ∈ outs → r ∈ records → row.length = n →
      (a ++ [Cells.ofBytes r.2]).map some <+: row.drop b → predicate.getValue row = .ok (f (a ++ [Cells.ofBytes r.2]))) :
    Chained n s b (.nestedLoopJoin n left (.seqScan scan) predicate) (scan.iterator :: hs) (m + 1)
      (outs.flatMap fun a => extend f a records)
  | barren {b : Nat} {left right : Plan} {hs hs' : List Nat} {m m' : Nat} {outs : List (List RawTuple)}
    (predicate : BooleanExpr) (hleft : Chained n s b left hs m outs) (hright : Chained n s (b + m) right hs' m' [])
    (hdisjoint : ∀ h ∈ hs', h ∉ hs) :
    Chained n s b (.nestedLoopJoin n left right predicate) (hs' ++ hs) (m + m') []

variable {plan : Plan}

theorem Chained.mono {s s' : LevelStore}
    (h : Chained n s b plan hs m outs) (hiter : ∀ h c, s.IterAt h c → s'.IterAt h c) : Chained n s' b plan hs m outs := by
  induction h with
  | scan scan hindex hc => exact .scan scan hindex (hiter _ _ hc)
  | join scan predicate f _ hrow hindex hiterator hc hdecides ih =>
    exact .join scan predicate f ih hrow hindex hiterator (hiter _ _ hc) hdecides
  | barren predicate _ _ hdisjoint ihl ihr => exact .barren predicate ihl ihr hdisjoint

theorem Chained.replays (h : Chained n s b plan hs m outs) (hm : b + m ≤ n) :
    ∃ N, ∀ fuel ≥ N, ∃ S : RowSource LevelStore plan.Members (List RawTuple),
      (plan.executor fuel).Replays n S ∧ S.ChainOf n hs b m outs ∧ S.ready plan.new s := by
  induction h with
  | @scan b scan records pos hindex hc =>
    exact ⟨0, fun fuel _ => ⟨scan.source records, SeqScan.replays records (by omega), SeqScan.chainOf records hindex (by omega),
      pos, hc⟩⟩
  | @join b left hs m outs scan records pos predicate f hleft hrow hindex hiterator hc hdecides ih =>
    obtain ⟨N, hN⟩ := ih (by omega)
    refine ⟨max N (records.length + outs.length * (records.length + 1) + 1), fun fuel hfuel => ?_⟩
    obtain ⟨S, hE, hS, hready⟩ := hN fuel (le_of_max_le_left hfuel)
    have hJ := level_joinOf hE hS hindex (by omega) hiterator hdecides
    have hne : S.rows ≠ [] := hS.rows ▸ hrow
    have hwork : NestedLoopJoin.work (level n b m S scan records f) ≤ fuel := by
      simpa [NestedLoopJoin.work, level, SeqScan.source, hS.rows] using le_of_max_le_right hfuel
    exact ⟨_, (NestedLoopJoin.replays hJ hne hwork).map _, level_chainOf hS, hready, ⟨pos, hc⟩, TupleRow.length_new n⟩
  | @barren b left right hs hs' m m' outs predicate hleft hright hdisjoint ihl ihr =>
    obtain ⟨Nl, hNl⟩ := ihl (by omega)
    obtain ⟨Nr, hNr⟩ := ihr (by omega)
    refine ⟨max (max Nl Nr) (outs.length + 1), fun fuel hfuel => ?_⟩
    obtain ⟨L, hEl, hL, hreadyL⟩ := hNl fuel (le_of_max_le_left (le_of_max_le_left hfuel))
    obtain ⟨R, hEr, hR, hreadyR⟩ := hNr fuel (le_of_max_le_right (le_of_max_le_left hfuel))
    -- what one child moves is out of the other's reach
    have hLR : L.Stable R.moves :=
      have hsame : ∀ {s s'}, R.moves s s' → s.SameOn s' hs := fun hmoves h hh =>
        hR.moves hmoves h fun hmem => hdisjoint h hmem hh
      ⟨fun hready hmoves => hL.stable.ready hready (hsame hmoves), fun hrest hmoves => hL.stable.rest hrest (hsame hmoves)⟩
    have hRL : R.Stable L.moves :=
      have hsame : ∀ {s s'}, L.moves s s' → s.SameOn s' hs' := fun hmoves h hh => hL.moves hmoves h (hdisjoint h hh)
      ⟨fun hready hmoves => hR.stable.ready hready (hsame hmoves), fun hrest hmoves => hR.stable.rest hrest (hsame hmoves)⟩
    have hlength : L.rows.length < fuel := by
      rw [hL.rows]
      exact le_of_max_le_right hfuel
    refine ⟨_, NestedLoopJoin.replays_barren hEl hEr hLR hRL (fun hrow hwrite =>
      (hL.writes hrow hwrite).1) ?_ ?_ hR.rows hlength,
      barren_chainOf hL hR, hreadyL, hreadyR, TupleRow.length_new n⟩
    · rintro row row' hrow hleave
      exact hL.leaves hleave ▸ hrow
    · rintro row row' hrow hleave
      exact hR.leaves hleave ▸ hrow

theorem Chained.opens (h : Chained n s 0 plan hs m outs) (hm : m ≤ n) : ∃ N, ∀ fuel ≥ N, ∃ rest x s',
      Supplies (plan.executor fuel) n hs rest ∧ (∀ {as x s}, rest as x s → ∀ a ∈ as, a ∈ outs ∧ a.length = m) ∧
      (plan.executor fuel).execOpen plan.new s = .ok (.ok, x, s') ∧ rest outs x s' ∧ s.SameOutside s' hs := by
  obtain ⟨N, hN⟩ := h.replays (by omega)
  refine ⟨N, fun fuel hfuel => ?_⟩
  obtain ⟨S, hE, hS, hready⟩ := hN fuel hfuel
  obtain ⟨x, s', hopen, hrest, hmoves⟩ := hE.execOpen hready
  refine ⟨S.rest, x, s', hE.supplies hS, fun {as x s} hrest a ha => ?_, hopen, hS.rows ▸ hrest, hS.moves hmoves⟩
  have hmem : a ∈ outs := hS.rows ▸ hE.subset hrest ha
  exact ⟨hmem, hS.length a hmem⟩

/-! ## Repeated calls -/

/-- What calls of `GetNext` with the given rows come back with: the rows `outs` one by one, and then
`kStateEOF` with the row as it was given. -/
def replies : List TupleRow → List TupleRow → List (State × TupleRow)
  | _, [] => []
  | [], row :: rows => (.eof, row) :: replies [] rows
  | out :: outs, _ :: rows => (.ok, out) :: replies outs rows

theorem Supplies.fetch_eq {E : Executor LevelStore σ}
    {rest : List (List RawTuple) → σ → LevelStore → Prop} (hE : Supplies E n hs rest)
    (hlen : ∀ {as x s}, rest as x s → ∀ a ∈ as, a.length = n) {rows : List TupleRow}
    (hrows : ∀ row ∈ rows, row.length = n) {x : σ} (hrest : rest outs x s) :
    ∃ x' s', E.fetch rows x s = .ok (replies (outs.map (List.map some)) rows, x', s') := by
  induction rows generalizing outs x s with
  | nil => exact ⟨x, s, by cases outs <;> rfl⟩
  | cons row rows ih =>
    have hrow := hrows row mem_cons_self
    have hrows' : ∀ row ∈ rows, row.length = n := fun r hr => hrows r (mem_cons_of_mem _ hr)
    cases outs with
    | nil =>
      obtain ⟨x₁, s₁, hnext, hrest₁, -⟩ := hE.done hrest hrow
      obtain ⟨x', s', hfetch⟩ := ih hrows' hrest₁
      exact ⟨x', s', by simp [Executor.fetch, hnext, hfetch, replies]⟩
    | cons a outs =>
      obtain ⟨row', x₁, s₁, hnext, hwidth, htuples, hrest₁, -⟩ := hE.next hrest hrow
      obtain ⟨x', s', hfetch⟩ := ih hrows' hrest₁
      have hlength : (a.map some).length = row'.length := by
        rw [length_map, hlen hrest a mem_cons_self, hwidth]
      obtain rfl := htuples.eq_of_length hlength
      exact ⟨x', s', by simp [Executor.fetch, hnext, hfetch, replies]⟩

theorem Chained.fetch_eq (h : Chained n s 0 plan hs n outs) : ∃ N, ∀ fuel ≥ N, ∃ x s',
      (plan.executor fuel).execOpen plan.new s = .ok (.ok, x, s') ∧
      ∀ rows : List TupleRow, (∀ row ∈ rows, row.length = n) →
        ∃ x' s'', (plan.executor fuel).fetch rows x s' = .ok (replies (outs.map (List.map some)) rows, x', s'') := by
  obtain ⟨N, hN⟩ := h.opens le_rfl
  refine ⟨N, fun fuel hfuel => ?_⟩
  obtain ⟨rest, x, s', hsupplies, hrows, hopen, hrest, -⟩ := hN fuel hfuel
  refine ⟨x, s', hopen, fun rows hwidth => ?_⟩
  exact hsupplies.fetch_eq (fun hrest a ha => (hrows hrest a ha).2) hwidth hrest

end Dbms18
