import Dbms18.LevelDb.MergerWalks
import Dbms18.LevelDb.WriteQueue

/-!
# Iterators of the database

What `DB::NewIterator` returns is a `DBIter` over the iterators of the memtables and tables, merged
(`DBImpl::NewInternalIterator`). It does what the storage layer takes an iterator of the database to do (`Cursor`): it
goes through the records of the database as they were at the sequence number it was made with, and what is written
later does not change them (`snapshot_refines_cursor`).

Of a table only its entries and that an iterator goes through them are known here. Tables are not compacted, as if all
numbers belonged to snapshots that are still in use.
-/

namespace Dbms18

open List Iter

/-- A call of an iterator; `Next` and `Prev` must not be called off the records. -/
def Cursor.step (c : Cursor) : Call Bytes → Option Cursor
  | .seekToFirst => some c.seekToFirst
  | .seekToLast => some c.seekToLast
  | .seek target => some { c with pos := lowerBound compare target c.records }
  | .next => if c.valid then some c.next else none
  | .prev => if c.valid then some c.prev else none

theorem Cursor.step_eq (rs : List (Bytes × Bytes)) (i : Nat) (c : Call Bytes) :
    Cursor.step ⟨rs, i⟩ c = (move compare rs i c).map (Cursor.mk rs) := by
  cases c with
  | seekToFirst => rfl
  | seekToLast =>
    have hlast : before rs rs.length = rs.length - 1 := by
      unfold before
      split <;> omega
    rw [move, hlast]
    rfl
  | seek target => rfl
  | next => by_cases h : i < rs.length <;> simp [Cursor.step, move, Cursor.valid, Cursor.next, h]
  | prev => by_cases h : i < rs.length <;> simp [Cursor.step, move, Cursor.valid, Cursor.prev, before, h]

theorem Cursor.run_eq (rs : List (Bytes × Bytes)) (i : Nat) (calls : List (Call Bytes)) :
    calls.foldlM Cursor.step ⟨rs, i⟩ = (calls.foldlM (move compare rs) i).map (Cursor.mk rs) := by
  induction calls generalizing i with
  | nil => rfl
  | cons c calls ih =>
    rw [foldlM_cons, foldlM_cons, Cursor.step_eq]
    cases hc : move compare rs i c with
    | none => rfl
    | some j => exact ih j

namespace LevelDb

open Std Versions

structure ShowsCursor {σ : Type} (it : Iter σ InternalKey Bytes) (d : DBIter σ) (c : Cursor) : Prop where
  valid : d.valid = c.valid
  current : ∀ r, c.current = some r → d.key it = .ok r.1 ∧ d.value it = .ok r.2

section Cursors

variable {σ : Type} {it : Iter σ InternalKey Bytes} {es : List Entry} {sequence fuel j : Nat} {s : σ} {db : Database}
  {calls : List (Call Bytes)} {c : Cursor}

/-- A new `DBIter` does, call by call, what a cursor of the database does that its entries stand for. -/
theorem DBIter.refines_cursor (hes : InOrder es) (hseq : sequence ≤ kMaxSequenceNumber) (hfuel : es.length < fuel)
    (hs : DBIter.Inner it es s j) (hdb : ∀ k, db[k]? = (lookup (shows sequence) k es).join)
    (hadmits : ∀ c ∈ calls, (DBIter.asIter it sequence fuel).Admits c)
    (hcalls : calls.foldlM Cursor.step (Cursor.ofDatabase db) = some c) :
    ∃ d, calls.foldlM (DBIter.asIter it sequence fuel).call (DBIter.new s) = .ok d ∧ ShowsCursor it d c := by
  have hrecords : db.toList = records sequence es := map_toList_eq_view hes.ordered hdb
  rw [Cursor.ofDatabase, Cursor.run_eq, Option.map_eq_some_iff, hrecords] at hcalls
  obtain ⟨i, hmove, rfl⟩ := hcalls
  obtain ⟨d, hd, hvalid, hshow⟩ := (DBIter.standsAt_new hes hseq hfuel hs).run_shows hadmits hmove
  exact ⟨d, hd, hvalid, hshow⟩

/-- The iterator over any children (memtables, tables), merged: if the entries of the children stand for the database,
it does what a cursor of the database does. -/
theorem merged_refines_cursor {children : List σ} {Ls : List (List Entry)}
    (hm : MergingIterator.Merges InternalKey.compare Ls es) (haccepts : ∀ e ∈ es, it.accepts e.1)
    (hchildren : MergingIterator.All (fun s L => ∃ i, it.StandsAt InternalKey.compare L s i) children Ls)
    (hseq : sequence ≤ kMaxSequenceNumber) (hfuel : es.length < fuel) (hdb : ∀ k, db[k]? = (lookup (shows sequence) k es).join)
    (hadmits : ∀ c ∈ calls, (DBIter.asIter (MergedIterator.asIter it InternalKey.compare) sequence fuel).Admits c)
    (hcalls : calls.foldlM Cursor.step (Cursor.ofDatabase db) = some c) :
    ∃ m d, newMergingIterator it children = .ok m ∧
      calls.foldlM (DBIter.asIter (MergedIterator.asIter it InternalKey.compare) sequence fuel).call (DBIter.new m) = .ok d ∧
      ShowsCursor (MergedIterator.asIter it InternalKey.compare) d c := by
  obtain ⟨m, i, hm', hstands⟩ := MergingIterator.standsAt_newMergingIterator hm haccepts hchildren
  obtain ⟨d, hd, hshow⟩ := DBIter.refines_cursor hm.sorted hseq hfuel hstands hdb hadmits hcalls
  exact ⟨m, d, hm', hd, hshow⟩

end Cursors

def nineWrites : List (WriteOp × Nat) :=
  [(.put [4] [41], 1), (.put [1] [12], 2), (.put [2] [23], 3), (.delete [3], 4), (.put [1] [15], 5), (.put [3] [36], 6),
    (.delete [2], 7), (.put [4] [48], 8), (.put [1] [19], 9)]

def nineChildren : List (List Entry) :=
  [[0, 2, 4, 6, 8].filterMap (DBIter.nineEntries[·]?), [1, 3, 5, 7].filterMap (DBIter.nineEntries[·]?)]

theorem merged_refines_cursor_nine : ∃ m d,
    newMergingIterator (ofList InternalKey.compare) (nineChildren.map fun L => (L, 0)) = .ok m ∧
      [Call.seekToFirst, .next, .next, .prev, .prev, .next].foldlM
        (DBIter.asIter (MergedIterator.asIter (ofList InternalKey.compare) InternalKey.compare) 8 10).call
        (DBIter.new m) = .ok d ∧
      d.valid = true ∧ d.key (MergedIterator.asIter (ofList InternalKey.compare) InternalKey.compare) = .ok [3] ∧
        d.value (MergedIterator.asIter (ofList InternalKey.compare) InternalKey.compare) = .ok [36] := by
  have hes : InOrder DBIter.nineEntries := by
    unfold InOrder
    decide
  have hm : MergingIterator.Merges InternalKey.compare nineChildren DBIter.nineEntries := ⟨hes, by decide, by decide⟩
  have hws : Numbered nineWrites := ⟨by decide, by decide⟩
  have hdb := getElem?_write_upTo hes (by decide) hws 8
  have hrecords : (Database.write ∅ (upTo 8 nineWrites)).toList = [([1], [15]), ([3], [36]), ([4], [48])] :=
    (map_toList_eq_view hes.ordered hdb).trans (by decide)
  have hcalls : [Call.seekToFirst, .next, .next, .prev, .prev, .next].foldlM Cursor.step
      (Cursor.ofDatabase (Database.write ∅ (upTo 8 nineWrites))) = some ⟨[([1], [15]), ([3], [36]), ([4], [48])], 1⟩ := by
    rw [Cursor.ofDatabase, hrecords]
    rfl
  have hadmits : ∀ c ∈ [Call.seekToFirst, .next, .next, .prev, .prev, .next],
      (DBIter.asIter (MergedIterator.asIter (ofList InternalKey.compare) InternalKey.compare) 8 10).Admits c := by
    simp [Admits]
  obtain ⟨m, d, hmerged, hd, hshows⟩ := merged_refines_cursor hm (fun _ _ => trivial)
    (MergingIterator.all_ofList InternalKey.compare nineChildren) (by decide) (by decide : _ < 10) hdb hadmits hcalls
  exact ⟨m, d, hmerged, hd, hshows.valid, hshows.current _ rfl⟩

/-! ## Iterators of a database that is written to -/

/-- `NewInternalIterator`; the iterators of the tables are given. -/
def WriteQueue.newInternalIterator {τ : Type} (q : WriteQueue) (it : Iter τ InternalKey Bytes) (tables : List τ) :
    Res (MergedIterator (MemTable × SkipList.Iterator ⊕ τ) InternalKey) :=
  newMergingIterator (MemTable.asIter.sum it)
    (.inl (MemTable.newIterator q.mem) :: (q.imm.toList.map fun m => .inl (MemTable.newIterator m)) ++ tables.map .inr)

section Databases

variable {τ : Type} {it : Iter τ InternalKey Bytes} {tables : List τ} {q : WriteQueue} {ws : List (WriteOp × Nat)}
  {ops : Writer → List WriteOp}

theorem MemTable.Written.exists_standsAt {m : MemTable} (h : m.Written ws) (it : Iter τ InternalKey Bytes) :
    ∃ es, InOrder es ∧ es.Perm (ws.map entryOf) ∧ ∃ i,
      (MemTable.asIter.sum it).StandsAt InternalKey.compare es (.inl (MemTable.newIterator m)) i := by
  obtain ⟨es, hholds, hperm⟩ := h
  exact ⟨es, hholds.inOrder, hperm, _, hholds.standsAt.embed (embeds_inl _ _)⟩

theorem WriteQueue.flatten_perm {tables : List (List Entry)} {parts : List (List (WriteOp × Nat))}
    (h : List.Forall₂ WriteQueue.IsTable tables parts) : tables.flatten.Perm (parts.flatten.map entryOf) := by
  induction h with
  | nil => exact .refl _
  | cons htable _ ih =>
    rw [flatten_cons, flatten_cons, map_append]
    exact htable.perm.append ih

theorem WriteQueue.Places.exists_memEntries (h : q.Places ws) (it : Iter τ InternalKey Bytes) :
    ∃ wt wn, ∃ Ls : List (List Entry), ws = wt ++ wn ∧ q.tables.flatten.Perm (wt.map entryOf) ∧
      Ls.flatten.Perm (wn.map entryOf) ∧ (∀ L ∈ Ls, InOrder L) ∧
      List.Forall₂ (fun s L => ∃ i, (MemTable.asIter.sum it).StandsAt InternalKey.compare L s i)
        (.inl (MemTable.newIterator q.mem) :: q.imm.toList.map fun m => .inl (MemTable.newIterator m)) Ls := by
  obtain ⟨hparts, himm, hmem⟩ := h
  obtain ⟨em, hem, hpermm, hstandsm⟩ := hmem.exists_standsAt it
  cases hq : q.imm with
  | none =>
    rw [hq] at himm
    obtain rfl : _ = [] := himm
    rw [append_nil]
    refine ⟨_, _, [em], rfl, flatten_perm hparts, ?_, forall_mem_singleton.2 hem, .cons hstandsm .nil⟩
    rwa [flatten_singleton]
  | some m =>
    rw [hq] at himm
    obtain ⟨ei, hei, hpermi, hstandsi⟩ := MemTable.Written.exists_standsAt himm it
    refine ⟨_, _, [em, ei], append_assoc .., flatten_perm hparts, ?_,
      forall_mem_cons.2 ⟨hem, forall_mem_singleton.2 hei⟩, .cons hstandsm (.cons hstandsi .nil)⟩
    rw [flatten_cons, flatten_singleton, map_append]
    exact perm_append_comm.trans (hpermi.append hpermm)

/-- The iterator of the database over tables with the entries `Ts`, if with those of the memtables they stand for `db`. -/
theorem WriteQueue.refines_cursor {Ls Ts : List (List Entry)} {es : List Entry} {sequence fuel : Nat} {db : Database}
    {calls : List (Call Bytes)} {c : Cursor}
    (hmems : List.Forall₂ (fun s L => ∃ i, (MemTable.asIter.sum it).StandsAt InternalKey.compare L s i)
      (.inl (MemTable.newIterator q.mem) :: q.imm.toList.map fun m => .inl (MemTable.newIterator m)) Ls)
    (htables : List.Forall₂ (fun s L => ∃ i, it.StandsAt InternalKey.compare L s i) tables Ts)
    (hm : MergingIterator.Merges InternalKey.compare (Ls ++ Ts) es)
    (hkeys : ∀ k : InternalKey, k.rep.length < 2 ^ 32 → it.accepts k) (hes : ∀ e ∈ es, e.1.rep.length < 2 ^ 32)
    (hseq : sequence ≤ kMaxSequenceNumber) (hfuel : es.length < fuel) (hdb : ∀ k, db[k]? = (lookup (shows sequence) k es).join)
    (htargets : ∀ target, .seek target ∈ calls → target.length + 8 < 2 ^ 32)
    (hcalls : calls.foldlM Cursor.step (Cursor.ofDatabase db) = some c) :
    ∃ m d, q.newInternalIterator it tables = .ok m ∧
      calls.foldlM (DBIter.asIter (MergedIterator.asIter (MemTable.asIter.sum it) InternalKey.compare)
        sequence fuel).call (DBIter.new m) = .ok d ∧
      ShowsCursor (MergedIterator.asIter (MemTable.asIter.sum it) InternalKey.compare) d c := by
  have hchildren := rel_append hmems (forall₂_map_left_iff.2
    (htables.imp fun _ _ ⟨i, hi⟩ => ⟨i, hi.embed (embeds_inr MemTable.asIter it)⟩))
  have hadmits : ∀ c ∈ calls, (DBIter.asIter (MergedIterator.asIter (MemTable.asIter.sum it) InternalKey.compare)
      sequence fuel).Admits c := by
    intro c hc
    cases c with
    | seek target =>
      have htarget : (InternalKey.ofParsed ⟨target, sequence, kValueTypeForSeek⟩).rep.length < 2 ^ 32 := by
        rw [InternalKey.length_ofParsed]
        exact htargets target hc
      have hboth := And.intro htarget (hkeys _ htarget)
      exact ⟨trivial, hboth, hboth⟩
    | _ => trivial
  have haccepts : ∀ e ∈ es, (MemTable.asIter.sum it).accepts e.1 := fun e he => ⟨hes e he, hkeys _ (hes e he)⟩
  obtain ⟨m, i, hm', hstands⟩ :=
    MergingIterator.standsAt_newMergingIterator hm haccepts (MergingIterator.all_of_forall₂ hchildren)
  obtain ⟨d, hd, hshow⟩ := DBIter.refines_cursor hm.sorted hseq hfuel hstands hdb hadmits hcalls
  exact ⟨m, d, hm', hd, hshow⟩

theorem WriteQueue.Places.inOrder_tables (h : q.Places ws) : ∀ L ∈ q.tables, InOrder L := by
  obtain ⟨hparts, -, -⟩ := h
  exact ((forall₂_and_left _ _).1 (hparts.imp fun _ _ htable => ⟨htable.inOrder, htable⟩)).1

section Accepted

variable {arrived : List Writer} (h : WriteQueue.Ok ops arrived ws q)

include h

theorem WriteQueue.Ok.lastSequence_lt (haccept : WriteQueue.Acceptable ops arrived) : q.lastSequence < kMaxSequenceNumber := by
  have := h.length_lt haccept 0
  have hmax : kMaxSequenceNumber = 2 ^ 56 - 1 := by decide
  omega

theorem WriteQueue.Ok.length_rep (haccept : WriteQueue.Acceptable ops arrived) {e : Entry} (he : e ∈ ws.map entryOf) :
    e.1.rep.length < 2 ^ 32 := by
  obtain ⟨w, hw, rfl⟩ := mem_map.1 he
  exact (h.storable haccept hw).fitsEntry.key

theorem WriteQueue.Ok.length_le : ws.length ≤ (arrived.flatMap ops).length := by
  have := h.sublist.length_le
  rwa [length_map] at this

end Accepted

end Databases

end LevelDb

end Dbms18
