import Mathlib.Data.List.Induction
import Dbms18.LevelDb.DbIterWalks
import Dbms18.Storage.LevelDb

/-!
# The entries of a sequence of writes

A write is stored as an entry: its key with its sequence number and its kind, and its value. Wherever the entries of
some writes lie, a reader that goes through them in order finds of every key what the writes up to its sequence number
leave (`getElem?_write_upTo`): the versions of a key come from the newest to the oldest.
-/

namespace Dbms18.LevelDb

open List Std Versions

/-- The type and the value a write is stored with. -/
def opType : WriteOp → ValueType
  | .put _ _ => .value
  | .delete _ => .deletion

def opBytes : WriteOp → Bytes
  | .put _ v => v
  | .delete _ => []

def entryOf (w : WriteOp × Nat) : Entry := (.ofParsed ⟨w.1.key, w.2, opType w.1⟩, opBytes w.1)

/-- The writes that a reader at `s` sees. -/
def upTo (s : Nat) (ws : List (WriteOp × Nat)) : List WriteOp := (ws.filter fun w => w.2 ≤ s).map Prod.fst

variable {s : Nat} {k : Bytes} {e : Entry} {es all : List Entry} {ws : List (WriteOp × Nat)} {w : WriteOp × Nat}

/-! ## What is found of a key -/

theorem shows_of_parse {ikey : ParsedInternalKey} (hp : e.1.parse = some ikey) :
    shows s e = if ikey.sequence ≤ s then some (ikey.userKey, if ikey.type = .value then some e.2 else none) else none := by
  rw [shows, hp, Option.filter_some]
  by_cases h : ikey.sequence ≤ s
  · rw [if_pos (decide_eq_true h), if_pos h, Option.map_some]
  · rw [if_neg (by simpa using h), if_neg h, Option.map_none]

theorem shows_entryOf (hw : w.2 ≤ kMaxSequenceNumber) :
    shows s (entryOf w) = if w.2 ≤ s then some (w.1.key, w.1.value) else none := by
  have hparse : (entryOf w).1.parse = some ⟨w.1.key, w.2, opType w.1⟩ := InternalKey.parse_ofParsed hw
  have hvalue : (if opType w.1 = .value then some (opBytes w.1) else none) = w.1.value := by
    cases w.1 <;> rfl
  rw [shows_of_parse hparse]
  exact congrArg (fun v => if w.2 ≤ s then some (w.1.key, v) else none) hvalue

theorem lookup_cons_of_ne {B : List Entry} (h : e.1.userKey ≠ k) : lookup (shows s) k (e :: B) = lookup (shows s) k B := by
  cases hs : shows s e with
  | none => exact lookup_cons_of_none hs
  | some r =>
    obtain ⟨k', o⟩ := r
    rw [lookup_cons_of_some hs, if_neg]
    rintro rfl
    exact h (userKey_of_shows hs)

/-! ## Versions in order -/

/-- The versions of each key are in order, the newest first. -/
def NewestFirst (es : List Entry) : Prop :=
  es.Pairwise fun a b => a.1.userKey = b.1.userKey → InternalKey.compare a.1 b.1 = .lt

theorem InOrder.newestFirst (h : InOrder es) : NewestFirst es := by
  refine List.Pairwise.imp ?_ h
  intro a b hab _
  exact hab

theorem lookup_filter_userKey : lookup (shows s) k (es.filter fun e => e.1.userKey = k) = lookup (shows s) k es := by
  induction es with
  | nil => rfl
  | cons e es ih =>
    by_cases h : e.1.userKey = k
    · rw [filter_cons_of_pos (by simpa using h), Versions.lookup_cons, Versions.lookup_cons, ih]
    · rw [filter_cons_of_neg (by simpa using h), lookup_cons_of_ne h, ih]

theorem NewestFirst.pairwise_filter (h : NewestFirst es) :
    (es.filter fun e => e.1.userKey = k).Pairwise fun a b => InternalKey.compare a.1 b.1 = .lt := by
  refine (List.Pairwise.filter _ h).imp_of_mem fun {a b} ha hb hab => hab ?_
  rw [of_decide_eq_true (mem_filter.1 ha).2, of_decide_eq_true (mem_filter.1 hb).2]

theorem lookup_of_perm (hperm : all.Perm es) (hall : NewestFirst all) (hes : NewestFirst es) :
    lookup (shows s) k all = lookup (shows s) k es := by
  have heq : (all.filter fun e => e.1.userKey = k) = es.filter fun e => e.1.userKey = k := by
    refine (hperm.filter _).eq_of_pairwise (fun a b _ _ hlt hlt' => ?_) hall.pairwise_filter hes.pairwise_filter
    have hrefl : InternalKey.compare a.1 a.1 = .eq := ReflCmp.compare_self
    rw [TransCmp.lt_trans hlt hlt'] at hrefl
    cases hrefl
  rw [← lookup_filter_userKey, heq, lookup_filter_userKey]

/-! ## Writes -/

structure Numbered (ws : List (WriteOp × Nat)) : Prop where
  increasing : ws.Pairwise fun a b => a.2 < b.2
  le : ∀ w ∈ ws, w.2 ≤ kMaxSequenceNumber

theorem Numbered.append_zipIdx (h : Numbered ws) {n : Nat} (hless : ∀ w ∈ ws, w.2 < n) {ops : List WriteOp}
    (hn : n + ops.length ≤ kMaxSequenceNumber + 1) : Numbered (ws ++ ops.zipIdx n) := by
  have hnew : ∀ w ∈ ops.zipIdx n, n ≤ w.2 ∧ w.2 < n + ops.length := fun w hw =>
    ⟨(mem_zipIdx hw).1, (mem_zipIdx hw).2.1⟩
  have hrange : (ops.zipIdx n).Pairwise fun a b => a.2 < b.2 := by
    have hlt : (List.range' n ops.length).Pairwise (· < ·) := pairwise_lt_range' ..
    rwa [← zipIdx_map_snd n ops, pairwise_map] at hlt
  refine ⟨pairwise_append.2 ⟨h.increasing, hrange, fun a ha b hb => ?_⟩, fun w hw => ?_⟩
  · exact (hless a ha).trans_le (hnew b hb).1
  · rcases mem_append.1 hw with hw | hw
    · exact h.le w hw
    · exact Nat.le_of_lt_succ ((hnew w hw).2.trans_le hn)

theorem compare_entryOf {a b : WriteOp × Nat} (ha : a.2 ≤ kMaxSequenceNumber) (hb : b.2 ≤ kMaxSequenceNumber) (hlt : a.2 < b.2)
    (huser : (entryOf b).1.userKey = (entryOf a).1.userKey) : InternalKey.compare (entryOf b).1 (entryOf a).1 = .lt := by
  refine InternalKey.compare_eq_lt_iff.2 (.inr ⟨huser, ?_⟩)
  have htag := (opType a.1).toNat_lt
  have hab : ((a.2 : Nat) + 1) * 256 ≤ b.2 * 256 := Nat.mul_le_mul_right 256 hlt
  rw [entryOf, entryOf, InternalKey.tag_ofParsed ha, InternalKey.tag_ofParsed hb]
  dsimp only
  omega

theorem Numbered.newestFirst (h : Numbered ws) : NewestFirst (ws.reverse.map entryOf) := by
  rw [NewestFirst, pairwise_map, pairwise_reverse]
  exact h.increasing.imp_of_mem fun {a b} ha hb hlt huser => compare_entryOf (h.le a ha) (h.le b hb) hlt huser

theorem Numbered.newer {wt wn : List (WriteOp × Nat)} (h : Numbered (wt ++ wn)) :
    ∀ a ∈ wn.map entryOf, ∀ b ∈ wt.map entryOf, a.1.userKey = b.1.userKey → InternalKey.compare a.1 b.1 = .lt := by
  intro a ha b hb huser
  obtain ⟨wa, hwa, rfl⟩ := mem_map.1 ha
  obtain ⟨wb, hwb, rfl⟩ := mem_map.1 hb
  exact compare_entryOf (h.le wb (mem_append_left _ hwb)) (h.le wa (mem_append_right _ hwa))
    ((pairwise_append.1 h.increasing).2.2 wb hwb wa hwa) huser

theorem exists_inOrder (hne : all.Pairwise fun a b => InternalKey.compare a.1 b.1 ≠ .eq) : ∃ es, InOrder es ∧ es.Perm all := by
  have htrans : ∀ a b c : Entry, (InternalKey.compare a.1 b.1).isLE → (InternalKey.compare b.1 c.1).isLE →
      (InternalKey.compare a.1 c.1).isLE := fun _ _ _ => TransCmp.isLE_trans
  have htotal : ∀ a b : Entry, ((InternalKey.compare a.1 b.1).isLE || (InternalKey.compare b.1 a.1).isLE) = true := by
    intro a b
    rw [show InternalKey.compare b.1 a.1 = _ from OrientedCmp.eq_swap]
    cases InternalKey.compare a.1 b.1 <;> rfl
  have hperm := mergeSort_perm all fun a b => (InternalKey.compare a.1 b.1).isLE
  have hle := pairwise_mergeSort htrans htotal all
  refine ⟨_, List.Pairwise.imp ?_ (hle.and ((hperm.pairwise_iff fun hab => ?_).2 hne)), hperm⟩
  · rintro a b ⟨hle, hne⟩
    exact (Ordering.isLE_iff_eq_lt_or_eq_eq.1 hle).resolve_right hne
  · rwa [Ne, OrientedCmp.eq_comm]

theorem Numbered.distinct (h : Numbered ws) :
    (ws.map entryOf).Pairwise fun a b => InternalKey.compare a.1 b.1 ≠ .eq := by
  refine pairwise_map.2 (h.increasing.imp_of_mem fun {a b} ha hb hlt heq => Nat.ne_of_lt hlt ?_)
  have hseq := congrArg InternalKey.sequence (LawfulEqCmp.eq_of_compare heq)
  rwa [entryOf, entryOf, InternalKey.sequence_ofParsed (h.le a ha), InternalKey.sequence_ofParsed (h.le b hb)] at hseq

theorem upTo_append (ws ws' : List (WriteOp × Nat)) : upTo s (ws ++ ws') = upTo s ws ++ upTo s ws' := by
  rw [upTo, filter_append, map_append]
  rfl

theorem lookup_reverse (h : ∀ w ∈ ws, w.2 ≤ kMaxSequenceNumber) :
    lookup (shows s) k (ws.reverse.map entryOf) = Overlay.last k (upTo s ws) := by
  induction ws using List.reverseRecOn with
  | nil => rfl
  | append_singleton ws w ih =>
    obtain ⟨hws, hw⟩ := forall_mem_append.1 h
    have hshows := shows_entryOf (s := s) (hw w mem_cons_self)
    rw [reverse_concat, map_cons, upTo_append, Overlay.last_append]
    by_cases hs : w.2 ≤ s
    · rw [if_pos hs] at hshows
      rw [lookup_cons_of_some hshows, ih hws]
      simp only [upTo, hs, decide_true, filter_cons_of_pos, filter_nil, map_cons, map_nil, Overlay.last,
        Option.none_or]
      split <;> rfl
    · rw [if_neg hs] at hshows
      rw [lookup_cons_of_none hshows, ih hws]
      simp [upTo, hs, Overlay.last]

/-- A reader at `s` of the entries of some writes, in order, finds of every key what the writes up to `s` leave. -/
theorem getElem?_write_upTo (hes : InOrder es) (hperm : es.Perm (ws.map entryOf)) (hws : Numbered ws) (s : Nat) (k : Bytes) :
    (Database.write ∅ (upTo s ws))[k]? = (lookup (shows s) k es).join := by
  have hreverse : es.Perm (ws.reverse.map entryOf) := hperm.trans (ws.reverse_perm.map entryOf).symm
  rw [lookup_of_perm hreverse hes.newestFirst hws.newestFirst, lookup_reverse hws.le, Database.write, Overlay.getElem?_overlay]
  cases Overlay.last k (upTo s ws) with
  | none => simp
  | some o => rfl

end Dbms18.LevelDb
