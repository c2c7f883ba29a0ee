import Dbms18.LevelDb.Entries
import Dbms18.LevelDb.SkipListReaders
import Dbms18.LevelDb.WriteBatch

/-!
# The memtable (`db/memtable.cc`, `MemTableInserter` in `db/write_batch.cc`)

A memtable is a skip list of encoded entries: the internal key and the value, each with its length before it. The list
compares the internal keys that it decodes. Lengths are written as numbers of 32 bits, so an entry is read back as it
was if its internal key and its value are shorter than `2 ^ 32` bytes; a longer one is cut (`encodeEntry`), and so is
the target of a `Seek`.
-/

namespace Dbms18.LevelDb

open List Std Versions Iter SkipList

abbrev MemTable := SkipList Bytes

namespace MemTable

/-! ## Entries -/

/-- `GetLengthPrefixedSlice` of a pointer into an entry: the slice, and what follows it. -/
def sliceAt (data : Bytes) : Res (Bytes × Bytes) := Res.getD (getLengthPrefixedSlice.run data) .outOfBounds

def entryKey (data : Bytes) : Res InternalKey := do
  let (rep, _) ← sliceAt data
  if h : 8 ≤ rep.length then return ⟨rep, h⟩ else .error .assertion

def entryValue (data : Bytes) : Res Bytes := do
  let (_, rest) ← sliceAt data
  let (value, _) ← sliceAt rest
  return value

/-- The key that `KeyComparator` compares. Only encoded entries and encoded targets are compared; the source would read
beyond the end of anything else. -/
def comparedKey (data : Bytes) : InternalKey := (entryKey data).toOption.getD (.pack [] 0)

/-- `MemTable::KeyComparator`. -/
def entryCompare (a b : Bytes) : Ordering := InternalKey.compare (comparedKey a) (comparedKey b)

instance : TransCmp entryCompare where
  eq_swap {a b} := (OrientedCmp.eq_swap : InternalKey.compare (comparedKey a) (comparedKey b) = _)
  isLE_trans {a _ c} hab hbc :=
    (TransCmp.isLE_trans hab hbc : (InternalKey.compare (comparedKey a) (comparedKey c)).isLE = true)

/-- What `Add` writes; `EncodeVarint32` takes an `uint32_t`. -/
def encodeEntry (e : Entry) : Bytes :=
  encodeVarint32 (e.1.rep.length % 0x100000000) ++ e.1.rep ++ (encodeVarint32 (e.2.length % 0x100000000) ++ e.2)

/-- `EncodeKey`. -/
def encodeKey (target : InternalKey) : Bytes := putLengthPrefixedSlice [] target.rep

def passes (m : MemTable) : Nat := m.nodes.length + kMaxHeight

def add (m : MemTable) (s : Nat) (type : ValueType) (key value : Bytes) : Res MemTable := do
  let e : Entry := (InternalKey.pack key (s <<< 8 ||| type.toNat), value)
  let encodedLen := varintLength e.1.rep.length + e.1.rep.length + varintLength value.length + value.length
  Res.check ((encodeEntry e).length = encodedLen) .assertion
  m.insert entryCompare m.passes (encodeEntry e)

/-- `MemTableIterator`, on the memtable of its state. -/
def asIter : Iter (MemTable × Iterator) InternalKey Bytes where
  valid s := s.2.isSome
  key s := do entryKey (← Iterator.key s.1 s.2)
  value s := do entryValue (← Iterator.key s.1 s.2)
  seekToFirst s := do return (s.1, ← Iterator.seekToFirst s.1)
  seekToLast s := do return (s.1, ← Iterator.seekToLast s.1 s.1.passes)
  accepts target := target.rep.length < 0x100000000
  seek target s := do return (s.1, ← Iterator.seek entryCompare s.1 s.1.passes (encodeKey target))
  next s := do return (s.1, ← Iterator.next s.1 s.2)
  prev s := do return (s.1, ← Iterator.prev entryCompare s.1 s.1.passes s.2)

def newIterator (m : MemTable) : MemTable × Iterator := (m, none)

/-- `MemTableInserter`, with the next sequence number. -/
def inserter : Handler (Nat × MemTable) where
  put key value := fun (s, m) => do return (s + 1, ← m.add s .value key value)
  delete key := fun (s, m) => do return (s + 1, ← m.add s .deletion key [])

/-- `WriteBatchInternal::InsertInto`. -/
def insertInto (b : WriteBatch) (m : MemTable) : Res (Status × Nat × MemTable) := b.iterate inserter (b.sequence, m)

/-! ## Entries are read back -/

structure FitsEntry (e : Entry) : Prop where
  key : e.1.rep.length < 2 ^ 32
  value : e.2.length < 2 ^ 32

variable {m m' : MemTable} {e : Entry} {es : List Entry} {order : List (Bytes × Nat)}

theorem encodeEntry_eq (h : FitsEntry e) : encodeEntry e = lengthPrefixed e.1.rep ++ lengthPrefixed e.2 := by
  have hkey : e.1.rep.length % 0x100000000 = e.1.rep.length := Nat.mod_eq_of_lt h.key
  have hvalue : e.2.length % 0x100000000 = e.2.length := Nat.mod_eq_of_lt h.value
  rw [encodeEntry, hkey, hvalue, encodeVarint32_eq h.key, encodeVarint32_eq h.value]
  rfl

theorem sliceAt_lengthPrefixed {value : Bytes} (h : value.length < 2 ^ 32) (rest : Bytes) :
    sliceAt (lengthPrefixed value ++ rest) = .ok (value, rest) := by
  rw [sliceAt, reads_getLengthPrefixedSlice h rest, Res.getD_some]

theorem entryKey_lengthPrefixed {k : InternalKey} (h : k.rep.length < 2 ^ 32) (rest : Bytes) :
    entryKey (lengthPrefixed k.rep ++ rest) = .ok k := by
  rw [entryKey, sliceAt_lengthPrefixed h, Res.ok_bind]
  exact dif_pos k.size

theorem entryKey_encodeEntry (h : FitsEntry e) : entryKey (encodeEntry e) = .ok e.1 := by
  rw [encodeEntry_eq h, entryKey_lengthPrefixed h.key]

theorem entryValue_encodeEntry (h : FitsEntry e) : entryValue (encodeEntry e) = .ok e.2 := by
  have hvalue := sliceAt_lengthPrefixed h.value []
  rw [append_nil] at hvalue
  rw [entryValue, encodeEntry_eq h, sliceAt_lengthPrefixed h.key, Res.ok_bind]
  dsimp only
  rw [hvalue]
  rfl

theorem comparedKey_encodeEntry (h : FitsEntry e) : comparedKey (encodeEntry e) = e.1 := by
  rw [comparedKey, entryKey_encodeEntry h]
  rfl

theorem comparedKey_encodeKey {k : InternalKey} (h : k.rep.length < 2 ^ 32) : comparedKey (encodeKey k) = k := by
  have hkey := entryKey_lengthPrefixed h []
  rw [append_nil] at hkey
  rw [comparedKey, encodeKey, putLengthPrefixedSlice_eq [] h, nil_append, hkey]
  rfl

/-! ## What a memtable holds -/

/-- The memtable holds the entries `es`, linked in this order. -/
def Holds (m : MemTable) (es : List Entry) : Prop :=
  ∃ order, Linked entryCompare m order m.levels ∧ order.map Prod.fst = es.map encodeEntry ∧ ∀ e ∈ es, FitsEntry e

theorem holds_new : Holds new [] := ⟨[], linked_new, rfl, by simp⟩

theorem Holds.length_le (h : Holds m es) : es.length ≤ m.nodes.length := by
  obtain ⟨order, hlinked, heq, -⟩ := h
  have hlen : order.length = es.length := by simpa using congrArg List.length heq
  exact hlen ▸ hlinked.length_le

theorem Holds.inOrder (h : Holds m es) : InOrder es := by
  obtain ⟨order, hlinked, heq, hfits⟩ := h
  have hsorted : (es.map encodeEntry).Pairwise fun a b => entryCompare a b = .lt := by
    rw [← heq, pairwise_map]
    exact hlinked.sorted
  refine (pairwise_map.1 hsorted).imp_of_mem fun {a b} ha hb hlt => ?_
  rwa [entryCompare, comparedKey_encodeEntry (hfits a ha), comparedKey_encodeEntry (hfits b hb)] at hlt

theorem lowerBound_encoded {target : InternalKey} (htarget : target.rep.length < 2 ^ 32) (hfits : ∀ e ∈ es, FitsEntry e)
    (heq : order.map Prod.fst = es.map encodeEntry) :
    lowerBound entryCompare (encodeKey target) order = lowerBound InternalKey.compare target es := by
  induction es generalizing order with
  | nil =>
    obtain rfl := map_eq_nil_iff.1 heq
    rfl
  | cons e es ih =>
    obtain ⟨x, order, rfl, hx, hrest⟩ := map_eq_cons_iff.1 heq
    obtain ⟨he, hes⟩ := forall_mem_cons.1 hfits
    have hcmp : entryCompare x.1 (encodeKey target) = InternalKey.compare e.1 target := by
      rw [hx, entryCompare, comparedKey_encodeEntry he, comparedKey_encodeKey htarget]
    have htail := ih hes hrest
    rw [lowerBound, lowerBound] at htail ⊢
    by_cases hlt : InternalKey.compare e.1 target = .lt
    · rw [takeWhile_cons_of_pos (by simpa [hcmp] using hlt), takeWhile_cons_of_pos (by simpa using hlt),
        length_cons, length_cons, htail]
    · rw [takeWhile_cons_of_neg (by simpa [hcmp] using hlt), takeWhile_cons_of_neg (by simpa using hlt)]
      rfl

theorem moved {r : Res Iterator} {node : Iterator} (h : r = .ok node) : (do return (m, ← r)) = (.ok (m, node) : Res _) := by
  rw [h]
  rfl

theorem Holds.standsAt (h : Holds m es) : asIter.StandsAt InternalKey.compare es (newIterator m) es.length := by
  obtain ⟨order, hlinked, heq, hfits⟩ := h
  have hlen : order.length = es.length := by simpa using congrArg List.length heq
  have hfuel : order.length + kMaxHeight ≤ m.passes := Nat.add_le_add_right hlinked.length_le kMaxHeight
  have hbefore : ∀ i, before order i = before es i := fun i => by rw [before, before, hlen]
  have hkey : ∀ {i e}, es[i]? = some e → Iterator.key m (nodeAt order i) = .ok (encodeEntry e) := by
    intro i e he
    have hget : (order.map Prod.fst)[i]? = some (encodeEntry e) := by rw [heq, getElem?_map, he]; rfl
    rw [getElem?_map, Option.map_eq_some_iff] at hget
    obtain ⟨x, hx, hfst⟩ := hget
    rw [hlinked.iterator_key hx, hfst]
  refine ⟨fun s i => s = (m, nodeAt order i), ⟨?_, ?_, ?_, ?_, ?_, ?_, ?_, ?_⟩, ?_⟩
  · rintro _ i rfl
    rw [Bool.eq_iff_iff]
    simp [asIter, nodeAt, hlen]
  · rintro _ i e rfl he
    change (Iterator.key m (nodeAt order i) >>= entryKey) = _
    rw [hkey he, Res.ok_bind, entryKey_encodeEntry (hfits e (mem_of_getElem? he))]
  · rintro _ i e rfl he
    change (Iterator.key m (nodeAt order i) >>= entryValue) = _
    rw [hkey he, Res.ok_bind, entryValue_encodeEntry (hfits e (mem_of_getElem? he))]
  · rintro _ i rfl
    exact ⟨_, moved hlinked.iterator_seekToFirst, rfl⟩
  · rintro _ i rfl
    refine ⟨_, moved (hlinked.iterator_seekToLast hfuel), ?_⟩
    rw [hbefore, hlen]
  · rintro _ i rfl target haccepts
    refine ⟨_, moved (hlinked.iterator_seek hfuel (encodeKey target)), ?_⟩
    rw [lowerBound_encoded haccepts hfits heq]
  · rintro _ i rfl hi
    exact ⟨_, moved (hlinked.iterator_next (hlen ▸ hi)), rfl⟩
  · rintro _ i rfl hi
    exact ⟨_, moved (hlinked.iterator_prev hfuel (hlen ▸ hi)), by rw [hbefore]⟩
  · exact congrArg (Prod.mk m) (by simp [nodeAt, hlen])

/-! ## Insertion -/

theorem length_encodeEntry (h : FitsEntry e) :
    (encodeEntry e).length = varintLength e.1.rep.length + e.1.rep.length + varintLength e.2.length + e.2.length := by
  rw [encodeEntry_eq h, lengthPrefixed, lengthPrefixed, varintLength_eq, varintLength_eq]
  simp only [length_append]
  omega

theorem Holds.insert (h : Holds m es) (he : FitsEntry e) (hnew : ∀ x ∈ es, x.1 ≠ e.1) :
    ∃ m' es', m.insert entryCompare m.passes (encodeEntry e) = .ok m' ∧ Holds m' es' ∧ es'.Perm (e :: es) := by
  obtain ⟨order, hlinked, heq, hfits⟩ := h
  have hnew' : ∀ x ∈ order, entryCompare (encodeEntry e) x.1 ≠ .eq := by
    intro x hx hcmp
    obtain ⟨e', he', hx'⟩ := mem_map.1 (heq ▸ mem_map_of_mem hx)
    rw [← hx', entryCompare, comparedKey_encodeEntry he, comparedKey_encodeEntry (hfits e' he')] at hcmp
    exact hnew e' he' (LawfulEqCmp.eq_of_compare hcmp).symm
  obtain ⟨P, S, rfl, hP, hS⟩ := hlinked.exists_cut_of_new hnew'
  obtain ⟨m', n, hinsert, hlinked', -⟩ := insert_eq hlinked hP hS (Nat.add_le_add_right hlinked.length_le kMaxHeight)
  rw [map_append] at heq
  obtain ⟨es₁, es₂, rfl, hes₁, hes₂⟩ := map_eq_append_iff.1 heq.symm
  refine ⟨m', es₁ ++ e :: es₂, hinsert, ⟨_, hlinked', ?_, fun x hx => ?_⟩, perm_middle⟩
  · rw [map_append, map_append, map_cons, map_cons, hes₁, hes₂]
  · rcases mem_cons.1 (perm_middle.subset hx) with rfl | hx
    · exact he
    · exact hfits x hx

structure Storable (op : WriteOp) : Prop where
  key : op.key.length + 8 < 2 ^ 32
  value : (opBytes op).length < 2 ^ 32

theorem Storable.fits {op : WriteOp} (h : Storable op) : Fits op := by
  have hkey := h.key
  cases op with
  | put k v => exact ⟨by change k.length + 8 < _ at hkey; omega, h.value⟩
  | delete k => exact (by omega : k.length < k.length + 8).trans hkey

theorem Storable.fitsEntry {w : WriteOp × Nat} (h : Storable w.1) : FitsEntry (entryOf w) := by
  refine ⟨?_, h.value⟩
  rw [entryOf, InternalKey.length_ofParsed]
  exact h.key

def Written (m : MemTable) (ws : List (WriteOp × Nat)) : Prop := ∃ es, Holds m es ∧ es.Perm (ws.map entryOf)

variable {ws : List (WriteOp × Nat)}

theorem written_new : Written new [] := ⟨[], holds_new, .refl _⟩

theorem add_eq {op : WriteOp} {n : Nat} (h : FitsEntry (entryOf (op, n))) :
    m.add n (opType op) op.key (opBytes op) = m.insert entryCompare m.passes (encodeEntry (entryOf (op, n))) := by
  have hpack : InternalKey.pack op.key (n <<< 8 ||| (opType op).toNat) = (entryOf (op, n)).1 := by
    rw [shiftLeft_or_type]
    rfl
  have hpair : ((entryOf (op, n)).1, opBytes op) = entryOf (op, n) := rfl
  rw [MemTable.add, hpack, hpair]
  exact congrArg (· >>= fun _ => _) (Res.check_of (length_encodeEntry h))

theorem Written.add (h : Written m ws) {op : WriteOp} (hop : Storable op) {n : Nat} (hn : n ≤ kMaxSequenceNumber)
    (hless : ∀ w ∈ ws, w.2 < n) :
    ∃ m', m.add n (opType op) op.key (opBytes op) = .ok m' ∧ Written m' (ws ++ [(op, n)]) := by
  obtain ⟨es, hholds, hperm⟩ := h
  have hfits : FitsEntry (entryOf (op, n)) := Storable.fitsEntry (w := (op, n)) hop
  have hnew : ∀ x ∈ es, x.1 ≠ (entryOf (op, n)).1 := by
    intro x hx heq
    obtain ⟨w, hw, rfl⟩ := mem_map.1 (hperm.subset hx)
    have hlt := hless w hw
    have hseq := congrArg InternalKey.sequence heq
    rw [entryOf, entryOf, InternalKey.sequence_ofParsed (hlt.le.trans hn), InternalKey.sequence_ofParsed hn] at hseq
    exact Nat.ne_of_lt hlt hseq
  obtain ⟨m', es', hinsert, hholds', hperm'⟩ := hholds.insert hfits hnew
  refine ⟨m', ?_, es', hholds', hperm'.trans ?_⟩
  · rw [add_eq hfits, hinsert]
  · rw [map_append]
    exact (hperm.cons _).trans (perm_append_singleton ..).symm

theorem apply_inserter (op : WriteOp) (s : Nat) (m : MemTable) :
    inserter.apply (s, m) op = (m.add s (opType op) op.key (opBytes op) >>= fun m' => .ok (s + 1, m')) := by
  cases op <;> rfl

theorem Written.foldlM_inserter (h : Written m ws) {ops : List WriteOp} (hops : ∀ op ∈ ops, Storable op) {n : Nat}
    (hn : n + ops.length ≤ kMaxSequenceNumber + 1) (hless : ∀ w ∈ ws, w.2 < n) :
    ∃ m', ops.foldlM inserter.apply (n, m) = .ok (n + ops.length, m') ∧ Written m' (ws ++ ops.zipIdx n) := by
  induction ops generalizing m ws n with
  | nil => exact ⟨m, rfl, by simpa using h⟩
  | cons op ops ih =>
    obtain ⟨hop, hops⟩ := forall_mem_cons.1 hops
    rw [length_cons] at hn
    obtain ⟨m₁, hadd, h₁⟩ := h.add hop (by omega) hless
    have hless₁ : ∀ w ∈ ws ++ [(op, n)], w.2 < n + 1 := by
      intro w hw
      rcases mem_append.1 hw with hw | hw
      · exact Nat.lt_succ_of_lt (hless w hw)
      · rw [mem_singleton.1 hw]
        exact Nat.lt_succ_self n
    obtain ⟨m', hfold, h'⟩ := ih h₁ hops (by omega) hless₁
    refine ⟨m', ?_, by rwa [append_assoc] at h'⟩
    rw [foldlM_cons, apply_inserter, hadd, Res.ok_bind, Res.ok_bind, hfold, length_cons, Nat.add_right_comm,
      Nat.add_assoc]

theorem sequence_setSequence (b : WriteBatch) {seq : Nat} (h : seq < 2 ^ 64) : (b.setSequence seq).sequence = seq := by
  have hlen : (encodeFixed64 seq).length = 8 := length_leBytes 8 seq
  have hin : 0 + (encodeFixed64 seq).length ≤ b.rep.length := Nat.le_trans (by rw [hlen]; decide) b.header
  have hread := Block.read_write_self hin
  rw [hlen] at hread
  rw [WriteBatch.sequence, WriteBatch.setSequence, hread, encodeFixed64, ofLE_leBytes]
  exact Nat.mod_eq_of_lt h

theorem Written.insertInto (h : Written m ws) {b : WriteBatch} {ops : List WriteOp} (hb : WriteBatch.Built b ops)
    (hops : ∀ op ∈ ops, Storable op) (hcount : ops.length < 2 ^ 31) {n : Nat}
    (hn : n + ops.length ≤ kMaxSequenceNumber + 1) (hless : ∀ w ∈ ws, w.2 < n) :
    ∃ m', insertInto (b.setSequence n) m = .ok (.ok, n + ops.length, m') ∧ Written m' (ws ++ ops.zipIdx n) := by
  obtain ⟨m', hfold, h'⟩ := h.foldlM_inserter hops hn hless
  have hfits : ∀ op ∈ ops, Fits op := fun op hop => (hops op hop).fits
  have hholds := (hb.setSequence n).holds hfits (by omega)
  have hmax : kMaxSequenceNumber = 2 ^ 56 - 1 := by decide
  refine ⟨m', ?_, h'⟩
  rw [MemTable.insertInto, sequence_setSequence b (by omega), hholds.iterate hfits, hfold]
  rfl

end MemTable

end Dbms18.LevelDb
