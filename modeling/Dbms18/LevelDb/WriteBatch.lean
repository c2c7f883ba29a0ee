import Dbms18.Lib.Lists
import Dbms18.Lib.Loop
import Dbms18.LevelDb.DbFormat
import Dbms18.Storage.LevelDb

/-!
# Write batches (`db/write_batch.cc`)

A batch is one string: eight bytes for the sequence number of its first operation, four for their count,
and then the operations one after another. `Iterate` hands the operations to a handler and checks the
count. The string of a batch never gets shorter than its header.

`Count` is an `int`; it is the number of operations as long as there are fewer than `2 ^ 31`.
-/

namespace Dbms18.LevelDb

open List Overlay

def kHeader : Nat := 12

structure WriteBatch where
  rep : Bytes
  header : kHeader ≤ rep.length

/-- `WriteBatch::Handler`. -/
structure Handler (σ : Type) where
  put : Bytes → Bytes → σ → Res σ
  delete : Bytes → σ → Res σ

namespace WriteBatch

def extend (b : WriteBatch) (bs : Bytes) : WriteBatch :=
  ⟨b.rep ++ bs, Nat.le_trans b.header (by simp)⟩

/-- The constructor, and `Clear`. -/
def clear : WriteBatch := ⟨List.replicate kHeader 0, by simp⟩

def count (b : WriteBatch) : Nat := ofLE (Block.read b.rep 8 4)

theorem write_header {b : WriteBatch} {off : Nat} {bs : Bytes} (h : off + bs.length ≤ kHeader) :
    (Block.write b.rep off bs).length = b.rep.length :=
  Block.length_write (Nat.le_trans h b.header)

def setCount (b : WriteBatch) (n : Nat) : WriteBatch :=
  ⟨Block.write b.rep 8 (encodeFixed32 n), by rw [write_header (by simp [encodeFixed32, kHeader])]; exact b.header⟩

def sequence (b : WriteBatch) : Nat := ofLE (Block.read b.rep 0 8)

def setSequence (b : WriteBatch) (seq : Nat) : WriteBatch :=
  ⟨Block.write b.rep 0 (encodeFixed64 seq), by rw [write_header (by simp [encodeFixed64, kHeader])]; exact b.header⟩

def put (b : WriteBatch) (key value : Bytes) : WriteBatch :=
  (b.setCount (b.count + 1)).extend
    (putLengthPrefixedSlice (putLengthPrefixedSlice [ValueType.value.toNat.toUInt8] key) value)

def delete (b : WriteBatch) (key : Bytes) : WriteBatch :=
  (b.setCount (b.count + 1)).extend (putLengthPrefixedSlice [ValueType.deletion.toNat.toUInt8] key)

def setContents (contents : Bytes) : Res WriteBatch :=
  if h : kHeader ≤ contents.length then .ok ⟨contents, h⟩ else .error .assertion

def byteSize (b : WriteBatch) : Nat := b.rep.length

def append (dst src : WriteBatch) : WriteBatch :=
  (dst.setCount (dst.count + src.count)).extend (src.rep.drop kHeader)

/-! ## Iterate -/

variable {σ : Type}

def getPut : Decoder (Bytes × Bytes) := do
  let key ← getLengthPrefixedSlice
  let value ← getLengthPrefixedSlice
  return (key, value)

/-- One pass of the loop, on what is left of the string, the number of operations found and the state of
the handler. -/
def iterateStep (handler : Handler σ) : Bytes × Nat × σ → Res (Bytes × Nat × σ ⊕ Status × Nat × σ)
  | ([], found, s) => return .inr (.ok, found, s)
  | (tag :: input, found, s) =>
    match ValueType.ofNat? tag.toNat with
    | some .value =>
      match getPut.run input with
      | some ((key, value), input) => return .inl (input, found + 1, ← handler.put key value s)
      | none => return .inr (.corruption (ascii "bad WriteBatch Put"), found + 1, s)
    | some .deletion =>
      match getLengthPrefixedSlice.run input with
      | some (key, input) => return .inl (input, found + 1, ← handler.delete key s)
      | none => return .inr (.corruption (ascii "bad WriteBatch Delete"), found + 1, s)
    | none => return .inr (.corruption (ascii "unknown WriteBatch tag"), found + 1, s)

/-- The end of `Iterate`: the loop's error, or the comparison of the operations found with the count. -/
def checkCount (b : WriteBatch) : Status × Nat × σ → Status × σ
  | (status, found, s) =>
    if status ≠ .ok then
      (status, s)
    else if found ≠ b.count then
      (.corruption (ascii "WriteBatch has wrong count"), s)
    else
      (.ok, s)

/-- `Iterate`. Every pass takes the tag at least, so the length of the string is fuel enough. -/
def iterate (b : WriteBatch) (handler : Handler σ) (s : σ) : Res (Status × σ) := do
  if b.rep.length < kHeader then
    return (.corruption (ascii "malformed WriteBatch (too small)"), s)
  return b.checkCount (← Res.loop (iterateStep handler) (b.rep.length + 1) (b.rep.drop kHeader, 0, s))

end WriteBatch

/-! ## What the string of a batch holds -/

def Handler.apply {σ : Type} (handler : Handler σ) (s : σ) : WriteOp → Res σ
  | .put k v => handler.put k v s
  | .delete k => handler.delete k s

def Fits : WriteOp → Prop
  | .put k v => k.length < 2 ^ 32 ∧ v.length < 2 ^ 32
  | .delete k => k.length < 2 ^ 32

def encodeOp : WriteOp → Bytes
  | .put k v => 1 :: (lengthPrefixed k ++ lengthPrefixed v)
  | .delete k => 0 :: lengthPrefixed k

namespace WriteBatch

variable {σ : Type} {handler : Handler σ} {s : σ} {b b' : WriteBatch} {ops ops' : List WriteOp}

structure Holds (b : WriteBatch) (ops : List WriteOp) : Prop where
  body : b.rep.drop kHeader = ops.flatMap encodeOp
  count : b.count = ops.length

theorem count_setCount (n : Nat) : (b.setCount n).count = n % 2 ^ 32 := by
  have hlen : (encodeFixed32 n).length = 4 := length_leBytes 4 n
  have hin : 8 + (encodeFixed32 n).length ≤ b.rep.length := Nat.le_trans (by rw [hlen]; decide) b.header
  have hread := Block.read_write_self hin
  rw [hlen] at hread
  rw [count, setCount, hread, encodeFixed32, ofLE_leBytes]
  rfl

theorem count_extend (bs : Bytes) : (b.extend bs).count = b.count := by
  have := b.header
  have hdrop : (b.rep ++ bs).drop 8 = b.rep.drop 8 ++ bs := drop_append_of_le_length (by simp_all [kHeader]; omega)
  rw [count, count, extend, Block.read, Block.read, hdrop, take_append_of_le_length]
  rw [length_drop]
  simp_all [kHeader]
  omega

variable {bs k v : Bytes}

theorem drop_write {off : Nat} (h : off + bs.length ≤ kHeader) :
    (Block.write b.rep off bs).drop kHeader = b.rep.drop kHeader := by
  have hread : Block.read (Block.write b.rep off bs) kHeader b.rep.length = Block.read b.rep kHeader b.rep.length :=
    Block.read_write_of_disjoint (Nat.le_trans h b.header) (.inr h)
  have hlen := write_header (b := b) h
  rwa [Block.read, Block.read, take_of_length_le (by rw [length_drop]; omega),
    take_of_length_le (by rw [length_drop]; omega)] at hread

theorem drop_extend (bs : Bytes) : (b.extend bs).rep.drop kHeader = b.rep.drop kHeader ++ bs :=
  drop_append_of_le_length b.header

theorem Holds.extend (h : Holds b ops) {n : Nat} (hn : n = (ops ++ ops').length) (hlt : n < 2 ^ 32)
    (hbs : bs = ops'.flatMap encodeOp) : Holds ((b.setCount n).extend bs) (ops ++ ops') where
  body := by
    rw [drop_extend, setCount, drop_write (by simp [encodeFixed32, kHeader]), h.body, flatMap_append, hbs]
  count := by
    rw [count_extend, count_setCount, Nat.mod_eq_of_lt hlt, hn]

theorem putLengthPrefixedSlice_put (h : Fits (.put k v)) :
    putLengthPrefixedSlice (putLengthPrefixedSlice [ValueType.value.toNat.toUInt8] k) v = encodeOp (.put k v) := by
  rw [putLengthPrefixedSlice_eq _ h.1, putLengthPrefixedSlice_eq _ h.2, append_assoc]
  rfl

theorem putLengthPrefixedSlice_delete (h : Fits (.delete k)) :
    putLengthPrefixedSlice [ValueType.deletion.toNat.toUInt8] k = encodeOp (.delete k) := by
  rw [putLengthPrefixedSlice_eq _ h]
  rfl

inductive Built : WriteBatch → List WriteOp → Prop
  | clear : Built .clear []
  | put {b : WriteBatch} {ops : List WriteOp} (k v : Bytes) (h : Built b ops) : Built (b.put k v) (ops ++ [.put k v])
  | delete {b : WriteBatch} {ops : List WriteOp} (k : Bytes) (h : Built b ops) : Built (b.delete k) (ops ++ [.delete k])
  | append {b b' : WriteBatch} {ops ops' : List WriteOp} (h : Built b ops) (h' : Built b' ops') :
      Built (b.append b') (ops ++ ops')
  | setSequence {b : WriteBatch} {ops : List WriteOp} (seq : Nat) (h : Built b ops) : Built (b.setSequence seq) ops

theorem Built.holds (h : Built b ops) (hfits : ∀ op ∈ ops, Fits op) (hcount : ops.length < 2 ^ 32) : Holds b ops := by
  induction h with
  | clear => exact ⟨rfl, by decide⟩
  | put k v h ih =>
    rw [length_append] at hcount
    have hb := ih (fun op hop => hfits op (mem_append_left _ hop)) (by omega)
    have hop : Fits (.put k v) := hfits _ (mem_append_right _ mem_cons_self)
    refine hb.extend ?_ ?_ ?_
    · rw [hb.count, length_append, length_singleton]
    · rwa [hb.count]
    · rw [putLengthPrefixedSlice_put hop, flatMap_singleton]
  | delete k h ih =>
    rw [length_append] at hcount
    have hb := ih (fun op hop => hfits op (mem_append_left _ hop)) (by omega)
    have hop : Fits (.delete k) := hfits _ (mem_append_right _ mem_cons_self)
    refine hb.extend ?_ ?_ ?_
    · rw [hb.count, length_append, length_singleton]
    · rwa [hb.count]
    · rw [putLengthPrefixedSlice_delete hop, flatMap_singleton]
  | append h h' ih ih' =>
    rw [length_append] at hcount
    have hb := ih (fun op hop => hfits op (mem_append_left _ hop)) (by omega)
    have hb' := ih' (fun op hop => hfits op (mem_append_right _ hop)) (by omega)
    refine hb.extend ?_ ?_ hb'.body
    · rw [hb.count, hb'.count, length_append]
    · rwa [hb.count, hb'.count]
  | setSequence seq h ih =>
    have hb := ih hfits hcount
    refine ⟨?_, ?_⟩
    · rw [WriteBatch.setSequence, drop_write (by simp [encodeFixed64, kHeader]), hb.body]
    · rw [← hb.count, count, count, WriteBatch.setSequence, Block.read_write_of_disjoint]
      · exact Nat.le_trans (by simp [encodeFixed64, kHeader]) (WriteBatch.header _)
      · exact .inr (by simp [encodeFixed64])

/-! ## Replay -/

theorem reads_getPut (h : Fits (.put k v)) : getPut.Reads (lengthPrefixed k ++ lengthPrefixed v) (k, v) := by
  have hv := (reads_getLengthPrefixedSlice h.2).bind (f := fun value => pure (k, value)) (Decoder.Reads.pure _)
  rw [append_nil] at hv
  exact (reads_getLengthPrefixedSlice h.1).bind hv

theorem iterateStep_encodeOp (handler : Handler σ) {op : WriteOp} (h : Fits op) (rest : Bytes) (found : Nat) (s : σ) :
    iterateStep handler (encodeOp op ++ rest, found, s) =
      (handler.apply s op >>= fun s' => .ok (.inl (rest, found + 1, s'))) := by
  cases op with
  | put k v =>
    rw [encodeOp, cons_append, iterateStep]
    change (match getPut.run ((lengthPrefixed k ++ lengthPrefixed v) ++ rest) with
      | some ((key, value), input) => _
      | none => _) = _
    rw [reads_getPut h rest]
    rfl
  | delete k =>
    rw [encodeOp, cons_append, iterateStep]
    change (match getLengthPrefixedSlice.run (lengthPrefixed k ++ rest) with
      | some (key, input) => _
      | none => _) = _
    rw [reads_getLengthPrefixedSlice h rest]
    rfl

theorem loop_iterateStep (hfits : ∀ op ∈ ops, Fits op) (rest : Bytes) (found fuel : Nat) (s : σ) :
    Res.loop (iterateStep handler) (ops.length + fuel) (ops.flatMap encodeOp ++ rest, found, s) =
      (ops.foldlM handler.apply s >>= fun s' =>
        Res.loop (iterateStep handler) fuel (rest, found + ops.length, s')) := by
  induction ops generalizing found s with
  | nil => simp
  | cons op ops ih =>
    have hstep := iterateStep_encodeOp handler (hfits op mem_cons_self) (ops.flatMap encodeOp ++ rest) found s
    rw [length_cons, Nat.add_right_comm, Res.loop, flatMap_cons, append_assoc, hstep, foldlM_cons]
    cases handler.apply s op with
    | error fault => rfl
    | ok s' =>
      simp only [Res.ok_bind]
      rw [ih (fun op hop => hfits op (mem_cons_of_mem _ hop)), Nat.add_right_comm, Nat.add_assoc]

theorem length_le_flatMap_encodeOp (ops : List WriteOp) : ops.length ≤ (ops.flatMap encodeOp).length := by
  induction ops with
  | nil => exact Nat.le_refl 0
  | cons op ops ih =>
    have hpos : 0 < (encodeOp op).length := by cases op <;> exact Nat.succ_pos _
    rw [flatMap_cons, length_append, length_cons]
    omega

theorem iterate_eq (hfits : ∀ op ∈ ops, Fits op) {rest : Bytes}
    (hbody : b.rep.drop kHeader = ops.flatMap encodeOp ++ rest) (handler : Handler σ) (s : σ) : ∃ fuel,
    rest.length < fuel ∧ b.iterate handler s = (ops.foldlM handler.apply s >>= fun s' =>
      b.checkCount <$> Res.loop (iterateStep handler) fuel (rest, ops.length, s')) := by
  have hlen := congrArg List.length hbody
  have hops := length_le_flatMap_encodeOp ops
  rw [length_drop, length_append] at hlen
  obtain ⟨fuel, hfuel⟩ : ∃ fuel, b.rep.length + 1 = ops.length + fuel := ⟨b.rep.length + 1 - ops.length, by omega⟩
  refine ⟨fuel, by omega, ?_⟩
  rw [iterate, if_neg (Nat.not_lt.2 b.header), hfuel, hbody, loop_iterateStep hfits, Nat.zero_add]
  cases ops.foldlM handler.apply s <;> rfl

theorem Holds.iterate (h : Holds b ops) (hfits : ∀ op ∈ ops, Fits op) (handler : Handler σ) (s : σ) :
    b.iterate handler s = (ops.foldlM handler.apply s >>= fun s' => .ok (.ok, s')) := by
  have hbody : b.rep.drop kHeader = ops.flatMap encodeOp ++ [] := by rw [h.body, append_nil]
  obtain ⟨fuel, hfuel, heq⟩ := iterate_eq hfits hbody handler s
  rw [heq]
  cases ops.foldlM handler.apply s with
  | error fault => rfl
  | ok s' =>
    rw [Res.ok_bind, Res.loop_return hfuel rfl]
    simp [checkCount, h.count]

/-- Every batch replays exactly the operations that went into it, in order. -/
theorem iterate_of_built (h : Built b ops) (hfits : ∀ op ∈ ops, Fits op) (hcount : ops.length < 2 ^ 31)
    (handler : Handler σ) (s : σ) :
    b.iterate handler s = (ops.foldlM handler.apply s >>= fun s' => .ok (.ok, s')) :=
  (h.holds hfits (by omega)).iterate hfits handler s

theorem iterate_of_built_put_delete :
    (((clear.put [1] [2]).delete [1]).setSequence 7).iterate
      ⟨fun k v ops => .ok (ops ++ [.put k v]), fun k ops => .ok (ops ++ [.delete k])⟩ ([] : List WriteOp) =
        .ok (.ok, [.put [1] [2], .delete [1]]) :=
  iterate_of_built (((Built.clear.put [1] [2]).delete [1]).setSequence 7) (by simp [Fits]) (by decide) _ _

/-! ## Batches cut short -/

theorem getPut_cut {cs : Bytes} (h : Fits (.put k v)) (heq : lengthPrefixed k ++ lengthPrefixed v = bs ++ cs)
    (hcs : cs ≠ []) : getPut.run bs = none := by
  rw [getPut, StateT.run_bind]
  rcases append_eq_append_iff.1 heq with ⟨as, rfl, hv⟩ | ⟨as, hk, rfl⟩
  · rw [reads_getLengthPrefixedSlice h.1 as]
    change (getLengthPrefixedSlice >>= fun value => pure (k, value) : Decoder _).run as = none
    rw [StateT.run_bind, getLengthPrefixedSlice_cut h.2 hv hcs]
    rfl
  · cases as with
    | nil =>
      have hread := reads_getLengthPrefixedSlice h.1 []
      rw [append_nil] at hk hread
      rw [← hk, hread]
      change (getLengthPrefixedSlice >>= fun value => pure (k, value) : Decoder _).run [] = none
      rw [StateT.run_bind, getLengthPrefixedSlice_cut h.2 (nil_append _).symm (by simpa using hcs)]
      rfl
    | cons a as =>
      rw [getLengthPrefixedSlice_cut h.1 hk (cons_ne_nil _ _)]
      rfl

theorem iterateStep_cut (handler : Handler σ) {op : WriteOp} (h : Fits op) {tag : UInt8} {cs : Bytes}
    (heq : encodeOp op = tag :: bs ++ cs) (hcs : cs ≠ []) : ∃ msg, ∀ found s,
    iterateStep handler (tag :: bs, found, s) = .ok (.inr (.corruption msg, found + 1, s)) := by
  cases op with
  | put k v =>
    obtain ⟨rfl, hrest⟩ := List.cons.inj heq
    refine ⟨ascii "bad WriteBatch Put", fun found s => ?_⟩
    rw [iterateStep]
    change (match getPut.run bs with
      | some ((key, value), input) => _
      | none => _) = _
    rw [getPut_cut h hrest hcs]
    rfl
  | delete k =>
    obtain ⟨rfl, hrest⟩ := List.cons.inj heq
    refine ⟨ascii "bad WriteBatch Delete", fun found s => ?_⟩
    rw [iterateStep]
    change (match getLengthPrefixedSlice.run bs with
      | some (key, input) => _
      | none => _) = _
    rw [getLengthPrefixedSlice_cut h hrest hcs]
    rfl

theorem setContents_eq_ok : setContents bs = .ok b ↔ bs = b.rep := by
  rw [setContents]
  split
  · exact ⟨fun h => Except.ok.inj h ▸ rfl, fun h => by subst h; rfl⟩
  · next hlt =>
    refine ⟨fun h => (by cases h), fun h => ?_⟩
    rw [h] at hlt
    exact absurd b.header hlt

theorem count_take {k : Nat} (hk : kHeader ≤ k) (hb' : b.rep.take k = b'.rep) : b'.count = b.count := by
  have hmin : min 4 (k - 8) = 4 := by simp only [kHeader] at hk; omega
  rw [count, count, ← hb', Block.read, Block.read, drop_take, take_take, hmin]

/-- The string of a batch cut anywhere behind its header is refused, after the `n` operations that end before
the cut. -/
theorem iterate_cut (h : Built b ops) (hfits : ∀ op ∈ ops, Fits op) (hcount : ops.length < 2 ^ 31) {k : Nat}
    (hk : kHeader ≤ k) (hlt : k < b.rep.length) (handler : Handler σ) (s : σ) :
    ∃ b' n msg, setContents (b.rep.take k) = .ok b' ∧ kHeader + ((ops.take n).flatMap encodeOp).length ≤ k ∧
      k < kHeader + ((ops.take (n + 1)).flatMap encodeOp).length ∧ b'.iterate handler s =
        ((ops.take n).foldlM handler.apply s >>= fun s' => .ok (.corruption msg, s')) := by
  have hb := h.holds hfits (by omega)
  have hlen : (b.rep.take k).length = k := length_take_of_le (by omega)
  obtain ⟨b', hb'⟩ : ∃ b', setContents (b.rep.take k) = .ok b' := ⟨_, dif_pos (by omega)⟩
  have hrep := setContents_eq_ok.1 hb'
  have hcount' := count_take hk hrep
  have hprefix : b'.rep.drop kHeader <+: ops.flatMap encodeOp := by
    rw [← hrep, ← hb.body, drop_take]
    exact take_prefix _ _
  have hne : b'.rep.drop kHeader ≠ ops.flatMap encodeOp := by
    intro heq
    have := congrArg List.length heq
    rw [← hrep, ← hb.body, length_drop, length_drop, hlen] at this
    omega
  obtain ⟨done, op, rest, part, cs, rfl, hpart, hop, hcs⟩ := exists_of_prefix_flatMap hprefix hne
  have hdone : ∀ op ∈ done, Fits op := fun op hop => hfits op (mem_append_left _ hop)
  obtain ⟨fuel, hfuel, heq⟩ := iterate_eq hdone hpart handler s
  obtain ⟨msg, hmsg⟩ : ∃ msg, ∀ s', b'.checkCount <$> Res.loop (iterateStep handler) fuel (part, done.length, s') =
      .ok (.corruption msg, s') := by
    cases part with
    | nil =>
      -- cut between two operations: the count is wrong
      refine ⟨ascii "WriteBatch has wrong count", fun s' => ?_⟩
      rw [Res.loop_return hfuel rfl]
      simp [checkCount, hcount', hb.count]
    | cons tag bs =>
      obtain ⟨msg, hmsg⟩ := iterateStep_cut handler (hfits op (mem_append_right _ mem_cons_self)) hop hcs
      refine ⟨msg, fun s' => ?_⟩
      rw [Res.loop_return (by omega) (hmsg _ _)]
      rfl
  have hcut : k = kHeader + (done.flatMap encodeOp).length + part.length := by
    have := congrArg List.length hpart
    rw [← hrep, length_drop, hlen, length_append] at this
    omega
  have hnext : (done ++ op :: rest).take (done.length + 1) = done ++ [op] := by simp [take_append]
  refine ⟨b', done.length, msg, hb', ?_, ?_, ?_⟩
  · rw [take_left' rfl]
    omega
  · have hpos := length_pos_iff.2 hcs
    rw [hnext, flatMap_append, flatMap_singleton, hop, length_append, length_append]
    omega
  · rw [heq, take_left' rfl]
    cases done.foldlM handler.apply s with
    | error fault => rfl
    | ok s' => exact hmsg s'

theorem iterate_cut_delete : ∃ b' msg, setContents ((((clear.put [1] [2]).delete [1]).put [3] [4]).rep.take 18) = .ok b' ∧
    b'.iterate ⟨fun k v ops => .ok (ops ++ [.put k v]), fun k ops => .ok (ops ++ [.delete k])⟩ ([] : List WriteOp) =
      .ok (.corruption msg, [.put [1] [2]]) := by
  have hbuilt := ((Built.clear.put [1] [2]).delete [1]).put [3] [4]
  obtain ⟨b', n, msg, hb', hle, hlt, heq⟩ := iterate_cut (k := 18) hbuilt (by simp [Fits]) (by decide) (by decide) (by decide)
    ⟨fun k v ops => .ok (ops ++ [.put k v]), fun k ops => .ok (ops ++ [.delete k])⟩ ([] : List WriteOp)
  have hone : varint 1 = [1] := by simp [varint]
  obtain rfl : n = 1 := by
    rcases n with _ | _ | n
    · simp [encodeOp, lengthPrefixed, kHeader, hone] at hlt
    · rfl
    · simp [encodeOp, lengthPrefixed, kHeader, hone] at hle
      omega
  exact ⟨b', msg, hb', heq⟩

end WriteBatch

end Dbms18.LevelDb
