import Mathlib.Data.Prod.Lex
import Dbms18.Lib.Text
import Dbms18.LevelDb.Coding

/-!
# Internal keys (`db/dbformat.h`, `db/dbformat.cc`, `include/leveldb/slice.h`)

An entry of the storage engine is stored under an internal key: the user's key and a tag of eight bytes
that packs a sequence number and the kind of the entry. Internal keys are ordered by user key, and the
entries of one user key from the newest to the oldest.

`ExtractUserKey` asserts that an internal key has room for its tag; here every `InternalKey` has.
Sequence numbers and tags are `uint64_t` and are written as eight bytes.
-/

namespace Dbms18.LevelDb

open Std

inductive Status
  | ok
  | notFound
  | corruption (msg : Bytes)
  | notSupported (msg : Bytes)
  | invalidArgument (msg : Bytes)
  | ioError (msg : Bytes)
deriving DecidableEq, Repr

/-! ## Slices -/

/-- `memcmp` of the first `n` bytes. -/
def memcmp : Nat → Bytes → Bytes → Ordering
  | n + 1, x :: xs, y :: ys => (compare x y).then (memcmp n xs ys)
  | _, _, _ => .eq

/-- `Slice::compare`. -/
def sliceCompare (a b : Bytes) : Ordering :=
  let minLen := if a.length < b.length then a.length else b.length
  match memcmp minLen a b with
  | .eq => if a.length < b.length then .lt else if b.length < a.length then .gt else .eq
  | r => r

theorem sliceCompare_cons (x y : UInt8) (xs ys : Bytes) :
    sliceCompare (x :: xs) (y :: ys) = (compare x y).then (sliceCompare xs ys) := by
  have hmin : (if (x :: xs).length < (y :: ys).length then (x :: xs).length else (y :: ys).length) =
      (if xs.length < ys.length then xs.length else ys.length) + 1 := by
    simp only [List.length_cons, Nat.add_lt_add_iff_right]
    split <;> rfl
  rw [sliceCompare, hmin, memcmp]
  simp only [sliceCompare, List.length_cons, Nat.add_lt_add_iff_right]
  cases compare x y <;> rfl

theorem sliceCompare_eq (a b : Bytes) : sliceCompare a b = compare a b := by
  induction a generalizing b with
  | nil =>
    cases b with
    | nil => rfl
    | cons y ys => simp [sliceCompare, memcmp]
  | cons x xs ih =>
    cases b with
    | nil => simp [sliceCompare, memcmp]
    | cons y ys => rw [sliceCompare_cons, ih, List.compare_cons_cons]

/-! ## Internal keys -/

inductive ValueType
  | deletion
  | value
deriving DecidableEq, Repr

namespace ValueType

def toNat : ValueType → Nat
  | deletion => 0
  | value => 1

def ofNat? : Nat → Option ValueType
  | 0 => some deletion
  | 1 => some value
  | _ => none

@[simp] theorem ofNat?_toNat (t : ValueType) : ofNat? t.toNat = some t := by
  cases t <;> rfl

theorem toNat_of_ofNat? {n : Nat} {t : ValueType} (h : ofNat? n = some t) : t.toNat = n := by
  match n with
  | 0 | 1 =>
    obtain rfl := Option.some.inj h
    rfl
  | _ + 2 => cases h

theorem toNat_lt (t : ValueType) : t.toNat < 256 := by
  cases t <;> decide

end ValueType

def kValueTypeForSeek : ValueType := .value

def kMaxSequenceNumber : Nat := 1 <<< 56 - 1

structure ParsedInternalKey where
  userKey : Bytes
  sequence : Nat
  type : ValueType
deriving DecidableEq, Repr

def packSequenceAndType (seq : Nat) (t : ValueType) : Res Nat := do
  Res.check (seq ≤ kMaxSequenceNumber) .assertion
  return seq <<< 8 ||| t.toNat

theorem shiftLeft_or_type (seq : Nat) (t : ValueType) : seq <<< 8 ||| t.toNat = seq * 256 + t.toNat := by
  rw [← Nat.shiftLeft_add_eq_or_of_lt (i := 8) t.toNat_lt, Nat.shiftLeft_eq]

theorem packSequenceAndType_of_le {seq : Nat} (h : seq ≤ kMaxSequenceNumber) (t : ValueType) :
    packSequenceAndType seq t = .ok (seq * 256 + t.toNat) := by
  rw [packSequenceAndType, Res.check_of h, shiftLeft_or_type]
  rfl

structure InternalKey where
  rep : Bytes
  size : 8 ≤ rep.length
deriving DecidableEq

namespace InternalKey

def pack (userKey : Bytes) (tag : Nat) : InternalKey :=
  ⟨userKey ++ encodeFixed64 tag, by simp [encodeFixed64]⟩

/-- The constructor of `InternalKey`, by `AppendInternalKey`. -/
def new (key : ParsedInternalKey) : Res InternalKey := do
  let tag ← packSequenceAndType key.sequence key.type
  return pack key.userKey tag

/-- `ExtractUserKey`. -/
def userKey (k : InternalKey) : Bytes := k.rep.take (k.rep.length - 8)

def tag (k : InternalKey) : Nat := ofLE (k.rep.drop (k.rep.length - 8))

def sequence (k : InternalKey) : Nat := k.tag >>> 8

/-- `ParseInternalKey`: no result if the lowest byte of the tag is not a type. -/
def parse (k : InternalKey) : Option ParsedInternalKey := do
  let type ← ValueType.ofNat? (k.tag &&& 0xff)
  return ⟨k.userKey, k.sequence, type⟩

@[ext] theorem ext_rep {a b : InternalKey} (h : a.rep = b.rep) : a = b := by
  cases a
  cases b
  simpa using h

@[simp] theorem userKey_pack (u : Bytes) (tag : Nat) : (pack u tag).userKey = u := by
  simp [userKey, pack, encodeFixed64]

theorem tag_pack (u : Bytes) {tag : Nat} (h : tag < 2 ^ 64) : (pack u tag).tag = tag := by
  have hdrop : (u ++ encodeFixed64 tag).drop ((u ++ encodeFixed64 tag).length - 8) = encodeFixed64 tag := by
    simp [encodeFixed64]
  rw [InternalKey.tag, pack, hdrop, encodeFixed64, ofLE_leBytes]
  exact Nat.mod_eq_of_lt h

theorem tag_lt (k : InternalKey) : k.tag < 2 ^ 64 := by
  have h := ofLE_lt (k.rep.drop (k.rep.length - 8))
  have hlen : (k.rep.drop (k.rep.length - 8)).length = 8 := by
    have := k.size
    rw [List.length_drop]
    omega
  rwa [hlen] at h

theorem pack_userKey_tag (k : InternalKey) : pack k.userKey k.tag = k := by
  have hlen : (k.rep.drop (k.rep.length - 8)).length = 8 := by
    have := k.size
    rw [List.length_drop]
    omega
  have htag : encodeFixed64 k.tag = k.rep.drop (k.rep.length - 8) := by
    have hbytes := leBytes_ofLE (k.rep.drop (k.rep.length - 8))
    rwa [hlen] at hbytes
  ext1
  change k.userKey ++ encodeFixed64 k.tag = k.rep
  rw [htag, userKey, List.take_append_drop]

/-- The key of an entry with the given sequence number and type. -/
def ofParsed (key : ParsedInternalKey) : InternalKey := pack key.userKey (key.sequence * 256 + key.type.toNat)

theorem new_of_le {key : ParsedInternalKey} (h : key.sequence ≤ kMaxSequenceNumber) : new key = .ok (ofParsed key) := by
  rw [new, packSequenceAndType_of_le h]
  rfl

variable {key : ParsedInternalKey}

@[simp] theorem userKey_ofParsed : (ofParsed key).userKey = key.userKey := userKey_pack _ _

theorem length_ofParsed : (ofParsed key).rep.length = key.userKey.length + 8 := by
  simp [ofParsed, pack, encodeFixed64]

theorem tag_ofParsed (h : key.sequence ≤ kMaxSequenceNumber) :
    (ofParsed key).tag = key.sequence * 256 + key.type.toNat := by
  have hmax : kMaxSequenceNumber = 2 ^ 56 - 1 := rfl
  have := key.type.toNat_lt
  exact tag_pack _ (by omega)

theorem sequence_ofParsed (h : key.sequence ≤ kMaxSequenceNumber) : (ofParsed key).sequence = key.sequence := by
  have := key.type.toNat_lt
  rw [sequence, tag_ofParsed h, Nat.shiftRight_eq_div_pow]
  omega

theorem parse_ofParsed (h : key.sequence ≤ kMaxSequenceNumber) : (ofParsed key).parse = some key := by
  have hlow : (ofParsed key).tag &&& 0xff = key.type.toNat := by
    have := key.type.toNat_lt
    have hand : (ofParsed key).tag &&& 0xff = (ofParsed key).tag % 256 := Nat.and_two_pow_sub_one_eq_mod _ 8
    rw [hand, tag_ofParsed h]
    omega
  rw [parse, hlow, ValueType.ofNat?_toNat, sequence_ofParsed h, userKey_ofParsed]
  rfl

theorem parse_eq_some {k : InternalKey} (h : k.parse = some key) : key.userKey = k.userKey ∧ key.sequence = k.sequence := by
  obtain ⟨type, -, heq⟩ := Option.bind_eq_some_iff.1 h
  obtain rfl := Option.some.inj heq
  exact ⟨rfl, rfl⟩

theorem tag_of_parse {k : InternalKey} (h : k.parse = some key) : k.tag = key.sequence * 256 + key.type.toNat := by
  obtain ⟨type, htype, heq⟩ := Option.bind_eq_some_iff.1 h
  obtain rfl := Option.some.inj heq
  have hand : k.tag &&& 0xff = k.tag % 256 := Nat.and_two_pow_sub_one_eq_mod _ 8
  have hshift : k.sequence = k.tag / 256 := Nat.shiftRight_eq_div_pow _ 8
  rw [hand] at htype
  dsimp only
  rw [ValueType.toNat_of_ofNat? htype, hshift]
  omega

/-! ## Order -/

/-- `InternalKeyComparator::Compare`, with the bytewise comparator for user keys. -/
def compare (akey bkey : InternalKey) : Ordering :=
  match sliceCompare akey.userKey bkey.userKey with
  | .eq => if akey.tag > bkey.tag then .lt else if akey.tag < bkey.tag then .gt else .eq
  | r => r

theorem compare_eq : compare = compareLex (compareOn userKey) (fun a b => compareOn tag b a) := by
  funext a b
  have htag : (if a.tag > b.tag then Ordering.lt else if a.tag < b.tag then .gt else .eq) = Ord.compare b.tag a.tag := by
    rcases Nat.lt_trichotomy a.tag b.tag with h | h | h
    · rw [if_neg (by omega), if_pos h, Nat.compare_eq_gt.2 h]
    · rw [if_neg (by omega), if_neg (by omega), Nat.compare_eq_eq.2 h.symm]
    · rw [if_pos h, Nat.compare_eq_lt.2 h]
  rw [compare, sliceCompare_eq, htag]
  simp only [compareLex, compareOn]
  cases Ord.compare a.userKey b.userKey <;> rfl

instance : TransCmp compare := by
  rw [compare_eq]
  infer_instance

theorem compare_eq_lt_iff {a b : InternalKey} : compare a b = .lt ↔
    Ord.compare a.userKey b.userKey = .lt ∨ a.userKey = b.userKey ∧ b.tag < a.tag := by
  rw [compare_eq, compareLex, Ordering.then_eq_lt]
  simp only [compareOn, Nat.compare_eq_lt, Std.compare_eq_iff_eq]

instance : LawfulEqCmp compare where
  eq_of_compare {a b} h := by
    rw [compare_eq, compareLex, Ordering.then_eq_eq] at h
    simp only [compareOn, Std.compare_eq_iff_eq] at h
    rw [← pack_userKey_tag a, ← pack_userKey_tag b, h.1, h.2]

theorem userKey_le_of_lt {a b : InternalKey} (h : compare a b = .lt) : (Ord.compare a.userKey b.userKey).isLE := by
  rcases compare_eq_lt_iff.1 h with h | ⟨h, -⟩
  · rw [h]
    rfl
  · rw [h, Std.compare_eq_iff_eq.2 rfl]
    rfl

end InternalKey

end Dbms18.LevelDb
