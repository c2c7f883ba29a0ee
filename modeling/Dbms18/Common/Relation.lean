import Dbms18.Common.Tuple

/-!
# Relations and attributes (`common/relation.cpp`, `common/attribute.cpp`)

The catalog stores a relation as a tuple with its id and name, and each of its attributes as a tuple
with six columns. `Attribute::ToTuple` leaves room for four slots but fills six: the last two lie over
the attribute id, so a record gives back every field except the id (`Attribute.fromTuple_record`).
-/

namespace Dbms18

open Res

abbrev RelationId := UInt32
abbrev AttributeId := UInt32

inductive DataType
  | invalid
  | integer
  | float
  | date
  | varchar
  | boolean
deriving DecidableEq, Repr

namespace DataType

/-- The values of the enumeration, which are PostgreSQL's type ids. -/
def code : DataType → Nat
  | invalid => 0
  | integer => 20
  | float => 701
  | date => 1082
  | varchar => 1043
  | boolean => 1044

def ofCode (n : Nat) : Option DataType :=
  [invalid, integer, float, date, varchar, boolean].find? fun d => d.code = n

@[simp] theorem ofCode_code (d : DataType) : ofCode d.code = some d := by
  cases d <;> rfl

theorem code_lt (d : DataType) : d.code < 2048 := by
  cases d <;> decide

end DataType

structure Attribute where
  name : Bytes
  attributeIndex : UInt32 := 0
  id : AttributeId := 0
  relationId : RelationId := 0
  maxLength : UInt32 := 0
  dataType : DataType := .invalid
  isNull : Bool := false
  isVariable : Bool := false
deriving DecidableEq, Repr

structure Relation where
  name : Bytes := []
  id : RelationId := 0
  attributes : List Attribute := []
deriving DecidableEq, Repr

namespace Relation

/-- The loop of `AddAttribute`: before the first attribute with a larger index, and nowhere if there
is none. -/
def insertByIndex (a : Attribute) : List Attribute → List Attribute
  | [] => []
  | b :: bs => if b.attributeIndex > a.attributeIndex then a :: b :: bs else b :: insertByIndex a bs

def addAttribute (r : Relation) (a : Attribute) (append : Bool) : Relation :=
  let a := { a with relationId := r.id }
  if append then
    { r with attributes := r.attributes ++ [{ a with attributeIndex := r.attributes.length.toUInt32 }] }
  else if r.attributes.isEmpty then
    { r with attributes := [a] }
  else
    { r with attributes := insertByIndex a r.attributes }

@[simp] theorem name_addAttribute (r : Relation) (a : Attribute) (append : Bool) :
    (r.addAttribute a append).name = r.name := by
  unfold addAttribute
  split <;> [rfl; split <;> rfl]

@[simp] theorem id_addAttribute (r : Relation) (a : Attribute) (append : Bool) :
    (r.addAttribute a append).id = r.id := by
  unfold addAttribute
  split <;> [rfl; split <;> rfl]

/-- The tuple and the number of its bytes that are used. -/
def toTuple (r : Relation) : Res (RawTuple × Nat) := do
  let t := RawTuple.createTuple 512
  let offset := sizeofSlot * 2
  let t ← t.setValue offset (leBytes 8 r.id.toNat)
  let t ← t.setSlot 0 offset 8
  let offset := offset + 8
  let t ← t.setValue offset r.name
  let t ← t.setSlot 1 offset r.name.length
  let offset := offset + r.name.length
  return (t, offset)

def fromTuple (t : RawTuple) : Res Relation := do
  let id ← t.getInteger (← t.slotOffset 0).toNat
  let name ← t.getValue (← t.slotOffset 1).toNat (← t.slotLength 1).toNat
  return { name, id := id.toUInt32 }

/-- The bytes that `WriteRelMeta` puts for the relation. -/
def record (r : Relation) : Res Bytes := do
  let (t, size) ← r.toTuple
  t.getValue 0 size

def writes (r : Relation) : List (Nat × Bytes) :=
  [(8, leBytes 8 r.id.toNat), (0, leBytes 2 8), (2, leBytes 2 8), (16, r.name), (4, leBytes 2 16),
    (6, leBytes 2 r.name.length)]

theorem toTuple_eq (r : Relation) :
    r.toTuple = (RawTuple.createTuple 512).storeAll r.writes >>= fun t => .ok (t, 16 + r.name.length) := by
  simp [toTuple, writes, RawTuple.setValue, RawTuple.setSlot, Cells.storeAll, sizeofSlot]

theorem record_eq_ok {r : Relation} {bs : Bytes} : r.record = .ok bs ↔
    ∃ t, (RawTuple.createTuple 512).storeAll r.writes = .ok t ∧ Cells.load t 0 (16 + r.name.length) = .ok bs := by
  rw [record, toTuple_eq, bind_assoc, bind_eq_ok]
  rfl

structure Laid (r : Relation) (t : RawTuple) : Prop where
  idOffset : Cells.load t 0 2 = .ok (leBytes 2 8)
  idLength : Cells.load t 2 2 = .ok (leBytes 2 8)
  nameOffset : Cells.load t 4 2 = .ok (leBytes 2 16)
  nameLength : Cells.load t 6 2 = .ok (leBytes 2 r.name.length)
  id : Cells.load t 8 8 = .ok (leBytes 8 r.id.toNat)
  name : Cells.load t 16 r.name.length = .ok r.name

theorem writes_apart (r : Relation) : (r.writes.drop 0).Pairwise Cells.Apart := by
  simp only [writes, Cells.Apart, List.drop_zero, List.pairwise_cons, List.forall_mem_cons, length_leBytes,
    List.not_mem_nil, false_imp_iff, forall_const, and_true, List.Pairwise.nil]
  omega

theorem laid_of_storeAll {r : Relation} {t : RawTuple}
    (ht : (RawTuple.createTuple 512).storeAll r.writes = .ok t) : r.Laid t where
  idOffset := Cells.load_storeAll_of_apart ht r.writes_apart 1 rfl rfl
  idLength := Cells.load_storeAll_of_apart ht r.writes_apart 2 rfl rfl
  nameOffset := Cells.load_storeAll_of_apart ht r.writes_apart 4 rfl rfl
  nameLength := Cells.load_storeAll_of_apart ht r.writes_apart 5 rfl rfl
  id := Cells.load_storeAll_of_apart ht r.writes_apart 0 rfl rfl
  name := Cells.load_storeAll_of_apart ht r.writes_apart 3 rfl rfl

theorem exists_storeAll_writes (r : Relation) :
    (∃ t, (RawTuple.createTuple 512).storeAll r.writes = .ok t) ↔ r.name.length ≤ 496 := by
  constructor
  · intro h
    have hbound := Cells.exists_storeAll.1 h (16, r.name) (by simp [writes])
    simp [RawTuple.createTuple] at hbound
    omega
  · intro hlen
    refine Cells.exists_storeAll.2 fun w hw => ?_
    simp only [writes, List.mem_cons, List.not_mem_nil, or_false] at hw
    rcases hw with rfl | rfl | rfl | rfl | rfl | rfl <;> simp [RawTuple.createTuple]
    omega

theorem exists_record (r : Relation) : (∃ bs, r.record = .ok bs) ↔ r.name.length ≤ 496 := by
  rw [← exists_storeAll_writes]
  constructor
  · rintro ⟨bs, h⟩
    obtain ⟨t, ht, -⟩ := record_eq_ok.1 h
    exact ⟨t, ht⟩
  · rintro ⟨t, ht⟩
    have hl := laid_of_storeAll ht
    have hidSlot := Cells.load_extend hl.idOffset hl.idLength rfl
    have hslots := Cells.load_extend (Cells.load_extend hidSlot hl.nameOffset rfl) hl.nameLength rfl
    exact ⟨_, record_eq_ok.2 ⟨t, ht, Cells.load_extend (Cells.load_extend hslots hl.id rfl) hl.name rfl⟩⟩

/-- `ToTuple` writes inside its tuple only, and the slot of the name has the length of the name. -/
def InBounds (r : Relation) : Prop :=
  ∃ t size length, r.toTuple = .ok (t, size) ∧ t.slotLength 1 = .ok length ∧ length.toNat = r.name.length

theorem inBounds_iff (r : Relation) : r.InBounds ↔ r.name.length ≤ 496 := by
  rw [InBounds, toTuple_eq]
  constructor
  · rintro ⟨t, size, length, ht, -⟩
    obtain ⟨t, ht, -⟩ := bind_eq_ok.1 ht
    exact (exists_storeAll_writes r).1 ⟨t, ht⟩
  · intro hlen
    obtain ⟨t, ht⟩ := (exists_storeAll_writes r).2 hlen
    refine ⟨t, 16 + r.name.length, _, by rw [ht, ok_bind], ?_, RawTuple.toNat_toUInt16 (by omega)⟩
    exact RawTuple.slotLength_of_load 1 (laid_of_storeAll ht).nameLength

theorem fromTuple_record {r : Relation} {bs : Bytes} (h : r.record = .ok bs) :
    fromTuple (Cells.ofBytes bs) = .ok { name := r.name, id := r.id } := by
  have hlen := (exists_record r).1 ⟨bs, h⟩
  obtain ⟨t, ht, hbs⟩ := record_eq_ok.1 h
  have hl := laid_of_storeAll ht
  have hsub : ∀ {o n}, o + n ≤ 16 + r.name.length → (Cells.ofBytes bs).load o n = Cells.load t o n :=
    fun hle => Cells.load_ofBytes_of_load hbs hle
  have hidOffset := RawTuple.slotOffset_of_load 0 ((hsub (by omega)).trans hl.idOffset)
  have hnameOffset := RawTuple.slotOffset_of_load 1 ((hsub (by unfold sizeofSlot; omega)).trans hl.nameOffset)
  have hnameLength := RawTuple.slotLength_of_load 1 ((hsub (by unfold sizeofSlot; omega)).trans hl.nameLength)
  have hid := RawTuple.getInteger_of_load ((hsub (by omega)).trans hl.id)
  have hname := (hsub (Nat.le_refl _)).trans hl.name
  have hlen' : r.name.length.toUInt16.toNat = r.name.length := RawTuple.toNat_toUInt16 (by omega)
  simp only [fromTuple, hidOffset, hnameOffset, hnameLength, ok_bind, hlen', RawTuple.getValue]
  rw [show (8 : Nat).toUInt16.toNat = 8 from rfl, show (16 : Nat).toUInt16.toNat = 16 from rfl, hid, hname]
  simp

end Relation

namespace Attribute

def toTuple (a : Attribute) : Res (RawTuple × Nat) := do
  let t := RawTuple.createTuple 1024
  let offset := sizeofSlot * 4
  let t ← t.setValue offset (leBytes 8 a.id.toNat)
  let t ← t.setSlot 0 offset 8
  let offset := offset + 8
  let t ← t.setValue offset (leBytes 8 a.relationId.toNat)
  let t ← t.setSlot 1 offset 8
  let offset := offset + 8
  let t ← t.setValue offset a.name
  let t ← t.setSlot 2 offset a.name.length
  let offset := offset + a.name.length
  let t ← t.setValue offset (leBytes 8 a.dataType.code)
  let t ← t.setSlot 3 offset 8
  let offset := offset + 8
  let t ← t.setValue offset (leBytes 8 a.maxLength.toNat)
  let t ← t.setSlot 4 offset 8
  let offset := offset + 8
  let t ← t.setValue offset (leBytes 8 a.attributeIndex.toNat)
  let t ← t.setSlot 5 offset 8
  let offset := offset + 8
  return (t, offset)

def fromTuple (t : RawTuple) : Res Attribute := do
  let id ← t.getInteger (← t.slotOffset 0).toNat
  let relationId ← t.getInteger (← t.slotOffset 1).toNat
  let name ← t.getValue (← t.slotOffset 2).toNat (← t.slotLength 2).toNat
  let dataType ← t.getInteger (← t.slotOffset 3).toNat
  let dataType ← Res.getD (DataType.ofCode dataType.toNat) .invalidEnum
  let maxLength ← t.getInteger (← t.slotOffset 4).toNat
  let attributeIndex ← t.getInteger (← t.slotOffset 5).toNat
  return {
    name
    attributeIndex := attributeIndex.toUInt32
    id := id.toUInt32
    relationId := relationId.toUInt32
    maxLength := maxLength.toUInt32
    dataType }

/-- The bytes that `WriteRelMeta` puts for the attribute. -/
def record (a : Attribute) : Res Bytes := do
  let (t, size) ← a.toTuple
  t.getValue 0 size

def writes (a : Attribute) : List (Nat × Bytes) :=
  let n := a.name.length
  [(16, leBytes 8 a.id.toNat), (0, leBytes 2 16), (2, leBytes 2 8),
    (24, leBytes 8 a.relationId.toNat), (4, leBytes 2 24), (6, leBytes 2 8),
    (32, a.name), (8, leBytes 2 32), (10, leBytes 2 n),
    (32 + n, leBytes 8 a.dataType.code), (12, leBytes 2 (32 + n)), (14, leBytes 2 8),
    (40 + n, leBytes 8 a.maxLength.toNat), (16, leBytes 2 (40 + n)), (18, leBytes 2 8),
    (48 + n, leBytes 8 a.attributeIndex.toNat), (20, leBytes 2 (48 + n)), (22, leBytes 2 8)]

theorem toTuple_eq (a : Attribute) :
    a.toTuple = (RawTuple.createTuple 1024).storeAll a.writes >>= fun t => .ok (t, 56 + a.name.length) := by
  have h8 : 16 + 8 + 8 + a.name.length + 8 = 40 + a.name.length := by omega
  have h16 : 40 + a.name.length + 8 = 48 + a.name.length := by omega
  have h24 : 48 + a.name.length + 8 = 56 + a.name.length := by omega
  simp [toTuple, writes, RawTuple.setValue, RawTuple.setSlot, Cells.storeAll, sizeofSlot, h8, h16, h24]

variable {a : Attribute}

theorem record_eq_ok {bs : Bytes} : a.record = .ok bs ↔
    ∃ t, (RawTuple.createTuple 1024).storeAll a.writes = .ok t ∧ Cells.load t 0 (56 + a.name.length) = .ok bs := by
  rw [record, toTuple_eq, bind_assoc, bind_eq_ok]
  rfl

/-- The fields of the tuple once all writes are made. Where the id was are slots 4 and 5. -/
structure Laid (a : Attribute) (t : RawTuple) : Prop where
  idOffset : Cells.load t 0 2 = .ok (leBytes 2 16)
  idLength : Cells.load t 2 2 = .ok (leBytes 2 8)
  relationIdOffset : Cells.load t 4 2 = .ok (leBytes 2 24)
  relationIdLength : Cells.load t 6 2 = .ok (leBytes 2 8)
  nameOffset : Cells.load t 8 2 = .ok (leBytes 2 32)
  nameLength : Cells.load t 10 2 = .ok (leBytes 2 a.name.length)
  dataTypeOffset : Cells.load t 12 2 = .ok (leBytes 2 (32 + a.name.length))
  dataTypeLength : Cells.load t 14 2 = .ok (leBytes 2 8)
  maxLengthOffset : Cells.load t 16 2 = .ok (leBytes 2 (40 + a.name.length))
  maxLengthLength : Cells.load t 18 2 = .ok (leBytes 2 8)
  attributeIndexOffset : Cells.load t 20 2 = .ok (leBytes 2 (48 + a.name.length))
  attributeIndexLength : Cells.load t 22 2 = .ok (leBytes 2 8)
  relationId : Cells.load t 24 8 = .ok (leBytes 8 a.relationId.toNat)
  name : Cells.load t 32 a.name.length = .ok a.name
  dataType : Cells.load t (32 + a.name.length) 8 = .ok (leBytes 8 a.dataType.code)
  maxLength : Cells.load t (40 + a.name.length) 8 = .ok (leBytes 8 a.maxLength.toNat)
  attributeIndex : Cells.load t (48 + a.name.length) 8 = .ok (leBytes 8 a.attributeIndex.toNat)

/-- The last two slots are written over the id; of the other writes none is overwritten. -/
theorem writes_apart (a : Attribute) : (a.writes.drop 1).Pairwise Cells.Apart := by
  simp only [writes, Cells.Apart, List.drop_succ_cons, List.drop_zero, List.pairwise_cons, List.forall_mem_cons,
    length_leBytes, List.not_mem_nil, false_imp_iff, forall_const, and_true, List.Pairwise.nil]
  omega

theorem laid_of_storeAll {t : RawTuple} (ht : (RawTuple.createTuple 1024).storeAll a.writes = .ok t) : a.Laid t where
  idOffset := Cells.load_storeAll_of_apart ht a.writes_apart 0 rfl rfl
  idLength := Cells.load_storeAll_of_apart ht a.writes_apart 1 rfl rfl
  relationIdOffset := Cells.load_storeAll_of_apart ht a.writes_apart 3 rfl rfl
  relationIdLength := Cells.load_storeAll_of_apart ht a.writes_apart 4 rfl rfl
  nameOffset := Cells.load_storeAll_of_apart ht a.writes_apart 6 rfl rfl
  nameLength := Cells.load_storeAll_of_apart ht a.writes_apart 7 rfl rfl
  dataTypeOffset := Cells.load_storeAll_of_apart ht a.writes_apart 9 rfl rfl
  dataTypeLength := Cells.load_storeAll_of_apart ht a.writes_apart 10 rfl rfl
  maxLengthOffset := Cells.load_storeAll_of_apart ht a.writes_apart 12 rfl rfl
  maxLengthLength := Cells.load_storeAll_of_apart ht a.writes_apart 13 rfl rfl
  attributeIndexOffset := Cells.load_storeAll_of_apart ht a.writes_apart 15 rfl rfl
  attributeIndexLength := Cells.load_storeAll_of_apart ht a.writes_apart 16 rfl rfl
  relationId := Cells.load_storeAll_of_apart ht a.writes_apart 2 rfl rfl
  name := Cells.load_storeAll_of_apart ht a.writes_apart 5 rfl rfl
  dataType := Cells.load_storeAll_of_apart ht a.writes_apart 8 rfl rfl
  maxLength := Cells.load_storeAll_of_apart ht a.writes_apart 11 rfl rfl
  attributeIndex := Cells.load_storeAll_of_apart ht a.writes_apart 14 rfl rfl

theorem exists_storeAll_writes (a : Attribute) :
    (∃ t, (RawTuple.createTuple 1024).storeAll a.writes = .ok t) ↔ a.name.length ≤ 968 := by
  constructor
  · intro h
    have hbound := Cells.exists_storeAll.1 h (48 + a.name.length, leBytes 8 a.attributeIndex.toNat) (by simp [writes])
    simp [RawTuple.createTuple] at hbound
    omega
  · intro hlen
    refine Cells.exists_storeAll.2 ?_
    simp only [writes, List.forall_mem_cons, length_leBytes, RawTuple.createTuple, Cells.length_alloc]
    simp
    omega

theorem exists_record (a : Attribute) : (∃ bs, a.record = .ok bs) ↔ a.name.length ≤ 968 := by
  rw [← exists_storeAll_writes]
  constructor
  · rintro ⟨bs, h⟩
    obtain ⟨t, ht, -⟩ := record_eq_ok.1 h
    exact ⟨t, ht⟩
  · rintro ⟨t, ht⟩
    have hl := laid_of_storeAll ht
    have h4 := Cells.load_extend hl.idOffset hl.idLength rfl
    have h8 := Cells.load_extend (Cells.load_extend h4 hl.relationIdOffset rfl) hl.relationIdLength rfl
    have h12 := Cells.load_extend (Cells.load_extend h8 hl.nameOffset rfl) hl.nameLength rfl
    have h16 := Cells.load_extend (Cells.load_extend h12 hl.dataTypeOffset rfl) hl.dataTypeLength rfl
    have h20 := Cells.load_extend (Cells.load_extend h16 hl.maxLengthOffset rfl) hl.maxLengthLength rfl
    have h24 := Cells.load_extend (Cells.load_extend h20 hl.attributeIndexOffset rfl) hl.attributeIndexLength rfl
    have hname := Cells.load_extend (Cells.load_extend h24 hl.relationId rfl) hl.name rfl
    have htype := Cells.load_extend hname hl.dataType (k := 40 + a.name.length) (by omega)
    have hmax := Cells.load_extend htype hl.maxLength (k := 48 + a.name.length) (by omega)
    exact ⟨_, record_eq_ok.2 ⟨t, ht, Cells.load_extend hmax hl.attributeIndex (by omega)⟩⟩

/-- `ToTuple` writes inside its tuple only, and the slot of the name has the length of the name. -/
def InBounds (a : Attribute) : Prop :=
  ∃ t size length, a.toTuple = .ok (t, size) ∧ t.slotLength 2 = .ok length ∧ length.toNat = a.name.length

theorem inBounds_iff (a : Attribute) : a.InBounds ↔ a.name.length ≤ 968 := by
  rw [InBounds, toTuple_eq]
  constructor
  · rintro ⟨t, size, length, ht, -⟩
    obtain ⟨t, ht, -⟩ := bind_eq_ok.1 ht
    exact (exists_storeAll_writes a).1 ⟨t, ht⟩
  · intro hlen
    obtain ⟨t, ht⟩ := (exists_storeAll_writes a).2 hlen
    refine ⟨t, 56 + a.name.length, _, by rw [ht, ok_bind], ?_, RawTuple.toNat_toUInt16 (by omega)⟩
    exact RawTuple.slotLength_of_load 2 (laid_of_storeAll ht).nameLength

/-- What the two slots over the attribute id make of it. -/
def misreadId (a : Attribute) : AttributeId := (8 * 65536 + (40 + a.name.length)).toUInt32

theorem Laid.id_misread {t : RawTuple} (hl : a.Laid t) (hlen : a.name.length ≤ 968) :
    ∃ n, t.getInteger 16 = .ok n ∧ n.toUInt32 = a.misreadId := by
  have h4 := Cells.load_append hl.maxLengthOffset hl.maxLengthLength rfl rfl
  have h8 := Cells.load_append (Cells.load_append h4 hl.attributeIndexOffset rfl rfl) hl.attributeIndexLength rfl rfl
  refine ⟨_, by simp only [RawTuple.getInteger, RawTuple.getValue, h8]; rfl, ?_⟩
  apply UInt32.toNat_inj.1
  simp only [misreadId, ofLE_append, ofLE_leBytes, List.length_append, length_leBytes]
  simp
  omega

theorem fromTuple_record {bs : Bytes} (h : a.record = .ok bs) :
    fromTuple (Cells.ofBytes bs) = .ok { a with id := a.misreadId, isNull := false, isVariable := false } := by
  have hlen := (exists_record a).1 ⟨bs, h⟩
  obtain ⟨t, ht, hbs⟩ := record_eq_ok.1 h
  have hl := laid_of_storeAll ht
  have hsub : ∀ {o n}, o + n ≤ 56 + a.name.length → (Cells.ofBytes bs).load o n = Cells.load t o n :=
    fun hle => Cells.load_ofBytes_of_load hbs hle
  have hslot : ∀ {o n}, o + n ≤ 56 → (Cells.ofBytes bs).load o n = Cells.load t o n :=
    fun hle => hsub (by omega)
  have hidOffset := RawTuple.slotOffset_of_load 0 ((hslot (by decide)).trans hl.idOffset)
  have hrelOffset := RawTuple.slotOffset_of_load 1 ((hslot (by decide)).trans hl.relationIdOffset)
  have hnameOffset := RawTuple.slotOffset_of_load 2 ((hslot (by decide)).trans hl.nameOffset)
  have hnameLength := RawTuple.slotLength_of_load 2 ((hslot (by decide)).trans hl.nameLength)
  have htypeOffset := RawTuple.slotOffset_of_load 3 ((hslot (by decide)).trans hl.dataTypeOffset)
  have hmaxOffset := RawTuple.slotOffset_of_load 4 ((hslot (by decide)).trans hl.maxLengthOffset)
  have hindexOffset := RawTuple.slotOffset_of_load 5 ((hslot (by decide)).trans hl.attributeIndexOffset)
  have hrel := RawTuple.getInteger_of_load ((hslot (by decide)).trans hl.relationId)
  have hname := (hsub (by omega)).trans hl.name
  have htype := RawTuple.getInteger_of_load ((hsub (by omega)).trans hl.dataType)
  have hmax := RawTuple.getInteger_of_load ((hsub (by omega)).trans hl.maxLength)
  have hindex := RawTuple.getInteger_of_load ((hsub (by omega)).trans hl.attributeIndex)
  obtain ⟨n, hid, hn⟩ := hl.id_misread hlen
  have hid : RawTuple.getInteger (Cells.ofBytes bs) 16 = .ok n := by
    rw [← hid, RawTuple.getInteger, RawTuple.getInteger, RawTuple.getValue, RawTuple.getValue, hslot (by decide)]
  have hcode : a.dataType.code.toUInt64.toNat = a.dataType.code := by
    have := a.dataType.code_lt
    simp
    omega
  have h16 : ∀ {k}, k ≤ 1024 → k.toUInt16.toNat = k := fun hk => RawTuple.toNat_toUInt16 (by omega)
  simp only [fromTuple, hidOffset, hrelOffset, hnameOffset, hnameLength, htypeOffset, hmaxOffset, hindexOffset,
    ok_bind, RawTuple.getValue, h16 (show 16 ≤ 1024 by decide), h16 (show 24 ≤ 1024 by decide),
    h16 (show 32 ≤ 1024 by decide), h16 (show a.name.length ≤ 1024 by omega),
    h16 (show 32 + a.name.length ≤ 1024 by omega), h16 (show 40 + a.name.length ≤ 1024 by omega),
    h16 (show 48 + a.name.length ≤ 1024 by omega), hid, hrel, hname, htype, hmax, hindex, hcode,
    DataType.ofCode_code, getD_some, hn]
  simp

/-- Decoding what was encoded gives back the fields that are stored. -/
def RoundTrips (a : Attribute) : Prop :=
  ∃ bs a', a.record = .ok bs ∧ fromTuple (Cells.ofBytes bs) = .ok a' ∧ a'.id = a.id ∧ a'.relationId = a.relationId ∧
    a'.name = a.name ∧ a'.dataType = a.dataType ∧ a'.maxLength = a.maxLength ∧ a'.attributeIndex = a.attributeIndex

theorem toNat_misreadId (hlen : a.name.length ≤ 968) : a.misreadId.toNat = 524328 + a.name.length := by
  simp [misreadId]
  omega

/-- The two slots that lie over the id hold the length and offset of the max length and the attribute
index; the id survives only if it is what they spell. -/
theorem roundTrips_iff (a : Attribute) (hlen : a.name.length ≤ 900) :
    a.RoundTrips ↔ a.id.toNat = 524328 + a.name.length := by
  have hlen' : a.name.length ≤ 968 := by omega
  rw [← toNat_misreadId hlen', UInt32.toNat_inj]
  constructor
  · rintro ⟨bs, a', hbs, ha', hid, -⟩
    obtain rfl := Except.ok.inj ((fromTuple_record hbs).symm.trans ha')
    exact hid.symm
  · intro hid
    obtain ⟨bs, hbs⟩ := (exists_record a).2 hlen'
    exact ⟨bs, _, hbs, fromTuple_record hbs, hid.symm, rfl, rfl, rfl, rfl, rfl⟩

theorem roundTrips_iff_ofName :
    ({ name := [97], id := 524329, dataType := .integer, maxLength := 8 } : Attribute).RoundTrips :=
  (roundTrips_iff _ (by decide)).2 rfl

/-- The first attribute of the first relation comes back with another id. -/
theorem not_roundTrips_ofName :
    ∃ bs a', record { name := [97], id := 1, relationId := 1, dataType := .integer, maxLength := 8 } = .ok bs ∧
      fromTuple (Cells.ofBytes bs) = .ok a' ∧ a'.id = 524329 := by
  obtain ⟨bs, hbs⟩ := (exists_record { name := [97], id := 1, relationId := 1, dataType := .integer, maxLength := 8 }).2
    (by decide)
  exact ⟨bs, _, hbs, fromTuple_record hbs, rfl⟩

end Attribute

end Dbms18
