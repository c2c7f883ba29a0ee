import Dbms18.Lib.Loop
import Dbms18.Lib.OrderedIter
import Dbms18.LevelDb.DbFormat

/-!
# The iterator of a database (`db/db_iter.cc`)

`DBIter` turns an iterator over internal keys into one over the user's keys as they were at a sequence
number: entries above that number are passed over, the newest of the others decides for its user key, and a
key whose newest entry is a deletion does not appear.

Moving forward, the inner iterator is on the entry that is shown. Moving backward, the entry that is shown has
been saved and the inner iterator is before all visible entries of its user key.

The samples that `ParseKey` hands to `RecordReadSample` only start compactions and are left out, and so are
the capacities of the saved strings. `skip` is always `saved_key_`. The loops have `fuel` passes.
-/

namespace Dbms18.LevelDb

structure DBIter (σ : Type) where
  iter : σ
  status : Status
  savedKey : Bytes
  savedValue : Bytes
  direction : Direction
  valid : Bool

namespace DBIter

variable {σ : Type} (it : Iter σ InternalKey Bytes) (sequence fuel : Nat)

def new (iter : σ) : DBIter σ := ⟨iter, .ok, [], [], .forward, false⟩

def key (d : DBIter σ) : Res Bytes := do
  Res.check (d.valid = true) .assertion
  match d.direction with
  | .forward => return (← it.key d.iter).userKey
  | .reverse => return d.savedKey

def value (d : DBIter σ) : Res Bytes := do
  Res.check (d.valid = true) .assertion
  match d.direction with
  | .forward => it.value d.iter
  | .reverse => return d.savedValue

def parseKey (d : DBIter σ) : Res (Option ParsedInternalKey × DBIter σ) := do
  let k ← it.key d.iter
  match k.parse with
  | none => return (none, { d with status := .corruption (ascii "corrupted internal key in DBIter") })
  | some ikey => return (some ikey, d)

/-! ## Forward -/

/-- The end of a pass of `FindNextUserEntry` that has found nothing. -/
def advance (d : DBIter σ) (skipping : Bool) : Res (DBIter σ × Bool ⊕ DBIter σ) := do
  let iter ← it.next d.iter
  let d := { d with iter }
  if it.valid iter then
    return .inl (d, skipping)
  else
    return .inr { d with savedKey := [], valid := false }

/-- The entry the inner iterator is on, as `FindNextUserEntry` looks at it: `ikey` is its key, if the entry is
visible. -/
def considerNext (d : DBIter σ) (skipping : Bool) : Option ParsedInternalKey → Res (DBIter σ × Bool ⊕ DBIter σ)
  | some ⟨userKey, _, .deletion⟩ =>
    -- the entries of this key that come now are hidden by the deletion
    advance it { d with savedKey := userKey } true
  | some ⟨userKey, _, .value⟩ =>
    if skipping ∧ (sliceCompare userKey d.savedKey).isLE then
      advance it d skipping
    else
      return .inr { d with valid := true, savedKey := [] }
  | none => advance it d skipping

def findNextStep : DBIter σ × Bool → Res (DBIter σ × Bool ⊕ DBIter σ)
  | (d, skipping) => do
    let (ikey, d) ← d.parseKey it
    considerNext it d skipping (ikey.filter (·.sequence ≤ sequence))

def findNextUserEntry (d : DBIter σ) (skipping : Bool) : Res (DBIter σ) := do
  Res.check (it.valid d.iter = true) .assertion
  Res.check (d.direction = .forward) .assertion
  Res.loop (findNextStep it sequence) fuel (d, skipping)

/-- From before the entries of the current key into them. -/
def turnForward (iter : σ) : Res σ := if it.valid iter then it.next iter else it.seekToFirst iter

def next (d : DBIter σ) : Res (DBIter σ) := do
  Res.check (d.valid = true) .assertion
  match d.direction with
  | .reverse =>
    let iter ← turnForward it d.iter
    let d := { d with direction := .forward, iter }
    if it.valid iter then
      findNextUserEntry it sequence fuel d true
    else
      return { d with valid := false, savedKey := [] }
  | .forward =>
    let k ← it.key d.iter
    findNextUserEntry it sequence fuel { d with savedKey := k.userKey } true

/-! ## Backward -/

/-- The end of a pass of `FindPrevUserEntry`. -/
def retreat (d : DBIter σ) (valueType : ValueType) : Res (DBIter σ × ValueType ⊕ DBIter σ × ValueType) := do
  let iter ← it.prev d.iter
  let d := { d with iter }
  if it.valid iter then
    return .inl (d, valueType)
  else
    return .inr (d, valueType)

/-- The same for `FindPrevUserEntry`, where `valueType` is the type of the last visible entry that was passed. -/
def considerPrev (d : DBIter σ) (valueType : ValueType) :
    Option ParsedInternalKey → Res (DBIter σ × ValueType ⊕ DBIter σ × ValueType)
  | some ikey =>
    if valueType ≠ .deletion ∧ sliceCompare ikey.userKey d.savedKey = .lt then
      -- the first visible entry of a key before the one that has been found
      return .inr (d, valueType)
    else
      match ikey.type with
      | .deletion => retreat it { d with savedKey := [], savedValue := [] } .deletion
      | .value => do
        let k ← it.key d.iter
        let value ← it.value d.iter
        retreat it { d with savedKey := k.userKey, savedValue := value } .value
  | none => retreat it d valueType

def findPrevStep : DBIter σ × ValueType → Res (DBIter σ × ValueType ⊕ DBIter σ × ValueType)
  | (d, valueType) => do
    let (ikey, d) ← d.parseKey it
    considerPrev it d valueType (ikey.filter (·.sequence ≤ sequence))

/-- The loop of `FindPrevUserEntry`, if there is an entry to start from. -/
def searchPrev (d : DBIter σ) : Res (DBIter σ × ValueType) :=
  if it.valid d.iter then Res.loop (findPrevStep it sequence) fuel (d, .deletion) else .ok (d, .deletion)

def settlePrev : DBIter σ × ValueType → DBIter σ
  | (d, .deletion) => { d with valid := false, savedKey := [], savedValue := [], direction := .forward }
  | (d, .value) => { d with valid := true }

def findPrevUserEntry (d : DBIter σ) : Res (DBIter σ) := do
  Res.check (d.direction = .reverse) .assertion
  return settlePrev (← searchPrev it sequence fuel d)

/-- One pass of the loop of `Prev` that leaves the entries of the current key; `true` if an entry of another
key has been found. -/
def scanBackStep (d : DBIter σ) : Res (DBIter σ ⊕ DBIter σ × Bool) := do
  let iter ← it.prev d.iter
  let d := { d with iter }
  if it.valid iter then
    let k ← it.key iter
    if sliceCompare k.userKey d.savedKey = .lt then
      return .inr (d, true)
    else
      return .inl d
  else
    return .inr ({ d with valid := false, savedKey := [], savedValue := [] }, false)

def prev (d : DBIter σ) : Res (DBIter σ) := do
  Res.check (d.valid = true) .assertion
  match d.direction with
  | .forward =>
    Res.check (it.valid d.iter = true) .assertion
    let k ← it.key d.iter
    let (d, found) ← Res.loop (scanBackStep it) fuel { d with savedKey := k.userKey }
    if found then
      findPrevUserEntry it sequence fuel { d with direction := .reverse }
    else
      return d
  | .reverse => findPrevUserEntry it sequence fuel d

/-! ## Seeks -/

def seek (target : Bytes) (d : DBIter σ) : Res (DBIter σ) := do
  let k ← InternalKey.new ⟨target, sequence, kValueTypeForSeek⟩
  let iter ← it.seek k d.iter
  let d := { d with direction := .forward, savedValue := [], savedKey := k.rep, iter }
  if it.valid iter then
    findNextUserEntry it sequence fuel d false
  else
    return { d with valid := false }

def seekToFirst (d : DBIter σ) : Res (DBIter σ) := do
  let iter ← it.seekToFirst d.iter
  let d := { d with direction := .forward, savedValue := [], iter }
  if it.valid iter then
    findNextUserEntry it sequence fuel d false
  else
    return { d with valid := false }

def seekToLast (d : DBIter σ) : Res (DBIter σ) := do
  let iter ← it.seekToLast d.iter
  findPrevUserEntry it sequence fuel { d with direction := .reverse, savedValue := [], iter }

/-- `DBIter` as an iterator over the user's keys. -/
def asIter : Iter (DBIter σ) Bytes Bytes where
  valid := valid
  key := key it
  value := value it
  seekToFirst := seekToFirst it sequence fuel
  seekToLast := seekToLast it sequence fuel
  accepts target := it.accepts (.ofParsed ⟨target, sequence, kValueTypeForSeek⟩)
  seek := seek it sequence fuel
  next := next it sequence fuel
  prev := prev it sequence fuel

end DBIter

end Dbms18.LevelDb
