import Dbms18.LevelDb.Entries
import Dbms18.Lib.Spans

/-!
# Versions and the choice of a compaction (`db/version_set.cc`)

A `Version` has the tables of each level. Those of level 0 may overlap; those of a level below it are in order and do
not. A table that is made of a memtable goes to a level above which nothing overlaps it
(`PickLevelForMemTableOutput`). A compaction takes tables of one level and the tables of the next one that overlap them
(`PickCompaction`, `SetupOtherInputs`); what it makes of them goes to the next level by a `VersionEdit`.

The table to begin with is chosen by sizes, seeks and `compact_pointer_`: here any table of the level may be. A file is
the list of its entries. `CompactRange` is left out, since nothing calls it.
-/

namespace Dbms18.LevelDb

open Std

def kNumLevels : Nat := 7

def kMaxMemCompactLevel : Nat := 2

/-- `FileMetaData`, with the entries of the table. -/
structure FileMetaData where
  number : Nat
  fileSize : Nat
  entries : List Entry
  nonempty : entries ≠ []
  inOrder : InOrder entries

namespace FileMetaData

def smallest (f : FileMetaData) : InternalKey := (f.entries.head f.nonempty).1

def largest (f : FileMetaData) : InternalKey := (f.entries.getLast f.nonempty).1

def span (f : FileMetaData) : Span Bytes := ⟨f.smallest.userKey, f.largest.userKey⟩

end FileMetaData

instance (es : List Entry) : Decidable (InOrder es) :=
  @List.instDecidablePairwise Entry (fun a b => InternalKey.compare a.1 b.1 = .lt) (fun _ _ => inferInstance) es

/-- `max_file_size` of the options, and what `TableBuilder::FileSize` says of a table of some entries. -/
structure Sizes where
  maxFileSize : Nat
  fileSize : List Entry → Nat

/-- A table of some entries; `TableBuilder::Add` asserts that they come in order. -/
def Sizes.table (sizes : Sizes) (number : Nat) (entries : List Entry) : Res FileMetaData :=
  if h : entries ≠ [] ∧ InOrder entries then .ok ⟨number, sizes.fileSize entries, entries, h.1, h.2⟩ else .error .assertion

def maxGrandParentOverlapBytes (sizes : Sizes) : Nat := 10 * sizes.maxFileSize

def expandedCompactionByteSizeLimit (sizes : Sizes) : Nat := 25 * sizes.maxFileSize

def totalFileSize (files : List FileMetaData) : Nat := (files.map FileMetaData.fileSize).sum

structure Version where
  files : Nat → List FileMetaData

/-! ## Overlaps -/

/-- The loop of `FindFile`. -/
def findFileFrom (files : List FileMetaData) (key : InternalKey) (left right : Nat) : Nat :=
  if left < right then
    let mid := (left + right) / 2
    if files[mid]?.any fun f => InternalKey.compare f.largest key = .lt then
      findFileFrom files key (mid + 1) right
    else
      findFileFrom files key left mid
  else
    right
termination_by right - left

def findFile (files : List FileMetaData) (key : InternalKey) : Nat := findFileFrom files key 0 files.length

def afterFile (userKey : Option Bytes) (f : FileMetaData) : Bool :=
  userKey.any fun k => compare k f.largest.userKey = .gt

def beforeFile (userKey : Option Bytes) (f : FileMetaData) : Bool :=
  userKey.any fun k => compare k f.smallest.userKey = .lt

def someFileOverlapsRange (disjointSortedFiles : Bool) (files : List FileMetaData)
    (smallestUserKey largestUserKey : Option Bytes) : Bool :=
  if disjointSortedFiles then
    let index := smallestUserKey.elim 0 fun k => findFile files (.ofParsed ⟨k, kMaxSequenceNumber, kValueTypeForSeek⟩)
    files[index]?.any fun f => !beforeFile largestUserKey f
  else
    files.any fun f => !(afterFile smallestUserKey f || beforeFile largestUserKey f)

namespace Version

def new : Version := ⟨fun _ => []⟩

def overlapInLevel (v : Version) (level : Nat) (smallestUserKey largestUserKey : Option Bytes) : Bool :=
  someFileOverlapsRange (level > 0) (v.files level) smallestUserKey largestUserKey

end Version

/-- The files that the range from `userBegin` to `userEnd` does not reach over: what is left for it to grow. -/
def outside (files : List FileMetaData) (userBegin userEnd : Option Bytes) : Nat :=
  files.countP (fun f => userBegin.any fun b => compare f.smallest.userKey b = .lt) +
    files.countP fun f => userEnd.any fun e => compare f.largest.userKey e = .gt

theorem countP_lt_countP {α : Type} {p q : α → Bool} {l : List α} {a : α} (h : ∀ x, p x = true → q x = true) (ha : a ∈ l)
    (hp : p a = false) (hq : q a = true) : l.countP p < l.countP q := by
  obtain ⟨l₁, l₂, rfl⟩ := List.append_of_mem ha
  have h₁ : l₁.countP p ≤ l₁.countP q := List.countP_mono_left fun x _ => h x
  have h₂ : l₂.countP p ≤ l₂.countP q := List.countP_mono_left fun x _ => h x
  simp only [List.countP_append, List.countP_cons, hp, hq]
  simp
  omega

section Outside

variable {files : List FileMetaData} {f : FileMetaData} {userBegin userEnd : Option Bytes}

theorem outside_begin_lt (hf : f ∈ files) (h : (userBegin.any fun b => compare f.smallest.userKey b = .lt) = true) :
    outside files (some f.smallest.userKey) userEnd < outside files userBegin userEnd := by
  obtain ⟨b, rfl, hb⟩ := (Option.any_eq_true _ _).1 h
  refine Nat.add_lt_add_right (countP_lt_countP (fun g hg => ?_) hf (by simp) h) _
  simp only [Option.any_some, decide_eq_true_eq] at hg hb ⊢
  exact TransCmp.lt_trans hg hb

theorem outside_end_lt (hf : f ∈ files) (h : (userEnd.any fun e => compare f.largest.userKey e = .gt) = true) :
    outside files userBegin (some f.largest.userKey) < outside files userBegin userEnd := by
  obtain ⟨e, rfl, he⟩ := (Option.any_eq_true _ _).1 h
  refine Nat.add_lt_add_left (countP_lt_countP (fun g hg => ?_) hf (by simp) h) _
  simp only [Option.any_some, decide_eq_true_eq] at hg he ⊢
  exact TransCmp.gt_trans hg he

end Outside

/-- The loop of `GetOverlappingInputs`. In level 0 a file that reaches over an end of the range makes the range longer, and
the search begins again. -/
def overlappingFrom (level : Nat) (files : List FileMetaData) (i : Nat) (userBegin userEnd : Option Bytes)
    (inputs : List FileMetaData) : List FileMetaData :=
  match _h : files[i]? with
  | none => inputs
  | some f =>
    if userBegin.any fun b => compare f.largest.userKey b = .lt then
      overlappingFrom level files (i + 1) userBegin userEnd inputs
    else if userEnd.any fun e => compare f.smallest.userKey e = .gt then
      overlappingFrom level files (i + 1) userBegin userEnd inputs
    else if _hbegin : level = 0 ∧ (userBegin.any fun b => compare f.smallest.userKey b = .lt) = true then
      overlappingFrom level files 0 (some f.smallest.userKey) userEnd []
    else if _hend : level = 0 ∧ (userEnd.any fun e => compare f.largest.userKey e = .gt) = true then
      overlappingFrom level files 0 userBegin (some f.largest.userKey) []
    else
      overlappingFrom level files (i + 1) userBegin userEnd (inputs ++ [f])
termination_by (outside files userBegin userEnd, files.length - i)
decreasing_by
  all_goals have hf := List.mem_of_getElem? _h
  all_goals have hi := (List.getElem?_eq_some_iff.1 _h).1
  · exact Prod.Lex.right _ (by omega)
  · exact Prod.Lex.right _ (by omega)
  · exact Prod.Lex.left _ _ (outside_begin_lt hf _hbegin.2)
  · exact Prod.Lex.left _ _ (outside_end_lt hf _hend.2)
  · exact Prod.Lex.right _ (by omega)

namespace Version

def getOverlappingInputs (v : Version) (level : Nat) (begin end' : Option InternalKey) : List FileMetaData :=
  overlappingFrom level (v.files level) 0 (begin.map InternalKey.userKey) (end'.map InternalKey.userKey) []

/-- The loop of `PickLevelForMemTableOutput`, with the levels left to go down. -/
def pushDown (sizes : Sizes) (v : Version) (smallestUserKey largestUserKey : Bytes) : Nat → Nat → Nat
  | 0, level => level
  | left + 1, level =>
    if v.overlapInLevel (level + 1) (some smallestUserKey) (some largestUserKey) then
      level
    else if level + 2 < kNumLevels && maxGrandParentOverlapBytes sizes < totalFileSize (v.getOverlappingInputs (level + 2)
        (some (.ofParsed ⟨smallestUserKey, kMaxSequenceNumber, kValueTypeForSeek⟩))
        (some (.ofParsed ⟨largestUserKey, 0, .deletion⟩))) then
      level
    else
      pushDown sizes v smallestUserKey largestUserKey left (level + 1)

def pickLevelForMemTableOutput (sizes : Sizes) (v : Version) (smallestUserKey largestUserKey : Bytes) : Nat :=
  if v.overlapInLevel 0 (some smallestUserKey) (some largestUserKey) then
    0
  else
    v.pushDown sizes smallestUserKey largestUserKey kMaxMemCompactLevel 0

end Version

/-! ## Compactions -/

def getRange : List FileMetaData → Res (InternalKey × InternalKey)
  | [] => .error .assertion
  | f :: files => return files.foldl (fun r f =>
      (if InternalKey.compare f.smallest r.1 = .lt then f.smallest else r.1,
        if InternalKey.compare f.largest r.2 = .gt then f.largest else r.2)) (f.smallest, f.largest)

def getRange2 (inputs1 inputs2 : List FileMetaData) : Res (InternalKey × InternalKey) := getRange (inputs1 ++ inputs2)

structure Compaction where
  level : Nat
  inputVersion : Version
  inputs0 : List FileMetaData
  inputs1 : List FileMetaData
  grandparents : List FileMetaData

namespace Version

/-- The part of `SetupOtherInputs` that takes more files of the level, if they meet no more files of the next one. -/
def expandInputs (sizes : Sizes) (v : Version) (level : Nat) (inputs0 inputs1 : List FileMetaData) :
    Res (List FileMetaData × List FileMetaData) := do
  let (allStart, allLimit) ← getRange2 inputs0 inputs1
  if inputs1 = [] then
    return (inputs0, inputs1)
  else
    let expanded0 := v.getOverlappingInputs level (some allStart) (some allLimit)
    if expanded0.length > inputs0.length &&
        totalFileSize inputs1 + totalFileSize expanded0 < expandedCompactionByteSizeLimit sizes then
      let (newStart, newLimit) ← getRange expanded0
      let expanded1 := v.getOverlappingInputs (level + 1) (some newStart) (some newLimit)
      return if expanded1.length = inputs1.length then (expanded0, expanded1) else (inputs0, inputs1)
    else
      return (inputs0, inputs1)

def setupOtherInputs (sizes : Sizes) (v : Version) (level : Nat) (inputs0 : List FileMetaData) : Res Compaction := do
  let (smallest, largest) ← getRange inputs0
  let inputs1 := v.getOverlappingInputs (level + 1) (some smallest) (some largest)
  let (inputs0, inputs1) ← v.expandInputs sizes level inputs0 inputs1
  let (allStart, allLimit) ← getRange2 inputs0 inputs1
  let grandparents :=
    if level + 2 < kNumLevels then v.getOverlappingInputs (level + 2) (some allStart) (some allLimit) else []
  return ⟨level, v, inputs0, inputs1, grandparents⟩

/-- `PickCompaction`, when the file `f` of the level was chosen. -/
def pickCompaction (sizes : Sizes) (v : Version) (level : Nat) (f : FileMetaData) : Res Compaction := do
  Res.check (level + 1 < kNumLevels) .assertion
  if level = 0 then
    let (smallest, largest) ← getRange [f]
    let inputs0 := v.getOverlappingInputs 0 (some smallest) (some largest)
    Res.check (inputs0 ≠ []) .assertion
    v.setupOtherInputs sizes 0 inputs0
  else
    v.setupOtherInputs sizes level [f]

end Version

namespace Compaction

def isTrivialMove (sizes : Sizes) (c : Compaction) : Bool :=
  c.inputs0.length = 1 && c.inputs1.length = 0 && totalFileSize c.grandparents ≤ maxGrandParentOverlapBytes sizes

end Compaction

/-! ## Edits -/

/-- `VersionEdit`: the numbers of files that go, and files that come, with their levels. -/
structure VersionEdit where
  deletedFiles : List (Nat × Nat)
  newFiles : List (Nat × FileMetaData)

/-- `BySmallestKey` -/
def bySmallestKey (f g : FileMetaData) : Bool :=
  match InternalKey.compare f.smallest g.smallest with
  | .lt => true
  | .gt => false
  | .eq => f.number < g.number

/-- The loop of `SaveTo` over the files that are added, without those that are left out: `std::upper_bound` finds the files
of the base that go before. -/
def mergeFiles : List FileMetaData → List FileMetaData → List FileMetaData
  | [], base => base
  | f :: added, base =>
    base.takeWhile (fun g => !bySmallestKey f g) ++ f :: mergeFiles added (base.dropWhile fun g => !bySmallestKey f g)

def maybeAddFile (level : Nat) (deleted : List Nat) (files : List FileMetaData) (f : FileMetaData) :
    Res (List FileMetaData) := do
  if f.number ∈ deleted then
    return files
  else
    Res.check (level = 0 ∨ ∀ last ∈ files.getLast?, InternalKey.compare last.largest f.smallest = .lt) .assertion
    return files ++ [f]

namespace VersionEdit

def added (edit : VersionEdit) (level : Nat) : List FileMetaData :=
  (edit.newFiles.filter fun p => p.1 = level).map Prod.snd

/-- The numbers that `Apply` leaves in `deleted_files`. -/
def deleted (edit : VersionEdit) (level : Nat) : List Nat :=
  ((edit.deletedFiles.filter fun p => p.1 = level).map Prod.snd).filter fun n =>
    n ∉ (edit.added level).map FileMetaData.number

/-- `Builder::SaveTo` for one level; the files that are added are in the order of `BySmallestKey`. -/
def saveTo (edit : VersionEdit) (base : Version) (level : Nat) : Res (List FileMetaData) :=
  (mergeFiles ((edit.added level).mergeSort fun f g => !bySmallestKey g f) (base.files level)).foldlM
    (maybeAddFile level (edit.deleted level)) []

/-- `LogAndApply`, without the log. -/
def apply (edit : VersionEdit) (base : Version) : Res Version := do
  let levels ← (List.range kNumLevels).mapM (edit.saveTo base)
  return ⟨fun level => levels[level]?.getD []⟩

end VersionEdit

/-- The edit of `WriteLevel0Table`. -/
def flushEdit (level : Nat) (f : FileMetaData) : VersionEdit := ⟨[], [(level, f)]⟩

/-- `AddInputDeletions` and the files of `InstallCompactionResults`. -/
def Compaction.edit (c : Compaction) (outputs : List FileMetaData) : VersionEdit where
  deletedFiles := c.inputs0.map (fun f => (c.level, f.number)) ++ c.inputs1.map fun f => (c.level + 1, f.number)
  newFiles := outputs.map fun f => (c.level + 1, f)

end Dbms18.LevelDb
