import Dbms18.LevelDb.Contents
import Dbms18.LevelDb.MergerWalks

/-!
# The work of a compaction (`DBImpl::DoCompactionWork` in `db/db_impl.cc`, `Compaction` in `db/version_set.cc`)

A compaction goes through the entries of its inputs in order and writes the ones that it does not drop to new tables. It
drops an entry if a newer one of its user key hides it from all readers, and a deletion if no level below has the key.
What it has written after each pass of its loop is what readers can find of the entries it has passed (`KeptOnce`).

A pass is a step of its own, since memtables become tables between the passes.
-/

namespace Dbms18.LevelDb

open List Std Dbms18.Span Iter

/-- The entries that the iterators over files of a level go through: those of each file in level 0, else of all of them. -/
def levelEntries (level : Nat) (files : List FileMetaData) : List (List Entry) :=
  if level = 0 then
    files.map FileMetaData.entries
  else if files = [] then
    []
  else
    [files.flatMap FileMetaData.entries]

abbrev inputIter : Iter (MergedIterator (List Entry × Nat) InternalKey) InternalKey Bytes :=
  MergedIterator.asIter (ofList InternalKey.compare) InternalKey.compare

namespace Compaction

def makeInputIterator (c : Compaction) : Res (MergedIterator (List Entry × Nat) InternalKey) :=
  newMergingIterator (ofList InternalKey.compare)
    ((levelEntries c.level c.inputs0 ++ levelEntries (c.level + 1) c.inputs1).map fun es => (es, 0))

/-- The fields of `Compaction` that change: `level_ptrs_`, `grandparent_index_`, `seen_key_` and `overlapped_bytes_`. -/
structure Scan where
  levelPtrs : Nat → Nat
  grandparentIndex : Nat
  seenKey : Bool
  overlappedBytes : Nat

def Scan.new : Scan := ⟨fun _ => 0, 0, false, 0⟩

/-- The loop of `IsBaseLevelForKey` over the levels. -/
def isBaseLevelFrom (v : Version) (userKey : Bytes) : List Nat → (Nat → Nat) → Bool × (Nat → Nat)
  | [], ptrs => (true, ptrs)
  | lvl :: lvls, ptrs =>
    let passed := ((v.files lvl).drop (ptrs lvl)).takeWhile fun f => compare userKey f.largest.userKey = .gt
    let ptr := ptrs lvl + passed.length
    let ptrs := fun l => if l = lvl then ptr else ptrs l
    if (v.files lvl)[ptr]?.any fun f => (compare f.smallest.userKey userKey).isLE then
      (false, ptrs)
    else
      isBaseLevelFrom v userKey lvls ptrs

def isBaseLevelForKey (c : Compaction) (scan : Scan) (userKey : Bytes) : Bool × Scan :=
  let base := isBaseLevelFrom c.inputVersion userKey (List.range' (c.level + 2) (kNumLevels - (c.level + 2))) scan.levelPtrs
  (base.1, { scan with levelPtrs := base.2 })

def shouldStopBefore (sizes : Sizes) (c : Compaction) (scan : Scan) (key : InternalKey) : Bool × Scan :=
  let passed := (c.grandparents.drop scan.grandparentIndex).takeWhile fun f => InternalKey.compare key f.largest = .gt
  let overlappedBytes := if scan.seenKey then scan.overlappedBytes + totalFileSize passed else scan.overlappedBytes
  let scan := { scan with grandparentIndex := scan.grandparentIndex + passed.length, seenKey := true }
  if overlappedBytes > maxGrandParentOverlapBytes sizes then
    (true, { scan with overlappedBytes := 0 })
  else
    (false, { scan with overlappedBytes })

end Compaction

/-- The tables of a compaction that are finished, and the one that is being built with its number. -/
structure Outputs where
  outputs : List FileMetaData
  builder : Option (Nat × List Entry)

namespace Outputs

def finishCompactionOutputFile (sizes : Sizes) (out : Outputs) : Res Outputs := do
  let (number, es) ← Res.getD out.builder .assertion
  let f ← sizes.table number es
  return ⟨out.outputs ++ [f], none⟩

/-- The entry is added to the table, which may have to be opened, and is finished if it is large enough. -/
def add (sizes : Sizes) (nextFileNumber : Nat) (out : Outputs) (e : Entry) : Res (Outputs × Nat) := do
  let (number, es) := out.builder.getD (nextFileNumber, [])
  let nextFileNumber := if out.builder.isNone then nextFileNumber + 1 else nextFileNumber
  let out : Outputs := { out with builder := some (number, es ++ [e]) }
  if sizes.maxFileSize ≤ sizes.fileSize (es ++ [e]) then
    return (← out.finishCompactionOutputFile sizes, nextFileNumber)
  else
    return (out, nextFileNumber)

def pass (sizes : Sizes) (nextFileNumber : Nat) (dropped : Bool) (out : Outputs) (e : Entry) : Res (Outputs × Nat) :=
  if dropped then return (out, nextFileNumber) else out.add sizes nextFileNumber e

end Outputs

/-- `CompactionState` and the variables of `DoCompactionWork`. -/
structure CompactionState where
  compaction : Compaction
  smallestSnapshot : Nat
  scan : Compaction.Scan
  input : MergedIterator (List Entry × Nat) InternalKey
  currentUserKey : Option Bytes
  lastSequenceForKey : Nat
  out : Outputs

namespace CompactionState

def start (c : Compaction) (smallestSnapshot : Nat) : Res CompactionState := do
  let input ← inputIter.seekToFirst (← c.makeInputIterator)
  return ⟨c, smallestSnapshot, .new, input, none, kMaxSequenceNumber, ⟨[], none⟩⟩

/-- Whether the entry with this key is dropped. -/
def drop (st : CompactionState) (key : InternalKey) : Bool × CompactionState :=
  match key.parse with
  | none => (false, { st with currentUserKey := none, lastSequenceForKey := kMaxSequenceNumber })
  | some ikey =>
    let last := if st.currentUserKey = some ikey.userKey then st.lastSequenceForKey else kMaxSequenceNumber
    let st := { st with currentUserKey := some ikey.userKey, lastSequenceForKey := ikey.sequence }
    if last ≤ st.smallestSnapshot then
      (true, st)
    else if ikey.type = .deletion ∧ ikey.sequence ≤ st.smallestSnapshot then
      let base := st.compaction.isBaseLevelForKey st.scan ikey.userKey
      (base.1, { st with scan := base.2 })
    else
      (false, st)

/-- The table that is being built is finished before a key if `ShouldStopBefore` says so. -/
def stop (sizes : Sizes) (st : CompactionState) (key : InternalKey) : Res CompactionState := do
  let stop := st.compaction.shouldStopBefore sizes st.scan key
  let st := { st with scan := stop.2 }
  if stop.1 && st.out.builder.isSome then
    return { st with out := ← st.out.finishCompactionOutputFile sizes }
  else
    return st

/-- A pass of the loop of `DoCompactionWork`, and the next file number after it. -/
def work (sizes : Sizes) (nextFileNumber : Nat) (st : CompactionState) : Res (CompactionState × Nat) := do
  let key ← inputIter.key st.input
  let st ← st.stop sizes key
  let dropped := st.drop key
  let value ← inputIter.value st.input
  let out ← st.out.pass sizes nextFileNumber dropped.1 (key, value)
  return ({ dropped.2 with input := ← inputIter.next st.input, out := out.1 }, out.2)

def finish (sizes : Sizes) (st : CompactionState) : Res (List FileMetaData) := do
  if st.out.builder.isSome then
    return (← st.out.finishCompactionOutputFile sizes).outputs
  else
    return st.out.outputs

end CompactionState

/-! ## The levels below -/

namespace Compaction

variable {v : Version} {files : List FileMetaData} {k : Bytes} {ptrs : Nat → Nat}

/-- The files that have been passed end before the key. -/
def Behind (v : Version) (ptrs : Nat → Nat) (k : Bytes) : Prop :=
  ∀ lvl, ∀ f ∈ (v.files lvl).take (ptrs lvl), compare f.largest.userKey k = .lt

theorem largest_lt_of_passed {ptr : Nat} (hbehind : ∀ f ∈ files.take ptr, compare f.largest.userKey k = .lt) :
    ∀ f ∈ files.take (ptr + ((files.drop ptr).takeWhile fun f => compare k f.largest.userKey = .gt).length),
      compare f.largest.userKey k = .lt := by
  intro f hf
  rw [take_add] at hf
  rcases mem_append.1 hf with hf | hf
  · exact hbehind f hf
  · have hsplit := takeWhile_append_dropWhile (p := fun f : FileMetaData => compare k f.largest.userKey = .gt)
      (l := files.drop ptr)
    generalize hpassed : ((files.drop ptr).takeWhile fun f => compare k f.largest.userKey = .gt) = passed at hsplit hf
    rw [← hsplit, take_left, ← hpassed] at hf
    have hgt := mem_takeWhile_imp hf
    exact OrientedCmp.gt_iff_lt.1 (of_decide_eq_true hgt)

theorem not_holds_of_passed (hsep : Separated files) {ptr : Nat}
    (hbehind : ∀ f ∈ files.take ptr, compare f.largest.userKey k = .lt)
    (hstop : (files[ptr]?.any fun f => (compare f.smallest.userKey k).isLE) = false) :
    ∀ f ∈ files, ¬ f.span.Holds compare k := by
  intro f hf hholds
  rw [← take_append_drop ptr files] at hf hsep
  rcases mem_append.1 hf with hf | hf
  · exact OrientedCmp.not_isLE_of_lt (hbehind f hf) hholds.2
  · have hlt : ptr < files.length := by
      by_contra hge
      rw [drop_eq_nil_of_le (Nat.le_of_not_lt hge)] at hf
      cases hf
    rw [getElem?_eq_getElem hlt, Option.any_some] at hstop
    have hsep := (pairwise_append.1 hsep).2.1
    rw [drop_eq_getElem_cons hlt] at hf hsep
    have hhead : ¬ (compare files[ptr].smallest.userKey k).isLE = true := Bool.not_eq_true _ ▸ hstop
    rcases mem_cons.1 hf with rfl | hf
    · exact hhead hholds.1
    · have hnext := (pairwise_cons.1 hsep).1 f hf
      have hle := TransCmp.isLE_trans files[ptr].nonempty_span (Ordering.isLE_of_eq_lt hnext)
      exact hhead (TransCmp.isLE_trans hle hholds.1)

theorem isBaseLevelFrom_spec {lvls : List Nat} (hsep : ∀ lvl ∈ lvls, Separated (v.files lvl)) (hbehind : Behind v ptrs k) :
    Behind v (isBaseLevelFrom v k lvls ptrs).2 k ∧
      ((isBaseLevelFrom v k lvls ptrs).1 = true → ∀ lvl ∈ lvls, ∀ f ∈ v.files lvl, ¬ f.span.Holds compare k) := by
  induction lvls generalizing ptrs with
  | nil => exact ⟨hbehind, by simp⟩
  | cons lvl lvls ih =>
    obtain ⟨hfirst, hrest⟩ := forall_mem_cons.1 hsep
    rw [isBaseLevelFrom]
    have hpassed := largest_lt_of_passed (hbehind lvl)
    generalize (((v.files lvl).drop (ptrs lvl)).takeWhile fun f => compare k f.largest.userKey = .gt) = passed at hpassed ⊢
    have hbehind' : Behind v (fun l => if l = lvl then ptrs lvl + passed.length else ptrs l) k := by
      intro l f hf
      dsimp only at hf
      split at hf
      · next heq => exact hpassed f (heq ▸ hf)
      · exact hbehind l f hf
    split
    · exact ⟨hbehind', fun h => absurd h Bool.false_ne_true⟩
    · next hstop =>
      obtain ⟨hafter, hbase⟩ := ih hrest hbehind'
      refine ⟨hafter, fun htrue l hl => ?_⟩
      rcases mem_cons.1 hl with rfl | hl
      · exact not_holds_of_passed hfirst hpassed (Bool.not_eq_true _ ▸ hstop)
      · exact hbase htrue l hl

theorem isBaseLevelForKey_spec {c : Compaction} {scan : Scan} (hok : c.inputVersion.Ok)
    (hbehind : Behind c.inputVersion scan.levelPtrs k) :
    Behind c.inputVersion (c.isBaseLevelForKey scan k).2.levelPtrs k ∧ ((c.isBaseLevelForKey scan k).1 = true → c.Base k) := by
  obtain ⟨hafter, hbase⟩ := @isBaseLevelFrom_spec c.inputVersion k scan.levelPtrs
    (List.range' (c.level + 2) (kNumLevels - (c.level + 2)))
    (fun lvl hlvl => hok.separated lvl (by have := (mem_range'_1.1 hlvl).1; omega)) hbehind
  refine ⟨hafter, fun htrue i hi g hg => hbase htrue i (mem_range'_1.2 ⟨hi, ?_⟩) g hg⟩
  by_contra hge
  rw [hok.empty i (by omega)] at hg
  cases hg

end Compaction

/-! ## The tables that are written -/

namespace Outputs

variable (sizes : Sizes) {out : Outputs} {e : Entry} {nextFileNumber : Nat}

def written (out : Outputs) : List Entry := out.outputs.flatMap FileMetaData.entries ++ out.builder.elim [] Prod.snd

def numbers (out : Outputs) : List Nat := out.outputs.map FileMetaData.number ++ out.builder.toList.map Prod.fst

/-- A table is opened for an entry. -/
def Ok (out : Outputs) : Prop := ∀ b ∈ out.builder, b.2 ≠ []

theorem exists_table (number : Nat) {es : List Entry} (hne : es ≠ []) (hes : InOrder es) :
    ∃ f, sizes.table number es = .ok f ∧ f.number = number ∧ f.entries = es :=
  ⟨⟨number, sizes.fileSize es, es, hne, hes⟩, dif_pos ⟨hne, hes⟩, rfl, rfl⟩

theorem exists_finish (hok : out.Ok) (horder : InOrder out.written) (hsome : out.builder.isSome = true) :
    ∃ out', out.finishCompactionOutputFile sizes = .ok out' ∧ out'.builder = none ∧ out'.written = out.written ∧
      out'.numbers = out.numbers := by
  obtain ⟨⟨number, es⟩, hbuilder⟩ := Option.isSome_iff_exists.1 hsome
  rw [written, hbuilder] at horder
  obtain ⟨f, hf, hnumber, hentries⟩ := exists_table sizes number (hok _ hbuilder)
    (pairwise_append.1 horder).2.1
  refine ⟨⟨out.outputs ++ [f], none⟩, ?_, rfl, ?_, ?_⟩
  · rw [finishCompactionOutputFile, hbuilder, Res.getD_some, Res.ok_bind]
    dsimp only
    rw [hf]
    rfl
  · simp [written, hbuilder, hentries]
  · simp [numbers, hbuilder, hnumber]

def Numbers (before : List Nat) (next : Nat) (after : List Nat) (next' : Nat) : Prop :=
  after = before ∧ next' = next ∨ after = before ++ [next] ∧ next' = next + 1

theorem exists_add (horder : InOrder (out.written ++ [e])) :
    ∃ out' next', out.add sizes nextFileNumber e = .ok (out', next') ∧ out'.Ok ∧ out'.written = out.written ++ [e] ∧
      Numbers out.numbers nextFileNumber out'.numbers next' := by
  -- the table before it may be finished
  obtain ⟨out₁, next', h₁, hok₁, hwritten, hnumbers, hnumber⟩ : ∃ (out₁ : Outputs) (next' : Nat),
      out.add sizes nextFileNumber e = (if sizes.maxFileSize ≤ sizes.fileSize (out₁.builder.elim [] Prod.snd) then
        (do return (← out₁.finishCompactionOutputFile sizes, next')) else .ok (out₁, next')) ∧
      out₁.Ok ∧ out₁.written = out.written ++ [e] ∧ Numbers out.numbers nextFileNumber out₁.numbers next' ∧
      out₁.builder.isSome = true := by
    cases hbuilder : out.builder with
    | none =>
      refine ⟨⟨out.outputs, some (nextFileNumber, [e])⟩, nextFileNumber + 1, by rw [add, hbuilder]; rfl, by simp [Ok], ?_,
        .inr ⟨?_, rfl⟩, rfl⟩
      · simp [written, hbuilder]
      · simp [numbers, hbuilder]
    | some b =>
      refine ⟨⟨out.outputs, some (b.1, b.2 ++ [e])⟩, nextFileNumber, by rw [add, hbuilder]; rfl, by simp [Ok], ?_,
        .inl ⟨?_, rfl⟩, rfl⟩
      · simp [written, hbuilder]
      · simp [numbers, hbuilder]
  rw [h₁]
  split
  · obtain ⟨out', hout', hnone, hwritten', hnumbers'⟩ := exists_finish sizes hok₁ (hwritten ▸ horder) hnumber
    refine ⟨out', next', by rw [hout']; rfl, by simp [Ok, hnone], hwritten'.trans hwritten, ?_⟩
    rwa [hnumbers']
  · exact ⟨out₁, next', rfl, hok₁, hwritten, hnumbers⟩

end Outputs

/-! ## Entries in order -/

theorem inOrder_flatMap {files : List FileMetaData} (h : Separated files) :
    InOrder (files.flatMap FileMetaData.entries) := by
  refine pairwise_flatMap.2 ⟨fun f _ => f.inOrder, h.imp fun {f g} hlt a ha b hb => ?_⟩
  have hle := (FileMetaData.holds_span ha).2
  have hle' := (FileMetaData.holds_span hb).1
  exact InternalKey.compare_eq_lt_iff.2 (.inl (TransCmp.lt_of_isLE_of_lt hle (TransCmp.lt_of_lt_of_isLE hlt hle')))

theorem inOrder_levelEntries {level : Nat} {files : List FileMetaData} (h : level ≠ 0 → Separated files) :
    ∀ L ∈ levelEntries level files, InOrder L := by
  intro L hL
  unfold levelEntries at hL
  split at hL
  · obtain ⟨f, -, rfl⟩ := mem_map.1 hL
    exact f.inOrder
  · next hlevel =>
    split at hL
    · cases hL
    · obtain rfl := mem_singleton.1 hL
      exact inOrder_flatMap (h hlevel)

theorem flatten_levelEntries (level : Nat) (files : List FileMetaData) :
    (levelEntries level files).flatten = files.flatMap FileMetaData.entries := by
  unfold levelEntries
  split
  · rfl
  · split
    · next hnil =>
      rw [hnil]
      rfl
    · rw [flatten_singleton]

/-! ## Passes -/

/-- The entries of the inputs are `es`; those of `A` have been passed, those of `B` have not. -/
structure Working (c : Compaction) (es A B : List Entry) (st : CompactionState) : Prop where
  cut : es = A ++ B
  compaction : st.compaction = c
  input : inputIter.StandsAt InternalKey.compare es st.input A.length
  sees : ∀ e ∈ es, e.1.sequence ≤ st.smallestSnapshot
  snapshot : st.smallestSnapshot < kMaxSequenceNumber
  current : st.currentUserKey = A.getLast?.map fun e => e.1.userKey
  last : A ≠ [] → st.lastSequenceForKey ≤ st.smallestSnapshot
  behind : ∀ e ∈ B, Compaction.Behind c.inputVersion st.scan.levelPtrs e.1.userKey
  out : st.out.Ok
  kept : KeptOnce c.Base A st.out.written

namespace Working

variable (sizes : Sizes) {c : Compaction} {es A B : List Entry} {e : Entry} {st : CompactionState}

theorem inOrder_written (h : Working c es A B st) (hes : InOrder es) : InOrder st.out.written :=
  List.Pairwise.sublist (h.kept.sublist.trans (h.cut ▸ sublist_append_left ..)) hes

theorem userKey_ne (hes : InOrder (A ++ e :: B)) (hlast : (A.getLast?.map fun e => e.1.userKey) ≠ some e.1.userKey) :
    ∀ a ∈ A, a.1.userKey ≠ e.1.userKey := by
  intro a ha huser
  obtain ⟨hA, -, hacross⟩ := pairwise_append.1 hes
  have hne := ne_nil_of_mem ha
  have hle : (compare a.1.userKey (A.getLast hne).1.userKey).isLE = true := by
    rw [← dropLast_append_getLast hne] at ha hA
    rcases mem_append.1 ha with ha | ha
    · exact InternalKey.userKey_le_of_lt ((pairwise_append.1 hA).2.2 a ha _ (mem_singleton_self _))
    · rw [← mem_singleton.1 ha]
      exact ReflCmp.isLE_rfl
  have hle' := InternalKey.userKey_le_of_lt (hacross _ (getLast_mem hne) e mem_cons_self)
  refine hlast ?_
  rw [getLast?_eq_some_getLast hne, Option.map_some]
  refine congrArg some (Std.compare_eq_iff_eq.1 ?_)
  rw [huser] at hle
  exact OrientedCmp.isLE_antisymm hle' hle

theorem drop (h : Working c es A (e :: B) st) (hes : InOrder es) (hparse : e.1.parse ≠ none) (hok : c.inputVersion.Ok) :
    ∃ d scan, st.drop e.1 = (d, { st with currentUserKey := some e.1.userKey, lastSequenceForKey := e.1.sequence, scan }) ∧
      (∀ e' ∈ B, Compaction.Behind c.inputVersion scan.levelPtrs e'.1.userKey) ∧
      KeptOnce c.Base (A ++ [e]) (if d then st.out.written else st.out.written ++ [e]) := by
  obtain ⟨ikey, hp⟩ := Option.ne_none_iff_exists'.1 hparse
  obtain ⟨huser, hsequence⟩ := InternalKey.parse_eq_some hp
  have hbehind : ∀ e' ∈ B, Compaction.Behind c.inputVersion st.scan.levelPtrs e'.1.userKey :=
    fun e' he' => h.behind e' (mem_cons_of_mem e he')
  rw [h.cut] at hes
  obtain ⟨-, hrest, hacross⟩ := pairwise_append.1 hes
  rw [CompactionState.drop, hp]
  dsimp only
  rw [huser, hsequence]
  by_cases hsame : st.currentUserKey = some e.1.userKey
  · -- a newer entry of the key has been passed
    have hlast := h.current.symm.trans hsame
    obtain ⟨a, ha, hauser⟩ := Option.map_eq_some_iff.1 hlast
    have hmem := mem_of_getLast? ha
    rw [if_pos hsame, if_pos (h.last (ne_nil_of_mem hmem))]
    exact ⟨true, st.scan, rfl, hbehind, h.kept.hide hmem hauser (hacross a hmem e mem_cons_self)⟩
  · have hnew := userKey_ne hes (h.current ▸ hsame)
    rw [if_neg hsame, if_neg (Nat.not_le.2 h.snapshot)]
    split
    · next hdeletion =>
      rw [h.compaction]
      obtain ⟨hafter, hbase⟩ := Compaction.isBaseLevelForKey_spec hok (h.behind e mem_cons_self)
      refine ⟨_, _, rfl, fun e' he' lvl f hf => ?_, ?_⟩
      · exact TransCmp.lt_of_lt_of_isLE (hafter lvl f hf)
          (InternalKey.userKey_le_of_lt ((pairwise_cons.1 hrest).1 e' he'))
      · split
        · next htrue => exact h.kept.drop hnew ⟨ikey, hp, hdeletion.1⟩ (hbase htrue)
        · exact h.kept.write hnew
    · exact ⟨false, st.scan, rfl, hbehind, h.kept.write hnew⟩

theorem stop (h : Working c es A B st) (hes : InOrder es) (key : InternalKey) :
    ∃ scan out, st.stop sizes key = .ok { st with scan, out } ∧ scan.levelPtrs = st.scan.levelPtrs ∧ out.Ok ∧
      out.written = st.out.written ∧ out.numbers = st.out.numbers := by
  have hptrs : (st.compaction.shouldStopBefore sizes st.scan key).2.levelPtrs = st.scan.levelPtrs := by
    unfold Compaction.shouldStopBefore
    dsimp only
    split_ifs <;> rfl
  rw [CompactionState.stop]
  generalize st.compaction.shouldStopBefore sizes st.scan key = stop at hptrs ⊢
  dsimp only
  by_cases hstop : (stop.1 && st.out.builder.isSome) = true
  · obtain ⟨out, hout, hnone, hwritten, hnumbers⟩ :=
      Outputs.exists_finish sizes h.out (h.inOrder_written hes) (Bool.and_eq_true_iff.1 hstop).2
    rw [if_pos hstop, hout]
    exact ⟨stop.2, out, rfl, hptrs, by simp [Outputs.Ok, hnone], hwritten, hnumbers⟩
  · rw [if_neg hstop]
    exact ⟨stop.2, st.out, rfl, hptrs, h.out, rfl, rfl⟩

theorem work (h : Working c es A (e :: B) st) (nextFileNumber : Nat) (hes : InOrder es) (hparse : e.1.parse ≠ none)
    (hok : c.inputVersion.Ok) :
    ∃ st' next', st.work sizes nextFileNumber = .ok (st', next') ∧ Working c es (A ++ [e]) B st' ∧
      Outputs.Numbers st.out.numbers nextFileNumber st'.out.numbers next' := by
  obtain ⟨scan, out, hstop, hptrs, hout, hwritten, hnumbers⟩ := h.stop sizes hes e.1
  have h₁ : Working c es A (e :: B) { st with scan, out } :=
    ⟨h.cut, h.compaction, h.input, h.sees, h.snapshot, h.current, h.last, by rw [hptrs]; exact h.behind, hout,
      by rw [hwritten]; exact h.kept⟩
  obtain ⟨d, scan', hdrop, hbehind, hkept⟩ := h₁.drop hes hparse hok
  have hcons : es = A ++ [e] ++ B := by rw [h.cut, append_assoc, singleton_append]
  obtain ⟨input, hnext, hinput⟩ := walks_standsAt.next_of_cons h.cut h.input
  obtain ⟨out', next', hadd, hout', hwritten', hnumbers'⟩ : ∃ out' next',
      out.pass sizes nextFileNumber d e = .ok (out', next') ∧ out'.Ok ∧ out'.written =
        (if d then out.written else out.written ++ [e]) ∧
      Outputs.Numbers out.numbers nextFileNumber out'.numbers next' := by
    cases d with
    | true => exact ⟨out, nextFileNumber, rfl, hout, rfl, .inl ⟨rfl, rfl⟩⟩
    | false =>
      refine Outputs.exists_add sizes (List.Pairwise.sublist (hkept.sublist.trans ?_) hes)
      rw [hcons]
      exact sublist_append_left ..
  refine ⟨{ st with currentUserKey := some e.1.userKey, lastSequenceForKey := e.1.sequence, scan := scan', input, out := out' },
    next', ?_, ⟨hcons, h.compaction, hinput, h.sees, h.snapshot, ?_, fun _ => ?_, hbehind, hout', ?_⟩, hnumbers ▸ hnumbers'⟩
  · rw [CompactionState.work, walks_standsAt.key_of_cons h.cut h.input, Res.ok_bind, hstop, Res.ok_bind]
    dsimp only
    rw [hdrop, walks_standsAt.value_of_cons h.cut h.input, Res.ok_bind]
    dsimp only
    rw [hadd, Res.ok_bind, hnext]
    rfl
  · simp
  · exact h.sees e (h.cut ▸ mem_append_right _ mem_cons_self)
  · change KeptOnce c.Base _ out'.written
    rw [hwritten']
    exact hkept

/-! ## The beginning and the end -/

variable {all r : Span Bytes}

theorem start {snapshot : Nat} (hok : c.inputVersion.Ok) (h : Taken c.inputVersion c.level c.inputs0 c.inputs1 r all)
    (hes : InOrder es) (hperm : es.Perm ((c.inputs0 ++ c.inputs1).flatMap FileMetaData.entries))
    (hsees : ∀ e ∈ es, e.1.sequence ≤ snapshot) (hsnapshot : snapshot < kMaxSequenceNumber) :
    ∃ st, CompactionState.start c snapshot = .ok st ∧ Working c es [] es st ∧ st.out.numbers = [] := by
  have h0 := inOrder_levelEntries fun hlevel => (hok.separated c.level hlevel).sublist h.sublist
  have h1 := inOrder_levelEntries fun hlevel => (hok.separated (c.level + 1) hlevel).sublist
    (h.inputs1_eq ▸ filter_sublist)
  have hmerges : MergingIterator.Merges InternalKey.compare
      (levelEntries c.level c.inputs0 ++ levelEntries (c.level + 1) c.inputs1) es := by
    refine ⟨hes, ?_, fun L hL => (mem_append.1 hL).elim (h0 L) (h1 L)⟩
    rwa [flatten_append, flatten_levelEntries, flatten_levelEntries, ← flatMap_append]
  obtain ⟨m, i, hm, hstands⟩ := MergingIterator.standsAt_newMergingIterator hmerges (fun _ _ => trivial)
    (MergingIterator.all_ofList InternalKey.compare _)
  obtain ⟨input, hinput, hfirst⟩ := walks_standsAt.seekToFirst hstands
  refine ⟨⟨c, snapshot, .new, input, none, kMaxSequenceNumber, ⟨[], none⟩⟩, ?_,
    ⟨rfl, rfl, hfirst, hsees, hsnapshot, rfl, fun hne => absurd rfl hne, fun e _ lvl f hf => ?_, by simp [Outputs.Ok],
      keptOnce_nil⟩,
    rfl⟩
  · rw [CompactionState.start, Compaction.makeInputIterator, hm, Res.ok_bind, hinput]
    rfl
  · rw [show Compaction.Scan.new.levelPtrs lvl = 0 from rfl, take_zero] at hf
    cases hf

theorem finish (h : Working c es es [] st) (hes : InOrder es) :
    ∃ outputs, st.finish sizes = .ok outputs ∧ outputs.map FileMetaData.number = st.out.numbers ∧
      KeptOnce c.Base es (outputs.flatMap FileMetaData.entries) := by
  have hkept := h.kept
  rw [CompactionState.finish]
  cases hbuilder : st.out.builder with
  | none =>
    refine ⟨st.out.outputs, rfl, ?_, ?_⟩
    · simp [Outputs.numbers, hbuilder]
    · simpa [Outputs.written, hbuilder] using hkept
  | some b =>
    obtain ⟨out, hout, hnone, hwritten, hnumbers⟩ :=
      Outputs.exists_finish sizes h.out (h.inOrder_written hes) (by rw [hbuilder]; rfl)
    refine ⟨out.outputs, ?_, ?_, ?_⟩
    · rw [Option.isSome_some, if_pos rfl, hout]
      rfl
    · rw [← hnumbers]
      simp [Outputs.numbers, hnone]
    · rw [← hwritten] at hkept
      simpa [Outputs.written, hnone] using hkept

end Working

theorem Chosen.replaces {v : Version} {c : Compaction} {all : Span Bytes} {outputs : List FileMetaData} {es : List Entry}
    (h : Chosen v c all) (hes : InOrder es) (hperm : es.Perm ((c.inputs0 ++ c.inputs1).flatMap FileMetaData.entries))
    (hkept : KeptOnce c.Base es (outputs.flatMap FileMetaData.entries)) (hnodup : (outputs.map FileMetaData.number).Nodup)
    (hfresh : ∀ n ∈ outputs.map FileMetaData.number, ∀ i, ∀ g ∈ v.files i, g.number ≠ n) : Replaces v c all outputs := by
  refine ⟨h, ?_, fun o ho e he => ?_, pairwise_map.1 hnodup, fun o ho i g hg heq => ?_⟩
  · have hboth := (List.Pairwise.sublist hkept.sublist hes).and hkept.single
    refine (pairwise_flatMap.1 hboth).2.imp fun {f g} hfg => not_meets_of_lt ?_
    obtain ⟨hlt, hne⟩ := hfg _ (getLast_mem f.nonempty) _ (head_mem g.nonempty)
    exact Versions.lt_of_isLE_of_ne (InternalKey.userKey_le_of_lt hlt) hne
  · have hmem := hperm.subset (hkept.sublist.subset (mem_flatMap_of_mem ho he))
    exact mem_flatMap.1 hmem
  · exact absurd heq (hfresh _ (mem_map_of_mem ho) i g hg)

end Dbms18.LevelDb
