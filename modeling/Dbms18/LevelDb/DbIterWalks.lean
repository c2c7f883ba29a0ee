import Dbms18.Lib.Versions
import Dbms18.LevelDb.DbIter

/-!
# `DBIter` walks over the records of a snapshot

Over entries in the order of their internal keys, `DBIter` at a sequence number walks over the records that
are visible at that number: for every user key the newest visible entry, unless that is a deletion. This holds
in both directions and when the direction changes, over any inner iterator that walks over the entries.

The entries are cut in two where the inner iterator stands. What `FindNextUserEntry` still finds is decided by
the entries behind the cut, and what `FindPrevUserEntry` finds by those before it.
-/

namespace Dbms18.LevelDb

open Res List Std Versions Iter

abbrev Entry := InternalKey × Bytes

/-- What a reader at a sequence number sees of an entry. -/
def shows (sequence : Nat) (e : Entry) : Option (Bytes × Option Bytes) :=
  (e.1.parse.filter (·.sequence ≤ sequence)).map fun ikey => (ikey.userKey, if ikey.type = .value then some e.2 else none)

abbrev records (sequence : Nat) (es : List Entry) : List (Bytes × Bytes) := view (shows sequence) es

def InOrder (es : List Entry) : Prop := es.Pairwise fun a b => InternalKey.compare a.1 b.1 = .lt

section Shows

variable {sequence : Nat} {e : Entry} {es A B : List Entry} {k : Bytes} {o : Option Bytes}

theorem userKey_of_shows (h : shows sequence e = some (k, o)) : e.1.userKey = k := by
  obtain ⟨ikey, hikey, heq⟩ := Option.map_eq_some_iff.1 h
  obtain ⟨hparse, -⟩ := Option.filter_eq_some_iff.1 hikey
  obtain ⟨rfl, -⟩ := Prod.mk.inj heq
  exact (InternalKey.parse_eq_some hparse).1.symm

theorem InOrder.ordered (h : InOrder es) : Ordered (shows sequence) compare es := by
  refine h.imp fun {a b} hlt k o k' o' ha hb => ?_
  rw [← userKey_of_shows ha, ← userKey_of_shows hb]
  exact InternalKey.userKey_le_of_lt hlt

end Shows

namespace DBIter

variable {σ : Type} {it : Iter σ InternalKey Bytes} {sequence fuel : Nat} {es A B : List Entry} {d : DBIter σ}

abbrev Inner (it : Iter σ InternalKey Bytes) (es : List Entry) (s : σ) (i : Nat) : Prop :=
  it.StandsAt InternalKey.compare es s i

/-- The states of a `DBIter`, and which record each shows. -/
inductive ShownAt (it : Iter σ InternalKey Bytes) (sequence : Nat) (es : List Entry) : DBIter σ → Nat → Prop
  | forward {d : DBIter σ} {A B : List Entry} {e : Entry} (hvalid : d.valid = true) (hdir : d.direction = .forward)
      (hes : es = A ++ e :: B) (hiter : Inner it es d.iter A.length) (hrecord : record (shows sequence) A e ≠ []) :
      ShownAt it sequence es d (records sequence A).length
  | reverse {d : DBIter σ} {A B : List Entry} {R : List (Bytes × Bytes)} (hvalid : d.valid = true)
      (hdir : d.direction = .reverse) (hes : es = A ++ B) (hiter : Inner it es d.iter (before es A.length))
      (hview : viewFrom (shows sequence) A B = (d.savedKey, d.savedValue) :: R)
      (hbefore : ∀ e ∈ A, ∀ k o, shows sequence e = some (k, o) → compare k d.savedKey = .lt)
      (hbehind : ∀ e ∈ B, ∀ k o, shows sequence e = some (k, o) → (compare d.savedKey k).isLE) :
      ShownAt it sequence es d (records sequence A).length
  | invalid {d : DBIter σ} {j : Nat} (hvalid : d.valid = false) (hiter : Inner it es d.iter j) :
      ShownAt it sequence es d (records sequence es).length

/-! ## Entries as the code takes them apart -/

section Parse

variable {e : Entry}

theorem parseKey_eq (hes : es = A ++ e :: B) (hiter : Inner it es d.iter A.length) :
    ∃ status, d.parseKey it = .ok (e.1.parse, { d with status }) := by
  rw [parseKey, walks_standsAt.key_of_cons hes hiter, ok_bind]
  cases e.1.parse with
  | none => exact ⟨_, rfl⟩
  | some ikey => exact ⟨d.status, rfl⟩

/-- What `ParseKey` and the comparison of sequence numbers say of an entry. -/
inductive Case (sequence : Nat) (e : Entry) : Option ParsedInternalKey → Prop
  | hidden (h : shows sequence e = none) : Case sequence e none
  | deletion {s : Nat} (h : shows sequence e = some (e.1.userKey, none)) : Case sequence e (some ⟨e.1.userKey, s, .deletion⟩)
  | value {s : Nat} (h : shows sequence e = some (e.1.userKey, some e.2)) : Case sequence e (some ⟨e.1.userKey, s, .value⟩)

theorem case_parse (sequence : Nat) (e : Entry) : Case sequence e (e.1.parse.filter (·.sequence ≤ sequence)) := by
  cases hp : e.1.parse.filter (·.sequence ≤ sequence) with
  | none => exact .hidden (by rw [shows, hp]; rfl)
  | some ikey =>
    obtain ⟨userKey, s, type⟩ := ikey
    obtain rfl : userKey = e.1.userKey := (InternalKey.parse_eq_some (Option.filter_eq_some_iff.1 hp).1).1
    cases type with
    | deletion => exact .deletion (by rw [shows, hp]; rfl)
    | value => exact .value (by rw [shows, hp]; rfl)

structure Gives (sequence : Nat) (A : List Entry) (e : Entry) : Prop where
  shown : shows sequence e = some (e.1.userKey, some e.2)
  unseen : seen (shows sequence) A e.1.userKey = false
  record : record (shows sequence) A e = [(e.1.userKey, e.2)]

theorem gives_of_record (h : record (shows sequence) A e ≠ []) : Gives sequence A e := by
  have hcase := case_parse sequence e
  generalize e.1.parse.filter (·.sequence ≤ sequence) = p at hcase
  cases hcase with
  | hidden hs => exact absurd (record_of_none hs) h
  | deletion hs => exact absurd (record_of_deletion hs) h
  | value hs =>
    rw [record_of_value hs] at h
    have hunseen : seen (shows sequence) A e.1.userKey = false := by
      by_contra hseen
      exact h (if_pos (by simpa using hseen))
    exact ⟨hs, hunseen, by rw [record_of_value hs, hunseen]; rfl⟩

end Parse

/-! ## Forward -/

def remaining (sequence : Nat) (A B : List Entry) (skipping : Bool) (skip : Bytes) : List (Bytes × Bytes) :=
  (viewFrom (shows sequence) A B).filter fun r => !(skipping && (compare r.1 skip).isLE)

/-- The key to skip hides every entry behind the cut that a newer one before it hides, and no visible entry
has a smaller key. -/
structure Skips (sequence : Nat) (A B : List Entry) (skipping : Bool) (skip : Bytes) : Prop where
  hides : ∀ e ∈ B, ∀ k o, shows sequence e = some (k, o) → seen (shows sequence) A k = true →
    skipping = true ∧ (compare k skip).isLE = true
  behind : skipping = true → ∀ e ∈ B, ∀ k o, shows sequence e = some (k, o) → (compare skip k).isLE = true

section Forward

variable {e : Entry} {skipping : Bool} {skip : Bytes}

theorem remaining_eq_viewFrom {k : Bytes} {o : Option Bytes} (h : Ordered (shows sequence) compare (A ++ e :: B))
    (he : shows sequence e = some (k, o)) (hskip : skipping = true → (compare skip k).isLE = true) :
    remaining sequence (A ++ [e]) B skipping skip = viewFrom (shows sequence) (A ++ [e]) B := by
  refine filter_eq_self.2 fun r hr => ?_
  cases skipping with
  | false => rfl
  | true =>
    have hlt : compare skip r.1 = .lt := TransCmp.lt_of_isLE_of_lt (hskip rfl) (h.lt_of_mem_viewFrom he hr)
    simp [OrientedCmp.gt_of_lt hlt]

theorem Skips.of_shows {k : Bytes} {o : Option Bytes} (h : Ordered (shows sequence) compare (A ++ e :: B))
    (he : shows sequence e = some (k, o)) : Skips sequence (A ++ [e]) B true k where
  hides _ _ _ _ _ hseen := ⟨rfl, h.isLE_of_seen he hseen⟩
  behind _ _ he' _ _ hshow := h.isLE_of_mem he he' hshow

theorem Skips.of_hidden (h : Skips sequence A (e :: B) skipping skip) (he : shows sequence e = none) :
    Skips sequence (A ++ [e]) B skipping skip where
  hides e' he' k o hshow hseen := by
    have hunseen : seen (shows sequence) [e] k = false := by simp [seen, he]
    rw [seen_append, hunseen, Bool.or_false] at hseen
    exact h.hides e' (mem_cons_of_mem _ he') k o hshow hseen
  behind hs e' he' := h.behind hs e' (mem_cons_of_mem _ he')

theorem remaining_cons_of_nil (he : record (shows sequence) A e = []) :
    remaining sequence A (e :: B) skipping skip = remaining sequence (A ++ [e]) B skipping skip := by
  rw [remaining, viewFrom, he, nil_append, remaining]

/-- The loop of `FindNextUserEntry` stops at the first of the records `R`, the last ones of all. -/
def Reaches (it : Iter σ InternalKey Bytes) (sequence : Nat) (es : List Entry) (fuel : Nat) (d : DBIter σ) (skipping : Bool)
    (R : List (Bytes × Bytes)) : Prop :=
  ∃ d' L, Res.loop (findNextStep it sequence) fuel (d, skipping) = .ok d' ∧ records sequence es = L ++ R ∧
    ShownAt it sequence es d' L.length

theorem reaches_of_advance (d₁ : DBIter σ) {skipping₁ : Bool} (hcut : es = A ++ e :: B)
    (hstep : findNextStep it sequence (d, skipping) = advance it d₁ skipping₁) (hiter : Inner it es d₁.iter A.length)
    (hrest : ∀ e' B', B = e' :: B' → ∀ s', Inner it es s' (A ++ [e]).length →
      Reaches it sequence es fuel { d₁ with iter := s' } skipping₁ (remaining sequence (A ++ [e]) B skipping₁ d₁.savedKey)) :
    Reaches it sequence es (fuel + 1) d skipping (remaining sequence (A ++ [e]) B skipping₁ d₁.savedKey) := by
  obtain ⟨s', hs', hiter'⟩ := walks_standsAt.next_of_cons hcut hiter
  rw [advance, hs', ok_bind] at hstep
  cases B with
  | nil =>
    have hend : Inner it es s' es.length := by
      rw [← hcut] at hiter'
      exact hiter'
    rw [walks_standsAt.not_valid hend] at hstep
    refine ⟨_, records sequence es, loop_of_return hstep, ?_, .invalid rfl hend⟩
    simp [remaining, viewFrom]
  | cons e' B =>
    have hvalid : it.valid s' = true := walks_standsAt.valid_of_cons (by simpa using hcut) hiter'
    rw [hvalid] at hstep
    obtain ⟨d', L, hloop, hL, hshown⟩ := hrest e' B rfl s' hiter'
    exact ⟨d', L, (loop_of_continue hstep).trans hloop, hL, hshown⟩

theorem reaches_remaining (hes : InOrder es) (hcut : es = A ++ e :: B) (hiter : Inner it es d.iter A.length)
    (hdir : d.direction = .forward) (hskips : Skips sequence A (e :: B) skipping d.savedKey) (hfuel : B.length < fuel) :
    Reaches it sequence es fuel d skipping (remaining sequence A (e :: B) skipping d.savedKey) := by
  induction fuel generalizing A B e d skipping with
  | zero => cases hfuel
  | succ fuel ih =>
    have hord : Ordered (shows sequence) compare (A ++ e :: B) := hcut ▸ hes.ordered
    -- what the rest of the loop does, whatever the pass leaves as the key to skip
    have hrest : ∀ (d₁ : DBIter σ) (skipping₁ : Bool), d₁.direction = .forward →
        Skips sequence (A ++ [e]) B skipping₁ d₁.savedKey → ∀ e' B', B = e' :: B' → ∀ s',
        Inner it es s' (A ++ [e]).length → Reaches it sequence es fuel { d₁ with iter := s' } skipping₁
          (remaining sequence (A ++ [e]) B skipping₁ d₁.savedKey) := by
      rintro d₁ skipping₁ hdir₁ hskips₁ e' B' rfl s' hs'
      exact ih (d := { d₁ with iter := s' }) (by simpa using hcut) hs' hdir₁ hskips₁ (by simpa using hfuel)
    obtain ⟨status, hparse⟩ := parseKey_eq hcut hiter
    have hcase := case_parse sequence e
    have hstep : findNextStep it sequence (d, skipping) =
        considerNext it { d with status } skipping (e.1.parse.filter (·.sequence ≤ sequence)) := by
      rw [findNextStep, hparse]
      rfl
    generalize e.1.parse.filter (·.sequence ≤ sequence) = p at hcase hstep
    cases hcase with
    | hidden h =>
      rw [remaining_cons_of_nil (record_of_none h)]
      exact reaches_of_advance { d with status } hcut hstep hiter (hrest _ _ hdir (hskips.of_hidden h))
    | deletion h =>
      have hbehind := fun hs => hskips.behind hs e mem_cons_self _ _ h
      have hself : (compare e.1.userKey e.1.userKey).isLE = true := by simp
      rw [remaining_cons_of_nil (record_of_deletion h), remaining_eq_viewFrom hord h hbehind,
        ← remaining_eq_viewFrom hord h fun _ => hself]
      exact reaches_of_advance { d with status, savedKey := e.1.userKey } hcut hstep hiter
        (hrest _ _ hdir (.of_shows hord h))
    | value h =>
      by_cases hhid : skipping = true ∧ (compare e.1.userKey d.savedKey).isLE = true
      · -- the key is the one to skip
        obtain ⟨rfl, hle⟩ := hhid
        have hkey : d.savedKey = e.1.userKey :=
          LawfulEqCmp.eq_of_compare (OrientedCmp.isLE_antisymm (hskips.behind rfl e mem_cons_self _ _ h) hle)
        have hrem : remaining sequence A (e :: B) true d.savedKey = remaining sequence (A ++ [e]) B true d.savedKey := by
          rw [remaining, viewFrom, filter_append, ← remaining, record_of_value h]
          split
          · rfl
          · rw [filter_cons_of_neg (by rw [hle]; decide)]
            rfl
        have hhides : Skips sequence (A ++ [e]) B true d.savedKey := hkey ▸ .of_shows hord h
        rw [considerNext, sliceCompare_eq, if_pos ⟨rfl, hle⟩] at hstep
        rw [hrem]
        exact reaches_of_advance { d with status } hcut hstep hiter (hrest _ _ hdir hhides)
      · have hunseen : seen (shows sequence) A e.1.userKey = false := by
          by_contra hseen
          exact hhid (hskips.hides e mem_cons_self _ _ h (by simpa using hseen))
        have hrecord : record (shows sequence) A e = [(e.1.userKey, e.2)] := by
          rw [record_of_value h, hunseen]
          rfl
        have hbehind := fun hs => hskips.behind hs e mem_cons_self _ _ h
        have hrem : remaining sequence A (e :: B) skipping d.savedKey = viewFrom (shows sequence) A (e :: B) := by
          rw [remaining, viewFrom, filter_append, ← remaining, remaining_eq_viewFrom hord h hbehind, hrecord,
            filter_cons_of_pos (by rw [Bool.not_eq_true', Bool.eq_false_iff, ne_eq, Bool.and_eq_true]; exact hhid)]
          rfl
        rw [considerNext, sliceCompare_eq, if_neg hhid] at hstep
        refine ⟨_, records sequence A, loop_of_return hstep, ?_, .forward rfl hdir hcut hiter (by simp [hrecord])⟩
        rw [hrem, hcut, records, view_append]

end Forward

/-! ## Backward -/

/-- What `FindPrevUserEntry` has found in the entries `C` that it has passed: no record, or one, which is saved. -/
inductive Candidate (sequence : Nat) (C : List Entry) (savedKey savedValue : Bytes) : ValueType → Prop
  | nothing (h : records sequence C = []) : Candidate sequence C savedKey savedValue .deletion
  | saved (h : records sequence C = [(savedKey, savedValue)])
      (hkeys : ∀ e ∈ C, ∀ k o, shows sequence e = some (k, o) → (compare savedKey k).isLE = true) :
      Candidate sequence C savedKey savedValue .value

section Backward

variable {e : Entry} {C : List Entry} {valueType : ValueType} {savedKey savedValue : Bytes}

theorem records_cons (sequence : Nat) (e : Entry) (C : List Entry) :
    records sequence (e :: C) = record (shows sequence) [] e ++ viewFrom (shows sequence) [e] C := rfl

theorem Candidate.of_hidden (h : Candidate sequence C savedKey savedValue valueType) (he : shows sequence e = none) :
    Candidate sequence (e :: C) savedKey savedValue valueType := by
  have hrecords : records sequence (e :: C) = records sequence C := by
    have hunseen : ∀ k, seen (shows sequence) [e] k = false := fun k => by simp [seen, he]
    rw [records_cons, record_of_none he, nil_append, viewFrom_eq_filter]
    exact filter_eq_self.2 fun r _ => by simp [hunseen]
  cases h with
  | nothing h => exact .nothing (hrecords.trans h)
  | saved h hkeys =>
    refine .saved (hrecords.trans h) fun e' he' k o hshow => ?_
    rcases mem_cons.1 he' with rfl | he'
    · rw [he] at hshow
      cases hshow
    · exact hkeys e' he' k o hshow

theorem Candidate.replaced (h : Candidate sequence C savedKey savedValue valueType) {k : Bytes} {o : Option Bytes}
    (hord : Ordered (shows sequence) compare (e :: C)) (he : shows sequence e = some (k, o))
    (hnot : ¬ (valueType ≠ .deletion ∧ compare k savedKey = .lt)) : viewFrom (shows sequence) [e] C = [] := by
  rw [viewFrom_eq_filter]
  cases h with
  | nothing h =>
    rw [← records, h]
    rfl
  | saved h hkeys =>
    have hmem : (savedKey, savedValue) ∈ viewFrom (shows sequence) [] C := by
      rw [← view, ← records, h]
      exact mem_singleton_self _
    obtain ⟨e', he', hshow⟩ := exists_of_mem_viewFrom hmem
    have hle : (compare k savedKey).isLE = true := (pairwise_cons.1 hord).1 e' he' _ _ _ _ he hshow
    have hkey : k = savedKey := by
      by_contra hne
      exact hnot ⟨by decide, lt_of_isLE_of_ne hle hne⟩
    have hseen : seen (shows sequence) [e] savedKey = true := seen_singleton.2 ⟨o, hkey ▸ he⟩
    rw [← records, h, filter_cons_of_neg (by rw [hseen]; decide)]
    rfl

/-- Where the loop of `FindPrevUserEntry` ends when it starts at the last of the entries `A₀`. -/
def Settles (it : Iter σ InternalKey Bytes) (sequence : Nat) (es A₀ : List Entry) (d' : DBIter σ) (valueType : ValueType) :
    Prop :=
  ∃ A C, A₀ = A ++ C ∧ Inner it es d'.iter (before es A.length) ∧ d'.direction = .reverse ∧
    Candidate sequence C d'.savedKey d'.savedValue valueType ∧
    (valueType = .deletion → A = []) ∧
    (valueType = .value → ∀ k, seen (shows sequence) A k = true → compare k d'.savedKey = .lt)

variable {A₀ B₀ : List Entry}

theorem settles_of_retreat (d₁ : DBIter σ) {valueType₁ : ValueType} (hcut : es = A ++ e :: C ++ B₀)
    (hA₀ : A₀ = A ++ e :: C) (hstep : findPrevStep it sequence (d, valueType) = retreat it d₁ valueType₁)
    (hiter : Inner it es d₁.iter A.length) (hdir : d₁.direction = .reverse)
    (hcand : Candidate sequence (e :: C) d₁.savedKey d₁.savedValue valueType₁)
    (hrest : ∀ A' e', A = A' ++ [e'] → ∀ s', Inner it es s' A'.length → ∃ d' vt,
      Res.loop (findPrevStep it sequence) fuel ({ d₁ with iter := s' }, valueType₁) = .ok (d', vt) ∧
        Settles it sequence es A₀ d' vt) :
    ∃ d' vt, Res.loop (findPrevStep it sequence) (fuel + 1) (d, valueType) = .ok (d', vt) ∧
      Settles it sequence es A₀ d' vt := by
  obtain ⟨s', hs', hiter'⟩ := walks_standsAt.prev_of_cons (B := C ++ B₀) (by simpa using hcut) hiter
  rw [retreat, hs', ok_bind] at hstep
  rcases eq_nil_or_concat A with rfl | ⟨A', e', rfl⟩
  · have hend : Inner it es s' es.length := by simpa [before_nil] using hiter'
    rw [walks_standsAt.not_valid hend] at hstep
    exact ⟨_, _, loop_of_return hstep, [], e :: C, hA₀, hiter', hdir, hcand, fun _ => rfl, fun _ k hseen => by cases hseen⟩
  · rw [concat_eq_append] at *
    rw [before_append_singleton] at hiter'
    have hvalid : it.valid s' = true := walks_standsAt.valid_of_cons (by simpa using hcut) hiter'
    rw [hvalid] at hstep
    obtain ⟨d', vt, hloop, hsettles⟩ := hrest A' e' rfl s' hiter'
    exact ⟨d', vt, (loop_of_continue hstep).trans hloop, hsettles⟩

theorem settles_loop (hes : InOrder es) (hcut : es = A₀ ++ B₀) (hA₀ : A₀ = A ++ e :: C)
    (hiter : Inner it es d.iter A.length) (hdir : d.direction = .reverse)
    (hcand : Candidate sequence C d.savedKey d.savedValue valueType)
    (hfuel : A.length < fuel) : ∃ d' vt, Res.loop (findPrevStep it sequence) fuel (d, valueType) = .ok (d', vt) ∧
      Settles it sequence es A₀ d' vt := by
  induction fuel generalizing A C e d valueType with
  | zero => cases hfuel
  | succ fuel ih =>
    have hcut' : es = A ++ e :: C ++ B₀ := by rw [hcut, hA₀]
    have hord : Ordered (shows sequence) compare (A ++ e :: C) := (pairwise_append.1 (hcut' ▸ hes.ordered)).1
    have hrest : ∀ (d₁ : DBIter σ) (vt₁ : ValueType), d₁.direction = .reverse →
        Candidate sequence (e :: C) d₁.savedKey d₁.savedValue vt₁ →
        ∀ A' e', A = A' ++ [e'] → ∀ s', Inner it es s' A'.length → ∃ d' vt,
          Res.loop (findPrevStep it sequence) fuel ({ d₁ with iter := s' }, vt₁) = .ok (d', vt) ∧
            Settles it sequence es A₀ d' vt := by
      rintro d₁ vt₁ hdir₁ hcand₁ A' e' rfl s' hs'
      exact ih (d := { d₁ with iter := s' }) (by simpa using hA₀) hs' hdir₁ hcand₁ (by simpa using hfuel)
    obtain ⟨status, hparse⟩ := parseKey_eq (B := C ++ B₀) (by simpa using hcut') hiter
    have hcase := case_parse sequence e
    have hstep : findPrevStep it sequence (d, valueType) =
        considerPrev it { d with status } valueType (e.1.parse.filter (·.sequence ≤ sequence)) := by
      rw [findPrevStep, hparse]
      rfl
    generalize e.1.parse.filter (·.sequence ≤ sequence) = p at hcase hstep
    -- a visible entry of a smaller key ends the search, any other one is considered
    have hstop : ∀ {o}, shows sequence e = some (e.1.userKey, o) → valueType ≠ .deletion →
        compare e.1.userKey d.savedKey = .lt →
        findPrevStep it sequence (d, valueType) = .ok (.inr ({ d with status }, valueType)) →
        ∃ d' vt, Res.loop (findPrevStep it sequence) (fuel + 1) (d, valueType) = .ok (d', vt) ∧
          Settles it sequence es A₀ d' vt := by
      intro o h hvt hlt hstep
      refine ⟨_, _, loop_of_return hstep, A ++ [e], C, by simpa using hA₀, ?_, hdir, hcand, fun hd => absurd hd hvt, ?_⟩
      · rw [before_append_singleton]
        exact hiter
      · exact fun _ k hseen => TransCmp.lt_of_isLE_of_lt (hord.isLE_of_seen h hseen) hlt
    cases hcase with
    | hidden h =>
      exact settles_of_retreat { d with status } hcut' hA₀ hstep hiter hdir (hcand.of_hidden h)
        (hrest _ _ hdir (hcand.of_hidden h))
    | deletion h =>
      by_cases hlt : valueType ≠ .deletion ∧ compare e.1.userKey d.savedKey = .lt
      · rw [considerPrev, sliceCompare_eq, if_pos hlt] at hstep
        exact hstop h hlt.1 hlt.2 hstep
      · have hnone : Candidate sequence (e :: C) [] [] .deletion := by
          refine .nothing ?_
          rw [records_cons, record_of_deletion h, hcand.replaced (pairwise_append.1 hord).2.1 h hlt]
          rfl
        rw [considerPrev, sliceCompare_eq, if_neg hlt] at hstep
        exact settles_of_retreat { d with status, savedKey := [], savedValue := [] } hcut' hA₀ hstep hiter hdir hnone
          (hrest _ _ hdir hnone)
    | value h =>
      by_cases hlt : valueType ≠ .deletion ∧ compare e.1.userKey d.savedKey = .lt
      · rw [considerPrev, sliceCompare_eq, if_pos hlt] at hstep
        exact hstop h hlt.1 hlt.2 hstep
      · have hsaved : Candidate sequence (e :: C) e.1.userKey e.2 .value := by
          refine .saved ?_ fun e' he' k o hshow => ?_
          · rw [records_cons, record_of_value h, hcand.replaced (pairwise_append.1 hord).2.1 h hlt]
            rfl
          · rcases mem_cons.1 he' with rfl | he'
            · rw [userKey_of_shows hshow]
              simp
            · exact hord.isLE_of_mem h he' hshow
        have hes' : es = A ++ e :: (C ++ B₀) := by simpa using hcut'
        rw [considerPrev, sliceCompare_eq, if_neg hlt] at hstep
        dsimp only at hstep
        rw [walks_standsAt.key_of_cons hes' hiter, walks_standsAt.value_of_cons hes' hiter] at hstep
        exact settles_of_retreat { d with status, savedKey := e.1.userKey, savedValue := e.2 } hcut' hA₀ hstep hiter hdir
          hsaved (hrest _ _ hdir hsaved)

theorem findPrevUserEntry_eq (hes : InOrder es) (hcut : es = A₀ ++ B₀) (hdir : d.direction = .reverse)
    (hiter : Inner it es d.iter (before es A₀.length)) (hfuel : es.length < fuel) :
    ∃ d', findPrevUserEntry it sequence fuel d = .ok d' ∧
      ShownAt it sequence es d' (before (records sequence es) (records sequence A₀).length) := by
  -- the end of the loop, or the start if there is no entry to go to
  obtain ⟨d', vt, hloop, A, C, rfl, hiter', hdir', hcand, hnone, hbefore⟩ : ∃ d' vt,
      searchPrev it sequence fuel d = .ok (d', vt) ∧ Settles it sequence es A₀ d' vt := by
    rw [searchPrev]
    rcases eq_nil_or_concat A₀ with rfl | ⟨A, e, rfl⟩
    · have hend : Inner it es d.iter es.length := by simpa [before_nil] using hiter
      rw [walks_standsAt.not_valid hend]
      exact ⟨_, _, rfl, [], [], rfl, hiter, hdir, .nothing rfl, fun _ => rfl, fun _ k hseen => by cases hseen⟩
    · rw [concat_eq_append] at *
      rw [before_append_singleton] at hiter
      rw [walks_standsAt.valid_of_cons (by simpa using hcut) hiter]
      refine settles_loop hes hcut rfl hiter hdir (.nothing rfl) ?_
      rw [hcut] at hfuel
      simp at hfuel
      omega
  rw [findPrevUserEntry, check_of hdir, ok_bind, hloop, ok_bind]
  cases hcand with
  | nothing h =>
    obtain rfl := hnone rfl
    refine ⟨_, rfl, ?_⟩
    rw [nil_append, h, length_nil, before_nil]
    exact .invalid rfl hiter'
  | saved h hkeys =>
    have hview : viewFrom (shows sequence) A C = [(d'.savedKey, d'.savedValue)] := by
      rw [viewFrom_eq_filter, ← records, h]
      refine filter_eq_self.2 fun r hr => ?_
      obtain rfl := mem_singleton.1 hr
      by_contra hseen
      have hlt := hbefore rfl d'.savedKey (by simpa using hseen)
      simp at hlt
    have hlen : (records sequence (A ++ C)).length = (records sequence A).length + 1 := by
      rw [records, view_append, hview, length_append, length_singleton]
    refine ⟨_, rfl, ?_⟩
    rw [hlen, before, if_neg (Nat.succ_ne_zero _), Nat.add_sub_cancel]
    refine .reverse (B := C ++ B₀) (R := viewFrom (shows sequence) (A ++ C) B₀) rfl hdir' (by rw [hcut, append_assoc])
      hiter' ?_ ?_ ?_
    · rw [viewFrom_append, hview]
      rfl
    · exact fun e he k o hshow => hbefore rfl k (seen_iff.2 ⟨e, he, o, hshow⟩)
    · intro e he k o hshow
      rcases mem_append.1 he with he | he
      · exact hkeys e he k o hshow
      · -- the record that was found comes from an entry before this one
        have hmem : (d'.savedKey, d'.savedValue) ∈ viewFrom (shows sequence) A C := hview ▸ mem_singleton_self _
        obtain ⟨c, hc, hshow'⟩ := exists_of_mem_viewFrom hmem
        have hord : Ordered (shows sequence) compare (A ++ C ++ B₀) := hcut ▸ hes.ordered
        exact (pairwise_append.1 hord).2.2 c (mem_append_right _ hc) e he _ _ _ _ hshow' hshow

end Backward

/-! ## Operations -/

section Operations

variable {e : Entry} {i : Nat}

theorem length_lt_of_record (hes : es = A ++ e :: B) (h : record (shows sequence) A e ≠ []) :
    (records sequence A).length < (records sequence es).length := by
  have := length_pos_of_ne_nil h
  rw [hes, records, records, view_append_cons, length_append, length_append]
  omega

theorem record_at {r : Bytes × Bytes} (hes : es = A ++ e :: B) (h : record (shows sequence) A e = [r]) :
    (records sequence es)[(records sequence A).length]? = some r := by
  rw [hes, records, records, view_append_cons, h]
  simp

theorem findNextUserEntry_eq {skipping : Bool} (hes : InOrder es) (hcut : es = A ++ e :: B)
    (hiter : Inner it es d.iter A.length) (hdir : d.direction = .forward)
    (hskips : Skips sequence A (e :: B) skipping d.savedKey)
    (hfuel : es.length < fuel) : ∃ d' L, findNextUserEntry it sequence fuel d skipping = .ok d' ∧
      records sequence es = L ++ remaining sequence A (e :: B) skipping d.savedKey ∧ ShownAt it sequence es d' L.length := by
  have hvalid : it.valid d.iter = true := walks_standsAt.valid_of_cons hcut hiter
  have hB : B.length < fuel := by
    rw [hcut, length_append, length_cons] at hfuel
    omega
  rw [findNextUserEntry, check_of hvalid, ok_bind, check_of hdir, ok_bind]
  exact reaches_remaining hes hcut hiter hdir hskips hB

theorem ShownAt.next_forward (hes : InOrder es) (hfuel : es.length < fuel) (hvalid : d.valid = true)
    (hdir : d.direction = .forward)
    (hcut : es = A ++ e :: B) (hiter : Inner it es d.iter A.length) (hrecord : record (shows sequence) A e ≠ []) :
    ∃ d', next it sequence fuel d = .ok d' ∧ ShownAt it sequence es d' ((records sequence A).length + 1) := by
  have hord : Ordered (shows sequence) compare (A ++ e :: B) := hcut ▸ hes.ordered
  obtain ⟨hshow, -, hsingle⟩ := gives_of_record hrecord
  have hself : (compare e.1.userKey e.1.userKey).isLE = true := by simp
  have hskips : Skips sequence A (e :: B) true e.1.userKey := by
    refine ⟨fun _ _ k _ _ hseen => ⟨rfl, ?_⟩, fun _ e' he' k o hshow' => ?_⟩
    · exact hord.isLE_of_seen hshow (by rw [seen_append, hseen, Bool.true_or])
    · rcases mem_cons.1 he' with rfl | he'
      · rw [userKey_of_shows hshow']
        simp
      · exact hord.isLE_of_mem hshow he' hshow'
  have hrem : remaining sequence A (e :: B) true e.1.userKey = viewFrom (shows sequence) (A ++ [e]) B := by
    rw [remaining, viewFrom, filter_append, ← remaining, remaining_eq_viewFrom hord hshow fun _ => hself, hsingle,
      filter_cons_of_neg (by simp)]
    rfl
  rw [next, check_of hvalid, ok_bind, hdir, walks_standsAt.key_of_cons hcut hiter]
  obtain ⟨d', L, hd', hL, hshown⟩ :=
    findNextUserEntry_eq (d := { d with direction := .forward, savedKey := e.1.userKey }) hes hcut hiter rfl hskips hfuel
  refine ⟨d', hd', ?_⟩
  rw [hrem, hcut, records, view_append_cons, hsingle] at hL
  have hlen : L.length = (records sequence A).length + 1 := by
    rw [← append_cancel_right hL, length_append, length_singleton]
  rwa [hlen] at hshown

theorem ShownAt.next_reverse {R : List (Bytes × Bytes)} (hes : InOrder es) (hfuel : es.length < fuel) (hvalid : d.valid = true)
    (hdir : d.direction = .reverse) (hcut : es = A ++ B) (hiter : Inner it es d.iter (before es A.length))
    (hview : viewFrom (shows sequence) A B = (d.savedKey, d.savedValue) :: R)
    (hbefore : ∀ e ∈ A, ∀ k o, shows sequence e = some (k, o) → compare k d.savedKey = .lt)
    (hbehind : ∀ e ∈ B, ∀ k o, shows sequence e = some (k, o) → (compare d.savedKey k).isLE) :
    ∃ d', next it sequence fuel d = .ok d' ∧ ShownAt it sequence es d' ((records sequence A).length + 1) := by
  obtain ⟨e, B, rfl⟩ : ∃ e B', B = e :: B' := exists_cons_of_ne_nil (by rintro rfl; cases hview)
  obtain ⟨s', hs', hiter'⟩ : ∃ s', turnForward it d.iter = .ok s' ∧ Inner it es s' A.length := by
    rw [turnForward]
    rcases eq_nil_or_concat A with rfl | ⟨A, a, rfl⟩
    · have hend : Inner it es d.iter es.length := by simpa [before_nil] using hiter
      rw [walks_standsAt.not_valid hend]
      exact walks_standsAt.seekToFirst hend
    · rw [concat_eq_append] at *
      rw [before_append_singleton] at hiter
      have hcut' : es = A ++ a :: e :: B := by simpa using hcut
      rw [walks_standsAt.valid_of_cons hcut' hiter]
      exact walks_standsAt.next_of_cons hcut' hiter
  have hskips : Skips sequence A (e :: B) true d.savedKey := by
    refine ⟨fun e' he' k o hshow hseen => ?_, fun _ e' he' k o hshow => hbehind e' he' k o hshow⟩
    obtain ⟨a, ha, o', hshow'⟩ := seen_iff.1 hseen
    exact ⟨rfl, by rw [hbefore a ha k o' hshow']; rfl⟩
  have hrem : remaining sequence A (e :: B) true d.savedKey = R := by
    have hsorted : (viewFrom (shows sequence) A (e :: B)).Pairwise fun r r' => compare r.1 r'.1 = .lt :=
      pairwise_viewFrom (pairwise_append.1 (hcut ▸ hes.ordered : Ordered (shows sequence) compare (A ++ e :: B))).2.1
    rw [hview] at hsorted
    rw [remaining, hview, filter_cons_of_neg (by simp)]
    refine filter_eq_self.2 fun r hr => ?_
    have hlt := (pairwise_cons.1 hsorted).1 r hr
    simp [OrientedCmp.gt_of_lt hlt]
  rw [next, check_of hvalid, ok_bind, hdir]
  dsimp only
  rw [hs', ok_bind, walks_standsAt.valid_of_cons hcut hiter']
  obtain ⟨d', L, hd', hL, hshown⟩ :=
    findNextUserEntry_eq (d := { d with direction := .forward, iter := s' }) hes hcut hiter' rfl hskips hfuel
  refine ⟨d', hd', ?_⟩
  rw [hrem, hcut, records, view_append, hview, append_cons] at hL
  have hlen : L.length = (records sequence A).length + 1 := by
    rw [← append_cancel_right hL, length_append, length_singleton]
  rwa [hlen] at hshown

theorem loop_scanBackStep {x : Entry} {C : List Entry} (hcut : es = A ++ x :: C) (hiter : Inner it es d.iter A.length)
    (hfuel : A.length < fuel) : ∃ A₀ G s', A = A₀ ++ G ∧ Inner it es s' (before es A₀.length) ∧
      (∀ g ∈ G, compare g.1.userKey d.savedKey ≠ .lt) ∧ Res.loop (scanBackStep it) fuel d =
        .ok (if A₀ = [] then ({ d with iter := s', valid := false, savedKey := [], savedValue := [] }, false)
          else ({ d with iter := s' }, true)) := by
  induction fuel generalizing A x C d with
  | zero => cases hfuel
  | succ fuel ih =>
    obtain ⟨s', hs', hiter'⟩ := walks_standsAt.prev_of_cons hcut hiter
    rcases eq_nil_or_concat A with rfl | ⟨A, a, rfl⟩
    · have hend : Inner it es s' es.length := by simpa [before_nil] using hiter'
      refine ⟨[], [], s', rfl, hiter', by simp, ?_⟩
      refine loop_of_return ?_
      rw [scanBackStep, hs', ok_bind, walks_standsAt.not_valid hend]
      rfl
    · rw [concat_eq_append] at *
      have hcut' : es = A ++ a :: x :: C := by simpa using hcut
      have hat := hiter'
      rw [before_append_singleton] at hat
      by_cases hlt : compare a.1.userKey d.savedKey = .lt
      · refine ⟨A ++ [a], [], s', by simp, hiter', by simp, loop_of_return ?_⟩
        rw [scanBackStep, hs', ok_bind, walks_standsAt.valid_of_cons hcut' hat]
        dsimp only
        rw [walks_standsAt.key_of_cons hcut' hat, ok_bind, sliceCompare_eq, if_pos hlt]
        simp
      · obtain ⟨A₀, G, s'', rfl, hiter'', hG, hloop⟩ :=
          ih (d := { d with iter := s' }) hcut' hat (by simpa using hfuel)
        refine ⟨A₀, G ++ [a], s'', by simp, hiter'', ?_, ?_⟩
        · intro g hg
          rcases mem_append.1 hg with hg | hg
          · exact hG g hg
          · exact mem_singleton.1 hg ▸ hlt
        · have hstep : scanBackStep it d = .ok (.inl { d with iter := s' }) := by
            rw [scanBackStep, hs', ok_bind, walks_standsAt.valid_of_cons hcut' hat]
            dsimp only
            rw [walks_standsAt.key_of_cons hcut' hat, ok_bind, sliceCompare_eq, if_neg hlt]
            rfl
          exact (loop_of_continue hstep).trans hloop

theorem ShownAt.prev_forward (hes : InOrder es) (hfuel : es.length < fuel) (hvalid : d.valid = true)
    (hdir : d.direction = .forward)
    (hcut : es = A ++ e :: B) (hiter : Inner it es d.iter A.length) (hrecord : record (shows sequence) A e ≠ []) :
    ∃ d', prev it sequence fuel d = .ok d' ∧
      ShownAt it sequence es d' (before (records sequence es) (records sequence A).length) := by
  have hunseen := (gives_of_record hrecord).unseen
  have hA : A.length < fuel := by
    rw [hcut, length_append] at hfuel
    omega
  obtain ⟨A₀, G, s', rfl, hiter', hG, hloop⟩ :=
    loop_scanBackStep (d := { d with direction := .forward, savedKey := e.1.userKey }) hcut hiter hA
  -- the entries that were passed have the current user key, so none of them is visible
  have hhidden : ∀ g ∈ G, shows sequence g = none := by
    intro g hg
    cases hshow' : shows sequence g with
    | none => rfl
    | some p =>
      obtain ⟨k, o⟩ := p
      have hgA : g ∈ A₀ ++ G := mem_append_right _ hg
      have hle := InternalKey.userKey_le_of_lt ((pairwise_append.1 (hcut ▸ hes)).2.2 g hgA e mem_cons_self)
      have hgkey : g.1.userKey = e.1.userKey := by
        by_contra hne
        exact hG g hg (lt_of_isLE_of_ne hle hne)
      rw [← userKey_of_shows hshow', hgkey] at hshow'
      rw [seen_iff.2 ⟨g, hgA, o, hshow'⟩] at hunseen
      cases hunseen
  have hsame : records sequence (A₀ ++ G) = records sequence A₀ := by
    rw [records, view_append, viewFrom_of_hidden hhidden, append_nil]
  rw [prev, check_of hvalid, ok_bind, hdir]
  dsimp only
  rw [check_of (walks_standsAt.valid_of_cons hcut hiter), ok_bind, walks_standsAt.key_of_cons hcut hiter, ok_bind,
    hloop, hsame]
  by_cases hA₀ : A₀ = []
  · subst hA₀
    refine ⟨_, rfl, ?_⟩
    rw [show records sequence [] = [] from rfl, length_nil, before_nil]
    exact .invalid rfl hiter'
  · rw [if_neg hA₀]
    have hcut' : es = A₀ ++ (G ++ e :: B) := by rw [hcut, append_assoc]
    exact findPrevUserEntry_eq (d := { d with direction := .reverse, savedKey := e.1.userKey, iter := s' }) hes hcut' rfl
      hiter' hfuel

theorem keys_of_seek (hseq : sequence ≤ kMaxSequenceNumber) (target : Bytes)
    (hA : ∀ a ∈ A, InternalKey.compare a.1 (.ofParsed ⟨target, sequence, .value⟩) = .lt)
    (hB : ∀ b ∈ B, InternalKey.compare b.1 (.ofParsed ⟨target, sequence, .value⟩) ≠ .lt) :
    (∀ a ∈ A, ∀ k o, shows sequence a = some (k, o) → compare k target = .lt) ∧
      ∀ b ∈ B, ∀ k o, shows sequence b = some (k, o) → compare k target ≠ .lt := by
  refine ⟨fun a ha k o hshow => ?_, fun b hb k o hshow hlt => ?_⟩
  · obtain rfl := userKey_of_shows hshow
    rcases InternalKey.compare_eq_lt_iff.1 (hA a ha) with hlt | ⟨heq, htag⟩
    · simpa using hlt
    · -- an entry of the same user key with a larger tag is not visible
      obtain ⟨ikey, hikey, -⟩ := Option.map_eq_some_iff.1 hshow
      obtain ⟨hparse, hle⟩ := Option.filter_eq_some_iff.1 hikey
      rw [InternalKey.tag_ofParsed hseq, InternalKey.tag_of_parse hparse] at htag
      have htype : ikey.type.toNat ≤ ValueType.value.toNat := by cases ikey.type <;> decide
      have hle : ikey.sequence ≤ sequence := by simpa using hle
      have hmul : ikey.sequence * 256 ≤ sequence * 256 := Nat.mul_le_mul_right _ hle
      dsimp only at htag
      omega
  · obtain rfl := userKey_of_shows hshow
    refine hB b hb (InternalKey.compare_eq_lt_iff.2 (.inl ?_))
    simpa using hlt

theorem findNextUserEntry_unskipped (hes : InOrder es) (hcut : es = A ++ e :: B) (hiter : Inner it es d.iter A.length)
    (hdir : d.direction = .forward) (hfuel : es.length < fuel)
    (hfirst : ∀ b ∈ e :: B, ∀ k o, shows sequence b = some (k, o) → seen (shows sequence) A k = false) :
    ∃ d', findNextUserEntry it sequence fuel d false = .ok d' ∧ ShownAt it sequence es d' (records sequence A).length := by
  have hskips : Skips sequence A (e :: B) false d.savedKey := by
    refine ⟨fun b hb k o hshow hseen => ?_, fun h => by cases h⟩
    rw [hfirst b hb k o hshow] at hseen
    cases hseen
  obtain ⟨d', L, hd', hL, hshown⟩ := findNextUserEntry_eq hes hcut hiter hdir hskips hfuel
  have hrem : remaining sequence A (e :: B) false d.savedKey = viewFrom (shows sequence) A (e :: B) :=
    filter_eq_self.2 fun _ _ => rfl
  rw [hrem, hcut, records, view_append] at hL
  rw [← append_cancel_right hL] at hshown
  exact ⟨d', hd', hshown⟩

theorem ShownAt.exists_inner (h : ShownAt it sequence es d i) : ∃ j, Inner it es d.iter j := by
  cases h with
  | forward _ _ _ hiter _ => exact ⟨_, hiter⟩
  | reverse _ _ _ hiter _ _ _ => exact ⟨_, hiter⟩
  | invalid _ hiter => exact ⟨_, hiter⟩

theorem seekToFirst_eq (hes : InOrder es) (hfuel : es.length < fuel) {j : Nat} (hiter : Inner it es d.iter j) :
    ∃ d', seekToFirst it sequence fuel d = .ok d' ∧ ShownAt it sequence es d' 0 := by
  obtain ⟨s', hs', hiter'⟩ := walks_standsAt.seekToFirst hiter
  rw [seekToFirst, hs', ok_bind]
  cases es with
  | nil =>
    rw [walks_standsAt.not_valid hiter']
    exact ⟨_, rfl, .invalid rfl hiter'⟩
  | cons e es =>
    rw [walks_standsAt.valid_of_cons (A := []) rfl hiter']
    exact findNextUserEntry_unskipped (A := []) (d := { d with direction := .forward, savedValue := [], iter := s' }) hes rfl
      hiter' rfl hfuel fun _ _ _ _ _ => rfl

theorem seekToLast_eq (hes : InOrder es) (hfuel : es.length < fuel) {j : Nat} (hiter : Inner it es d.iter j) :
    ∃ d', seekToLast it sequence fuel d = .ok d' ∧
      ShownAt it sequence es d' (before (records sequence es) (records sequence es).length) := by
  obtain ⟨s', hs', hiter'⟩ := walks_standsAt.seekToLast hiter
  rw [seekToLast, hs', ok_bind]
  exact findPrevUserEntry_eq (d := { d with direction := .reverse, savedValue := [], iter := s' }) hes
    (append_nil es).symm rfl hiter' hfuel

theorem seek_eq (hes : InOrder es) (hseq : sequence ≤ kMaxSequenceNumber) (hfuel : es.length < fuel) {j : Nat}
    (hiter : Inner it es d.iter j) {target : Bytes} (haccepts : (asIter it sequence fuel).accepts target) :
    ∃ d', seek it sequence fuel target d = .ok d' ∧
      ShownAt it sequence es d' (lowerBound compare target (records sequence es)) := by
  have hnew : InternalKey.new ⟨target, sequence, kValueTypeForSeek⟩ = .ok (.ofParsed ⟨target, sequence, .value⟩) :=
    InternalKey.new_of_le hseq
  obtain ⟨s', hs', hiter'⟩ := walks_standsAt.seek hiter (.ofParsed ⟨target, sequence, .value⟩) haccepts
  obtain ⟨A, B, hcut, hlen, hA, hB⟩ := exists_cut_lowerBound hes (.ofParsed ⟨target, sequence, .value⟩)
  rw [hlen] at hiter'
  obtain ⟨hbefore, hbehind⟩ := keys_of_seek hseq target hA hB
  have hbound : lowerBound compare target (records sequence es) = (records sequence A).length := by
    rw [hcut, records, view_append]
    refine lowerBound_append (fun r hr => ?_) fun r hr => ?_
    · obtain ⟨a, ha, hshow⟩ := exists_of_mem_viewFrom hr
      exact hbefore a ha _ _ hshow
    · obtain ⟨b, hb, hshow⟩ := exists_of_mem_viewFrom hr
      exact hbehind b hb _ _ hshow
  rw [seek, hnew, ok_bind, hs', ok_bind, hbound]
  cases B with
  | nil =>
    rw [append_nil] at hcut
    subst hcut
    rw [walks_standsAt.not_valid hiter']
    exact ⟨_, rfl, .invalid rfl hiter'⟩
  | cons e B =>
    rw [walks_standsAt.valid_of_cons hcut hiter']
    refine findNextUserEntry_unskipped (d := ⟨s', d.status, _, [], .forward, d.valid⟩) hes hcut hiter' rfl hfuel
      fun b hb k o hshow => ?_
    by_contra hseen
    obtain ⟨a, ha, o', hshow'⟩ := seen_iff.1 (by simpa using hseen)
    exact hbehind b hb k o hshow (hbefore a ha k o' hshow')

end Operations

theorem walks_asIter (hes : InOrder es) (hseq : sequence ≤ kMaxSequenceNumber) (hfuel : es.length < fuel) :
    (asIter it sequence fuel).Walks compare (records sequence es) (ShownAt it sequence es) where
  valid {d i} h := by
    cases h with
    | forward hvalid _ hcut _ hrecord => exact hvalid.trans (decide_eq_true (length_lt_of_record hcut hrecord)).symm
    | reverse hvalid _ hcut _ hview _ _ =>
      refine hvalid.trans (decide_eq_true ?_).symm
      rw [hcut, records, records, view_append, hview]
      simp
    | invalid hvalid _ => exact hvalid.trans (decide_eq_false (Nat.lt_irrefl _)).symm
  key {d i r} h hr := by
    have heq : (asIter it sequence fuel).key d = key it d := rfl
    rw [heq, key]
    cases h with
    | forward hvalid hdir hcut hiter hrecord =>
      rw [record_at hcut (gives_of_record hrecord).record] at hr
      obtain rfl := Option.some.inj hr
      rw [check_of hvalid, ok_bind, hdir, walks_standsAt.key_of_cons hcut hiter]
      rfl
    | reverse hvalid hdir hcut hiter hview _ _ =>
      rw [hcut, records, view_append, hview, getElem?_append_right (Nat.le_refl _)] at hr
      obtain rfl : _ = r := by simpa using hr
      rw [check_of hvalid, ok_bind, hdir]
      rfl
    | invalid hvalid _ => simp at hr
  value {d i r} h hr := by
    have heq : (asIter it sequence fuel).value d = value it d := rfl
    rw [heq, value]
    cases h with
    | forward hvalid hdir hcut hiter hrecord =>
      rw [record_at hcut (gives_of_record hrecord).record] at hr
      obtain rfl := Option.some.inj hr
      rw [check_of hvalid, ok_bind, hdir]
      exact walks_standsAt.value_of_cons hcut hiter
    | reverse hvalid hdir hcut hiter hview _ _ =>
      rw [hcut, records, view_append, hview, getElem?_append_right (Nat.le_refl _)] at hr
      obtain rfl : _ = r := by simpa using hr
      rw [check_of hvalid, ok_bind, hdir]
      rfl
    | invalid hvalid _ => simp at hr
  seekToFirst h := by
    obtain ⟨j, hiter⟩ := h.exists_inner
    exact seekToFirst_eq hes hfuel hiter
  seekToLast h := by
    obtain ⟨j, hiter⟩ := h.exists_inner
    exact seekToLast_eq hes hfuel hiter
  seek h target haccepts := by
    obtain ⟨j, hiter⟩ := h.exists_inner
    exact seek_eq hes hseq hfuel hiter haccepts
  next h hi := by
    cases h with
    | forward hvalid hdir hcut hiter hrecord => exact ShownAt.next_forward hes hfuel hvalid hdir hcut hiter hrecord
    | reverse hvalid hdir hcut hiter hview hbefore hbehind =>
      exact ShownAt.next_reverse hes hfuel hvalid hdir hcut hiter hview hbefore hbehind
    | invalid _ _ => exact absurd hi (Nat.lt_irrefl _)
  prev {d i} h hi := by
    cases h with
    | forward hvalid hdir hcut hiter hrecord => exact ShownAt.prev_forward hes hfuel hvalid hdir hcut hiter hrecord
    | reverse hvalid hdir hcut hiter hview hbefore hbehind =>
      have heq : prev it sequence fuel d = findPrevUserEntry it sequence fuel d := by
        rw [prev, check_of hvalid, ok_bind, hdir]
      obtain ⟨d', hd', hshown⟩ := findPrevUserEntry_eq hes hcut hdir hiter hfuel
      exact ⟨d', heq.trans hd', hshown⟩
    | invalid _ _ => exact absurd hi (Nat.lt_irrefl _)

theorem standsAt_new {s : σ} {j : Nat} (hes : InOrder es) (hseq : sequence ≤ kMaxSequenceNumber) (hfuel : es.length < fuel)
    (hs : Inner it es s j) : (asIter it sequence fuel).StandsAt compare (records sequence es) (new s)
    (records sequence es).length :=
  ⟨_, walks_asIter hes hseq hfuel, .invalid rfl hs⟩

/-- After any run of calls that is allowed, a new `DBIter` shows the record it should: it goes through the newest visible
version of every user key that is not deleted, whatever else the entries hold, forward and backward. -/
theorem run_over_entries {s : σ} {j i : Nat} {calls : List (Call Bytes)} (hes : InOrder es)
    (hseq : sequence ≤ kMaxSequenceNumber) (hfuel : es.length < fuel) (hs : Inner it es s j)
    (hadmits : ∀ c ∈ calls, (asIter it sequence fuel).Admits c)
    (hcalls : calls.foldlM (move compare (records sequence es)) (records sequence es).length = some i) :
    ∃ d, calls.foldlM (asIter it sequence fuel).call (new s) = .ok d ∧
      d.valid = decide (i < (records sequence es).length) ∧
      ∀ r, (records sequence es)[i]? = some r → d.key it = .ok r.1 ∧ d.value it = .ok r.2 :=
  (standsAt_new hes hseq hfuel hs).run_shows hadmits hcalls

/-- Nine versions of four keys, of which the newest of the first is hidden at 8 and the second is deleted. -/
def nineEntries : List (InternalKey × Bytes) :=
  [(⟨[1], 9, .value⟩, [19]), (⟨[1], 5, .value⟩, [15]), (⟨[1], 2, .value⟩, [12]), (⟨[2], 7, .deletion⟩, []),
    (⟨[2], 3, .value⟩, [23]), (⟨[3], 6, .value⟩, [36]), (⟨[3], 4, .deletion⟩, []), (⟨[4], 8, .value⟩, [48]),
    (⟨[4], 1, .value⟩, [41])].map fun e : ParsedInternalKey × Bytes => (.ofParsed e.1, e.2)

theorem run_over_entries_nine : ∃ d, [Call.seekToLast, .prev, .next, .prev, .prev, .next, .seek [4], .prev].foldlM
        (asIter (ofList InternalKey.compare) 8 10).call (new (nineEntries, 0)) = .ok d ∧
      d.valid = true ∧ d.key (ofList InternalKey.compare) = .ok [3] ∧
        d.value (ofList InternalKey.compare) = .ok [36] := by
  have hes : InOrder nineEntries := by
    unfold InOrder
    decide
  have hrecords : records 8 nineEntries = [([1], [15]), ([3], [36]), ([4], [48])] := by decide
  have hcalls : [Call.seekToLast, .prev, .next, .prev, .prev, .next, .seek [4], .prev].foldlM
      (move compare (records 8 nineEntries)) (records 8 nineEntries).length = some 1 := by
    rw [hrecords]
    decide
  have hfuel : nineEntries.length < 10 := by decide
  have hs := standsAt_ofList InternalKey.compare nineEntries 0
  obtain ⟨d, hd, hvalid, hshows⟩ := run_over_entries hes (by decide) hfuel hs (fun c _ => by cases c <;> trivial) hcalls
  rw [hrecords] at hvalid hshows
  exact ⟨d, hd, hvalid, hshows _ rfl⟩

end DBIter

end Dbms18.LevelDb
