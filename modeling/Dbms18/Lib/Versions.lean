import Mathlib.Data.List.Sort
import Dbms18.Lib.Overlay

/-!
# Versions of keys

A store that keeps old versions is a list of entries, the newer versions of a key before the older ones. A
reader sees some of the entries: `shows e` is the key that `e` is about and its value, or `none` as the value
when `e` deletes the key; an entry that the reader does not see shows nothing. Of the entries about a key the
first one counts. `view` lists the records that the reader sees, `lookup` finds one; a store in order that
holds the versions of a map (`map_toList_eq_view`) is viewed as the list of the map.
-/

namespace Dbms18.Versions

open List Std

variable {E K V : Type} (shows : E → Option (K × Option V)) [DecidableEq K]

def seen (A : List E) (k : K) : Bool := A.any fun e => (shows e).any fun r => r.1 = k

def record (A : List E) (e : E) : List (K × V) :=
  match shows e with
  | some (k, some v) => if seen shows A k then [] else [(k, v)]
  | _ => []

def viewFrom : List E → List E → List (K × V)
  | _, [] => []
  | A, e :: B => record shows A e ++ viewFrom (A ++ [e]) B

def view (es : List E) : List (K × V) := viewFrom shows [] es

def lookup (k : K) (es : List E) : Option (Option V) :=
  es.findSome? fun e => (shows e).bind fun r => if r.1 = k then some r.2 else none

variable {shows} {A A' B C es : List E} {e : E} {k : K} {v : V} {o : Option V}

/-! ## Records -/

theorem seen_iff : seen shows A k = true ↔ ∃ e ∈ A, ∃ o, shows e = some (k, o) := by
  simp only [seen, any_eq_true, Option.any_eq_true, decide_eq_true_eq]
  constructor
  · rintro ⟨e, he, ⟨k', o⟩, hs, rfl⟩
    exact ⟨e, he, o, hs⟩
  · rintro ⟨e, he, o, hs⟩
    exact ⟨e, he, (k, o), hs, rfl⟩

@[simp] theorem seen_append : seen shows (A ++ B) k = (seen shows A k || seen shows B k) := any_append

@[simp] theorem seen_nil : seen shows ([] : List E) k = false := rfl

theorem seen_singleton : seen shows [e] k = true ↔ ∃ o, shows e = some (k, o) := by
  simp [seen_iff]

theorem record_of_none (h : shows e = none) : record shows A e = [] := by
  rw [record, h]

theorem record_of_deletion (h : shows e = some (k, none)) : record shows A e = [] := by
  rw [record, h]

theorem record_of_value (h : shows e = some (k, some v)) :
    record shows A e = if seen shows A k then [] else [(k, v)] := by
  rw [record, h]

theorem mem_record {r : K × V} : r ∈ record shows A e ↔ shows e = some (r.1, some r.2) ∧ seen shows A r.1 = false := by
  unfold record
  split
  · next k v h =>
    rw [h]
    split
    · next hs =>
      constructor
      · rintro ⟨⟩
      · rintro ⟨heq, hno⟩
        obtain ⟨rfl, -⟩ := Prod.mk.inj (Option.some.inj heq)
        rw [hs] at hno
        cases hno
    · next hs =>
      rw [mem_singleton]
      constructor
      · rintro rfl
        exact ⟨rfl, by simpa using hs⟩
      · rintro ⟨heq, -⟩
        obtain ⟨h₁, h₂⟩ := Prod.mk.inj (Option.some.inj heq)
        exact Prod.ext h₁.symm (Option.some.inj h₂).symm
  · next h =>
    constructor
    · rintro ⟨⟩
    · rintro ⟨heq, -⟩
      exact absurd heq (h r.1 r.2)

/-! ## Views -/

theorem viewFrom_append (A B C : List E) : viewFrom shows A (B ++ C) = viewFrom shows A B ++ viewFrom shows (A ++ B) C := by
  induction B generalizing A with
  | nil => simp [viewFrom]
  | cons e B ih => simp [viewFrom, ih, append_assoc]

theorem view_append (A B : List E) : view shows (A ++ B) = view shows A ++ viewFrom shows A B := viewFrom_append [] A B

theorem view_append_cons (A B : List E) (e : E) :
    view shows (A ++ e :: B) = view shows A ++ record shows A e ++ viewFrom shows (A ++ [e]) B := by
  rw [view_append, viewFrom, append_assoc]

theorem viewFrom_append_left (A' A B : List E) :
    viewFrom shows (A' ++ A) B = (viewFrom shows A B).filter fun r => !seen shows A' r.1 := by
  induction B generalizing A with
  | nil => rfl
  | cons e B ih =>
    have hrecord : record shows (A' ++ A) e = (record shows A e).filter fun r => !seen shows A' r.1 := by
      unfold record
      split
      · next k v h => by_cases h' : seen shows A' k <;> by_cases h'' : seen shows A k <;> simp [h', h'']
      · rfl
    rw [viewFrom, viewFrom, filter_append, hrecord, append_assoc, ih]

theorem viewFrom_eq_filter (A B : List E) : viewFrom shows A B = (view shows B).filter fun r => !seen shows A r.1 := by
  have h : viewFrom shows (A ++ []) B = _ := viewFrom_append_left A [] B
  rwa [append_nil] at h

theorem viewFrom_of_hidden (h : ∀ e ∈ B, shows e = none) : viewFrom shows A B = [] := by
  induction B generalizing A with
  | nil => rfl
  | cons e B ih =>
    rw [viewFrom, record_of_none (h e mem_cons_self), ih fun e he => h e (mem_cons_of_mem _ he)]
    rfl

theorem lookup_cons : lookup shows k (e :: B) =
    (if seen shows [e] k then (shows e).map Prod.snd else none).or (lookup shows k B) := by
  rw [lookup, findSome?_cons, ← lookup]
  cases hs : shows e with
  | none => simp [seen, hs]
  | some r => by_cases hk : r.1 = k <;> simp [seen, hs, hk]

theorem lookup_append : lookup shows k (A ++ B) = (lookup shows k A).or (lookup shows k B) := findSome?_append

theorem lookup_cons_of_none (h : shows e = none) : lookup shows k (e :: B) = lookup shows k B := by
  simp [lookup, h]

theorem lookup_cons_of_some {k' : K} (h : shows e = some (k', o)) :
    lookup shows k (e :: B) = if k' = k then some o else lookup shows k B := by
  rw [lookup, findSome?_cons, ← lookup]
  by_cases hk : k' = k <;> simp [h, hk]

theorem lookup_eq_none (h : ∀ e ∈ es, ∀ o, shows e ≠ some (k, o)) : lookup shows k es = none := by
  refine findSome?_eq_none_iff.2 fun e he => ?_
  cases hs : shows e with
  | none => rfl
  | some r =>
    have hne : r.1 ≠ k := by
      rintro rfl
      exact h e he r.2 hs
    exact if_neg hne

theorem mem_viewFrom {r : K × V} :
    r ∈ viewFrom shows A B ↔ seen shows A r.1 = false ∧ lookup shows r.1 B = some (some r.2) := by
  induction B generalizing A with
  | nil => simp [viewFrom, lookup]
  | cons e B ih =>
    rw [viewFrom, mem_append, mem_record, ih, seen_append, lookup_cons, Bool.or_eq_false_iff]
    by_cases he : seen shows [e] r.1
    · obtain ⟨o, ho⟩ := seen_singleton.1 he
      simp [he, ho, and_comm]
    · have hno : ∀ o, shows e ≠ some (r.1, o) := fun o ho => he (seen_singleton.2 ⟨o, ho⟩)
      simp [he, hno]

theorem mem_view {r : K × V} : r ∈ view shows es ↔ lookup shows r.1 es = some (some r.2) := by
  rw [view, mem_viewFrom]
  simp

/-! ## Entries in order -/

section Order

variable {cmp : K → K → Ordering} [LawfulEqCmp cmp]

/-- The entries that are seen are in the order of their keys. -/
def Ordered (shows : E → Option (K × Option V)) (cmp : K → K → Ordering) (es : List E) : Prop :=
  es.Pairwise fun e e' => ∀ k o k' o', shows e = some (k, o) → shows e' = some (k', o') → (cmp k k').isLE = true

theorem exists_of_mem_viewFrom {r : K × V} (h : r ∈ viewFrom shows A B) : ∃ e ∈ B, shows e = some (r.1, some r.2) := by
  obtain ⟨-, h⟩ := mem_viewFrom.1 h
  obtain ⟨e, he, heq⟩ := exists_of_findSome?_eq_some h
  obtain ⟨r', hr', hr⟩ := Option.bind_eq_some_iff.1 heq
  obtain ⟨hk, ho⟩ := Option.ite_none_right_eq_some.1 hr
  exact ⟨e, he, hr'.trans (congrArg some (Prod.ext hk (Option.some.inj ho)))⟩

omit [DecidableEq K] in
theorem lt_of_isLE_of_ne {k k' : K} (hle : (cmp k k').isLE = true) (hne : k ≠ k') : cmp k k' = .lt := by
  rcases Ordering.isLE_iff_eq_lt_or_eq_eq.1 hle with h | h
  · exact h
  · exact absurd (LawfulEqCmp.eq_of_compare h) hne

theorem pairwise_viewFrom (h : Ordered shows cmp B) : (viewFrom shows A B).Pairwise fun r r' => cmp r.1 r'.1 = .lt := by
  induction B generalizing A with
  | nil => exact .nil
  | cons e B ih =>
    obtain ⟨hfirst, hrest⟩ := pairwise_cons.1 h
    rw [viewFrom, pairwise_append]
    refine ⟨?_, ih hrest, fun r hr r' hr' => ?_⟩
    · rw [record]
      split
      · split <;> simp
      · exact .nil
    · obtain ⟨hr, -⟩ := mem_record.1 hr
      obtain ⟨e', he', hshow'⟩ := exists_of_mem_viewFrom hr'
      refine lt_of_isLE_of_ne (hfirst e' he' _ _ _ _ hr hshow') fun heq => ?_
      obtain ⟨hseen, -⟩ := mem_viewFrom.1 hr'
      rw [seen_append, Bool.or_eq_false_iff] at hseen
      have := seen_singleton.2 ⟨_, heq ▸ hr⟩
      rw [hseen.2] at this
      cases this

section Middle

variable {k' : K} {o' : Option V} (h : Ordered shows cmp (A ++ e :: B)) (he : shows e = some (k, o))

include h he

theorem Ordered.isLE_of_seen (hs : seen shows (A ++ [e]) k' = true) : (cmp k' k).isLE = true := by
  obtain ⟨a, ha, o', hshow⟩ := seen_iff.1 hs
  rcases mem_append.1 ha with ha | ha
  · exact (pairwise_append.1 h).2.2 a ha e mem_cons_self _ _ _ _ hshow he
  · obtain rfl := mem_singleton.1 ha
    rw [he] at hshow
    obtain ⟨rfl, -⟩ := Prod.mk.inj (Option.some.inj hshow)
    have hself : cmp k k = .eq := ReflCmp.compare_self
    rw [hself]
    rfl

omit [DecidableEq K] [LawfulEqCmp cmp] in
theorem Ordered.isLE_of_mem {e' : E} (he' : e' ∈ B) (hshow : shows e' = some (k', o')) : (cmp k k').isLE = true :=
  (pairwise_cons.1 (pairwise_append.1 h).2.1).1 e' he' _ _ _ _ he hshow

theorem Ordered.lt_of_mem_viewFrom {r : K × V} (hr : r ∈ viewFrom shows (A ++ [e]) B) : cmp k r.1 = .lt := by
  obtain ⟨e', he', hshow⟩ := exists_of_mem_viewFrom hr
  refine lt_of_isLE_of_ne (h.isLE_of_mem he he' hshow) ?_
  rintro rfl
  have hunseen := (mem_viewFrom.1 hr).1
  rw [seen_append, seen_singleton.2 ⟨_, he⟩, Bool.or_true] at hunseen
  cases hunseen

end Middle

theorem map_toList_eq_view [TransCmp cmp] {m : ExtTreeMap K V cmp} (h : Ordered shows cmp es)
    (hm : ∀ k, m[k]? = (lookup shows k es).join) : m.toList = view shows es := by
  have hsorted : (view shows es).Pairwise fun r r' => cmp r.1 r'.1 = .lt := pairwise_viewFrom h
  have hsorted' : m.toList.Pairwise fun r r' => cmp r.1 r'.1 = .lt := ExtTreeMap.ordered_keys_toList
  have hirrefl : ∀ r : K × V, cmp r.1 r.1 ≠ .lt := fun r hr => by
    have heq : cmp r.1 r.1 = .eq := ReflCmp.compare_self
    rw [heq] at hr
    cases hr
  have hnodup : (view shows es).Nodup := by
    refine hsorted.imp fun {r r'} hlt heq => ?_
    subst heq
    exact hirrefl r hlt
  have hperm : m.toList.Perm (view shows es) := by
    refine (perm_ext_iff_of_nodup (Overlay.nodup_toList m) hnodup).2 fun r => ?_
    rw [ExtTreeMap.mem_toList_iff_getElem?_eq_some, hm, mem_view, Option.join_eq_some_iff]
  refine hperm.eq_of_pairwise (fun r r' _ _ hlt hlt' => ?_) hsorted' hsorted
  exact absurd (TransCmp.lt_trans hlt hlt') (hirrefl r)

end Order

end Dbms18.Versions
