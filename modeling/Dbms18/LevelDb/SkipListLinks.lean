import Mathlib.Data.List.Induction
import Dbms18.LevelDb.SkipList

/-!
# The links of a skip list

`Linked l order lvl`: the nodes of the list `l`, in the order of their keys, are `order` (each with its key and its
place in the arena), and the node `n` is linked on its lowest `lvl n` levels. The link of a node on a level leads to
the next node in order that is linked on that level.

While `Insert` is at work the new node is linked on fewer levels than it has. The invariant holds after each of its
stores, so what follows from it holds for a reader at any time.
-/

namespace Dbms18.LevelDb.SkipList

open List Std Iter

variable {K : Type} {cmp : K → K → Ordering} {l l' : SkipList K} {order A B P R S : List (K × Nat)} {lvl : Nat → Nat}
  {e : K × Nat} {i n : Nat}

/-! ## Places in the order -/

/-- The last node of `A`; the head if there is none. -/
def lastNode (A : List (K × Nat)) : Nat := (A.getLast?.map Prod.snd).getD head

def firstNode (B : List (K × Nat)) : Option Nat := B.head?.map Prod.snd

def atLevel (lvl : Nat → Nat) (i : Nat) (B : List (K × Nat)) : List (K × Nat) := B.filter fun e => i < lvl e.2

@[simp] theorem lastNode_nil : lastNode ([] : List (K × Nat)) = head := rfl

@[simp] theorem lastNode_append_cons (A B : List (K × Nat)) (e : K × Nat) : lastNode (A ++ e :: B) = lastNode (e :: B) := by
  rw [lastNode, getLast?_append_of_ne_nil _ (cons_ne_nil e B)]
  rfl

@[simp] theorem lastNode_singleton (e : K × Nat) : lastNode [e] = e.2 := rfl

@[simp] theorem lastNode_concat (A : List (K × Nat)) (e : K × Nat) : lastNode (A ++ [e]) = e.2 := by
  rw [lastNode_append_cons, lastNode_singleton]

theorem exists_mem_lastNode (hA : A ≠ []) : ∃ e ∈ A, e.2 = lastNode A :=
  ⟨A.getLast hA, getLast_mem hA, by rw [lastNode, getLast?_eq_some_getLast hA]; rfl⟩

theorem lastNode_append_of_ne_nil (hB : B ≠ []) : lastNode (A ++ B) = lastNode B := by
  cases B with
  | nil => exact absurd rfl hB
  | cons e B => exact lastNode_append_cons A B e

@[simp] theorem firstNode_cons (e : K × Nat) (B : List (K × Nat)) : firstNode (e :: B) = some e.2 := rfl

@[simp] theorem atLevel_append : atLevel lvl i (A ++ B) = atLevel lvl i A ++ atLevel lvl i B := filter_append ..

theorem atLevel_eq_nil_iff : atLevel lvl i A = [] ↔ ∀ e ∈ A, lvl e.2 ≤ i := by
  simp [atLevel, filter_eq_nil_iff]

theorem atLevel_eq_self (h : ∀ e ∈ A, i < lvl e.2) : atLevel lvl i A = A :=
  filter_eq_self.2 fun e he => decide_eq_true (h e he)

theorem atLevel_congr {lvl' : Nat → Nat} {j : Nat} (h : ∀ e ∈ A, i < lvl e.2 ↔ j < lvl' e.2) :
    atLevel lvl i A = atLevel lvl' j A :=
  filter_congr fun e he => by simp [h e he]

theorem exists_of_atLevel_ne_nil (h : atLevel lvl i B ≠ []) :
    ∃ B₁ e B₂, B = B₁ ++ e :: B₂ ∧ (∀ b ∈ B₁, lvl b.2 ≤ i) ∧ i < lvl e.2 := by
  obtain ⟨e, C, hC⟩ := exists_cons_of_ne_nil h
  obtain ⟨B₁, B₂, hB, hB₁, he, -⟩ := filter_eq_cons_iff.1 hC
  exact ⟨B₁, e, B₂, hB, fun b hb => by simpa using hB₁ b hb, by simpa using he⟩

theorem lastNode_atLevel (h : i < lvl (lastNode A)) : lastNode (atLevel lvl i A) = lastNode A := by
  rcases eq_nil_or_concat A with rfl | ⟨A, e, rfl⟩
  · rfl
  · rw [concat_eq_append] at h ⊢
    rw [lastNode_append_cons, lastNode_singleton] at h
    have he : atLevel lvl i [e] = [e] := atLevel_eq_self (by simpa using h)
    rw [atLevel_append, he, lastNode_append_cons, lastNode_append_cons]

theorem exists_cut_atLevel (lvl : Nat → Nat) (i : Nat) (P : List (K × Nat)) :
    ∃ A R, P = A ++ R ∧ lastNode A = lastNode (atLevel lvl i P) ∧ atLevel lvl i R = [] := by
  induction P using List.reverseRecOn with
  | nil => exact ⟨[], [], rfl, rfl, rfl⟩
  | append_singleton P e ih =>
    by_cases he : i < lvl e.2
    · have hself : atLevel lvl i [e] = [e] := atLevel_eq_self (by simpa using he)
      exact ⟨P ++ [e], [], (append_nil _).symm, by rw [atLevel_append, hself, lastNode_concat, lastNode_concat], rfl⟩
    · have hnil : atLevel lvl i [e] = [] := atLevel_eq_nil_iff.2 (by simpa using he)
      obtain ⟨A, R, rfl, hlast, hR⟩ := ih
      exact ⟨A, R ++ [e], append_assoc .., by rw [hlast, atLevel_append (B := [e]), hnil,
        append_nil], by rw [atLevel_append, hR, hnil]; rfl⟩

/-! ## The invariant -/

def shape (l : SkipList K) : List (Option K × Nat) := l.nodes.map fun node => (node.1, node.2.length)

def levels (l : SkipList K) (n : Nat) : Nat := (l.shape[n]?.map Prod.snd).getD 0

theorem length_shape : l.shape.length = l.nodes.length := length_map _

theorem levels_of_le (h : l.nodes.length ≤ n) : l.levels n = 0 := by
  rw [levels, getElem?_eq_none (by rwa [length_shape])]
  rfl

structure Linked (cmp : K → K → Ordering) (l : SkipList K) (order : List (K × Nat)) (lvl : Nat → Nat) : Prop where
  sorted : order.Pairwise fun a b => cmp a.1 b.1 = .lt
  key : ∀ e ∈ order, l.key e.2 = .ok e.1
  ne_head : ∀ e ∈ order, e.2 ≠ head
  next : ∀ {A B i}, order = A ++ B → i < lvl (lastNode A) → l.next (lastNode A) i = .ok (firstNode (atLevel lvl i B))
  alloc : ∀ n, 0 < lvl n → n < l.nodes.length
  height : ∀ e ∈ order, 0 < lvl e.2 ∧ lvl e.2 ≤ l.maxHeight
  height_head : lvl head = kMaxHeight
  maxHeight : 0 < l.maxHeight ∧ l.maxHeight ≤ kMaxHeight

theorem linked_new : Linked cmp (new : SkipList K) [] (new : SkipList K).levels where
  sorted := .nil
  key := by simp
  ne_head := by simp
  next {A B i} h hi := by
    obtain ⟨rfl, rfl⟩ := append_eq_nil_iff.1 h.symm
    have hlt : i < kMaxHeight := hi
    simp [SkipList.next, new, head, atLevel, firstNode, getElem?_replicate_of_lt hlt]
  alloc n hn := by
    by_contra hle
    rw [levels_of_le (Nat.not_lt.1 hle)] at hn
    exact Nat.lt_irrefl _ hn
  height := by simp
  height_head := rfl
  maxHeight := ⟨Nat.zero_lt_one, by change 1 ≤ 12; decide⟩

namespace Linked

variable (h : Linked cmp l order lvl)

include h

theorem lt_height_lastNode (hcut : order = A ++ B) : 0 < lvl (lastNode A) := by
  by_cases hA : A = []
  · rw [hA, lastNode_nil, h.height_head]
    decide
  · obtain ⟨e, he, heq⟩ := exists_mem_lastNode hA
    rw [← heq]
    exact (h.height e (by rw [hcut]; exact mem_append_left _ he)).1

theorem atLevel_zero (hA : ∀ e ∈ A, e ∈ order) : atLevel lvl 0 A = A :=
  atLevel_eq_self fun e he => (h.height e (hA e he)).1

theorem nodup [TransCmp cmp] : (order.map Prod.snd).Nodup := by
  rw [nodup_iff_pairwise_ne, pairwise_map]
  refine h.sorted.imp_of_mem fun {a b} ha hb hlt heq => ?_
  have hkey := h.key a ha
  rw [heq, h.key b hb] at hkey
  rw [Except.ok.inj hkey, (ReflCmp.compare_self : cmp a.1 a.1 = .eq)] at hlt
  cases hlt

theorem ne_lastNode [TransCmp cmp] (hcut : order = A ++ B) (he : e ∈ B) : e.2 ≠ lastNode A := by
  have hnodup := h.nodup
  by_cases hA : A = []
  · rw [hA]
    exact h.ne_head e (by rw [hcut]; exact mem_append_right _ he)
  · obtain ⟨a, ha, heq⟩ := exists_mem_lastNode hA
    rw [← heq]
    rw [hcut, map_append, nodup_append] at hnodup
    exact fun h => hnodup.2.2 a.2 (mem_map_of_mem ha) e.2 (mem_map_of_mem he) h.symm

end Linked

/-! ## Searching -/

section Search

variable {passes : Nat → Res Bool} {s : Search}

theorem searchStep_pass (h : Linked cmp l order lvl) (hcut : order = A ++ (B ++ e :: R)) (hx : s.x = lastNode A)
    (hlevel : s.level < lvl s.x) (hB : ∀ b ∈ B, lvl b.2 ≤ s.level) (he : s.level < lvl e.2) (hpass : passes e.2 = .ok true) :
    searchStep l passes s = .ok (.inl { s with x := e.2 }) := by
  rw [hx] at hlevel
  have hfirst : firstNode (atLevel lvl s.level (B ++ e :: R)) = some e.2 := by
    rw [atLevel_append, atLevel_eq_nil_iff.2 hB]
    simp [atLevel, he]
  rw [searchStep, hx, h.next hcut hlevel, hfirst]
  simp [hpass]

theorem searchStep_down (h : Linked cmp l order lvl) (hcut : order = A ++ B) (hx : s.x = lastNode A)
    (hlevel : s.level < lvl s.x) (hB : ∀ b ∈ B, s.level < lvl b.2 → passes b.2 = .ok false) :
    searchStep l passes s = .ok (s.down (firstNode (atLevel lvl s.level B))) := by
  rw [hx] at hlevel
  rw [searchStep, hx, h.next hcut hlevel]
  cases hfirst : atLevel lvl s.level B with
  | nil => rfl
  | cons e C =>
    have he : e ∈ atLevel lvl s.level B := by rw [hfirst]; exact mem_cons_self
    obtain ⟨he, hlt⟩ := mem_filter.1 he
    have hpass := hB e he (by simpa using hlt)
    simp [hpass]

/-- `prev` holds the last node before the end of `P` for every level in question. -/
def Fills (lvl : Nat → Nat) (P : List (K × Nat)) (Levels : Nat → Prop) (prev : Option (List (Option Nat))) : Prop :=
  ∀ arr, prev = some arr → arr.length = kMaxHeight ∧ ∀ i, Levels i → arr[i]? = some (some (lastNode (atLevel lvl i P)))

/-- A search for the end of `P` has come to the end of `A`; at most `k` passes go on. -/
structure SearchAt (l : SkipList K) (lvl : Nat → Nat) (P A R : List (K × Nat)) (filled : Bool) (k : Nat) (s : Search) :
    Prop where
  parts : P = A ++ R
  x : s.x = lastNode A
  level : s.level < lvl s.x
  variant : k = R.length + s.level
  fills : Fills lvl P (fun i => s.level < i ∧ i < l.maxHeight) s.prev
  bound : s.level < l.maxHeight
  isSome : s.prev.isSome = filled

structure Found (l : SkipList K) (lvl : Nat → Nat) (P S : List (K × Nat)) (filled : Bool) (r : Option Nat × Search) : Prop where
  next : r.1 = firstNode S
  x : r.2.x = lastNode P
  fills : Fills lvl P (fun i => i < l.maxHeight) r.2.prev
  isSome : r.2.prev.isSome = filled

variable {filled : Bool} {k : Nat}

theorem SearchAt.step (h : Linked cmp l (P ++ S) lvl) (hP : ∀ e ∈ P, passes e.2 = .ok true)
    (hS : ∀ e ∈ S, passes e.2 = .ok false) (hs : SearchAt l lvl P A R filled k s) :
    (∃ k' s', searchStep l passes s = .ok (.inl s') ∧ (∃ A R, SearchAt l lvl P A R filled k' s') ∧ k' < k) ∨
      ∃ r, searchStep l passes s = .ok (.inr r) ∧ Found l lvl P S filled r := by
  obtain ⟨rfl, hx, hlevel, rfl, hfills, hbound, hsome⟩ := hs
  by_cases hR : atLevel lvl s.level R = []
  -- no node of this level is left to be passed
  · have hnone := atLevel_eq_nil_iff.1 hR
    have hdown : searchStep l passes s = .ok (s.down (firstNode (atLevel lvl s.level (R ++ S)))) :=
      searchStep_down h (append_assoc ..) hx hlevel fun b hb hlt => by
        rcases mem_append.1 hb with hb | hb
        · exact absurd (hnone b hb) (Nat.not_le.2 hlt)
        · exact hS b hb
    rw [atLevel_append, hR, nil_append] at hdown
    have hlast : lastNode (atLevel lvl s.level (A ++ R)) = s.x := by
      rw [atLevel_append, hR, append_nil, lastNode_atLevel (hx ▸ hlevel), hx]
    have hset : Fills lvl (A ++ R) (fun i => s.level ≤ i ∧ i < l.maxHeight)
        (s.prev.map fun prev => prev.set s.level (some s.x)) := by
      intro arr harr
      obtain ⟨prev, hprev, rfl⟩ := Option.map_eq_some_iff.1 harr
      obtain ⟨hlen, hprev⟩ := hfills prev hprev
      refine ⟨by rw [length_set, hlen], fun i hi => ?_⟩
      by_cases heq : i = s.level
      · subst heq
        rw [getElem?_set_self (by rw [hlen]; exact Nat.lt_of_lt_of_le hbound h.maxHeight.2), hlast]
      · rw [getElem?_set_ne (Ne.symm heq)]
        exact hprev i ⟨by omega, hi.2⟩
    rw [hdown, Search.down]
    by_cases hzero : s.level = 0
    · right
      have hmem : ∀ e ∈ R, e ∈ A ++ R ++ S := fun e he => mem_append_left _ (mem_append_right _ he)
      have hR' : R = [] := by rw [← h.atLevel_zero hmem, ← hzero, hR]
      refine ⟨_, by rw [if_pos hzero], ⟨?_, by rw [hR', append_nil]; exact hx, ?_, by simpa using hsome⟩⟩
      · rw [hzero, h.atLevel_zero fun e he => mem_append_right _ he]
      · intro arr harr
        obtain ⟨hlen, harr⟩ := hset arr harr
        exact ⟨hlen, fun i hi => harr i ⟨by omega, hi⟩⟩
    · left
      refine ⟨R.length + (s.level - 1), ⟨s.x, s.level - 1,
        s.prev.map fun prev => prev.set s.level (some s.x)⟩, by rw [if_neg hzero],
        ⟨A, R, rfl, hx, ?_, rfl, ?_, ?_, by simpa using hsome⟩, by omega⟩
      · exact Nat.lt_of_le_of_lt (Nat.sub_le ..) hlevel
      · intro arr harr
        obtain ⟨hlen, harr⟩ := hset arr harr
        exact ⟨hlen, fun i hi => harr i ⟨by have := hi.1; dsimp only at this; omega, hi.2⟩⟩
      · exact Nat.lt_of_le_of_lt (Nat.sub_le ..) hbound
  · left
    obtain ⟨R₁, e, R₂, rfl, hR₁, he⟩ := exists_of_atLevel_ne_nil hR
    have hcut : A ++ (R₁ ++ e :: R₂) ++ S = A ++ (R₁ ++ e :: (R₂ ++ S)) := by simp
    have hpass := searchStep_pass h hcut hx hlevel hR₁ he (hP e (by simp))
    refine ⟨R₂.length + s.level, _, hpass, ⟨A ++ R₁ ++ [e], R₂, by simp,
      (lastNode_concat ..).symm, he, rfl, hfills, hbound, hsome⟩, ?_⟩
    simp only [length_append, length_cons]
    omega

theorem searchAt_start (h : Linked cmp l (P ++ S) lvl) (prev : Option (List (Option Nat)))
    (hprev : ∀ arr, prev = some arr → arr.length = kMaxHeight) :
    SearchAt l lvl P [] P prev.isSome (P.length + (l.maxHeight - 1)) (l.start prev) where
  parts := rfl
  x := rfl
  level := by
    have := h.maxHeight
    change l.maxHeight - 1 < lvl head
    rw [h.height_head]
    omega
  variant := rfl
  fills arr harr := ⟨hprev arr harr, fun i hi => by have := hi.1; change l.maxHeight - 1 < i at this; omega⟩
  bound := by
    have := h.maxHeight
    change l.maxHeight - 1 < l.maxHeight
    omega
  isSome := rfl

theorem loop_searchStep (h : Linked cmp l (P ++ S) lvl) (hP : ∀ e ∈ P, passes e.2 = .ok true)
    (hS : ∀ e ∈ S, passes e.2 = .ok false)
    (prev : Option (List (Option Nat))) (hprev : ∀ arr, prev = some arr → arr.length = kMaxHeight) {fuel : Nat}
    (hfuel : (P ++ S).length + kMaxHeight ≤ fuel) :
    ∃ r, Res.loop (searchStep l passes) fuel (l.start prev) = .ok r ∧ Found l lvl P S prev.isSome r := by
  refine Res.loop_total (I := fun k s => ∃ A R, SearchAt l lvl P A R prev.isSome k s) (fun k s hs => ?_)
    ⟨[], P, searchAt_start h prev hprev⟩ ?_
  · obtain ⟨A, R, hs⟩ := hs
    exact hs.step h hP hS
  · have := h.maxHeight
    rw [length_append] at hfuel
    omega

theorem keyIsAfterNode_eq (h : Linked cmp l order lvl) (he : e ∈ order) (key : K) :
    l.keyIsAfterNode cmp key e.2 = .ok (decide (cmp e.1 key = .lt)) := by
  rw [keyIsAfterNode, h.key e he]
  rfl

theorem findGreaterOrEqual_eq {key : K} (h : Linked cmp l (P ++ S) lvl) (hP : ∀ e ∈ P, cmp e.1 key = .lt)
    (hS : ∀ e ∈ S, cmp e.1 key ≠ .lt)
    (prev : Option (List (Option Nat))) (hprev : ∀ arr, prev = some arr → arr.length = kMaxHeight) {fuel : Nat}
    (hfuel : (P ++ S).length + kMaxHeight ≤ fuel) :
    ∃ r, l.findGreaterOrEqual cmp fuel key prev = .ok r ∧ Found l lvl P S prev.isSome r := by
  refine loop_searchStep h (fun e he => ?_) (fun e he => ?_) prev hprev hfuel
  · rw [keyIsAfterNode_eq h (mem_append_left _ he), decide_eq_true (hP e he)]
  · rw [keyIsAfterNode_eq h (mem_append_right _ he), decide_eq_false (hS e he)]

end Search

end Dbms18.LevelDb.SkipList
