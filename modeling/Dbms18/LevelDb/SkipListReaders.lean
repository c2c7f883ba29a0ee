import Mathlib.Data.List.Perm.Subperm
import Dbms18.Lib.Run
import Dbms18.LevelDb.SkipListInsert

/-!
# Readers of a skip list

An iterator is on the node at some position of the order, or on none behind the last; its operations move it as they
should. A search takes no lock. While it runs, insertions may be at work, and each of their stores may come between
two of its passes: what the search finds is what is right at the moment of its last load.

The links are loaded and stored atomically, and the stores are taken to be seen in the order they are made in, which
is what the release and acquire barriers of `SetNext` and `Next` are for.
-/

namespace Dbms18.LevelDb.SkipList

open Res List Std Iter

variable {K : Type} {cmp : K → K → Ordering} {l : SkipList K} {order P S : List (K × Nat)} {lvl : Nat → Nat} {i : Nat}
  {fuel : Nat}

/-! ## Iterators -/

def nodeAt (order : List (K × Nat)) (i : Nat) : Iterator := order[i]?.map Prod.snd

theorem nodeAt_eq_firstNode (h : order = P ++ S) : nodeAt order P.length = firstNode S := by
  rw [nodeAt, firstNode, h, getElem?_append_right (Nat.le_refl _), Nat.sub_self, head?_eq_getElem?]

theorem Linked.ofNode_lastNode (h : Linked cmp l (P ++ S) lvl) :
    Iterator.ofNode (lastNode P) = nodeAt (P ++ S) (before (P ++ S) P.length) := by
  rcases eq_nil_or_concat P with rfl | ⟨P, e, rfl⟩
  · simp [nodeAt, before, Iterator.ofNode]
  · rw [concat_eq_append] at h ⊢
    have hne : e.2 ≠ head := h.ne_head e (by simp)
    rw [before_append_singleton, lastNode_concat, Iterator.ofNode, if_neg hne, nodeAt]
    simp

namespace Linked

variable (h : Linked cmp l order lvl)

include h

theorem iterator_key {e : K × Nat} (he : order[i]? = some e) : Iterator.key l (nodeAt order i) = .ok e.1 := by
  rw [nodeAt, he]
  exact h.key e (mem_of_getElem? he)

theorem iterator_next (hi : i < order.length) : Iterator.next l (nodeAt order i) = .ok (nodeAt order (i + 1)) := by
  have hcut : order = (order.take i ++ [order[i]]) ++ order.drop (i + 1) := by simp
  have hlen : (order.take i ++ [order[i]]).length = i + 1 := by simp [Nat.min_eq_left (Nat.succ_le_of_lt hi)]
  have hnext := h.next hcut (h.lt_height_lastNode hcut)
  rw [h.atLevel_zero fun e he => mem_of_mem_drop he, lastNode_concat] at hnext
  have hfirst := nodeAt_eq_firstNode hcut
  rw [hlen] at hfirst
  rw [nodeAt, getElem?_eq_getElem hi, hfirst]
  exact hnext

theorem iterator_seekToFirst : Iterator.seekToFirst l = .ok (nodeAt order 0) := by
  have hnext := h.next (A := []) (B := order) rfl (h.lt_height_lastNode rfl)
  rw [h.atLevel_zero fun _ he => he] at hnext
  rw [Iterator.seekToFirst, show nodeAt order 0 = firstNode order from nodeAt_eq_firstNode (P := []) rfl]
  exact hnext

theorem iterator_seek [TransCmp cmp] (hfuel : order.length + kMaxHeight ≤ fuel) (target : K) :
    Iterator.seek cmp l fuel target = .ok (nodeAt order (lowerBound cmp target order)) := by
  obtain ⟨P, S, rfl, hbound, hP, hS⟩ := exists_cut_lowerBound h.sorted target
  obtain ⟨⟨x, s⟩, hfind, hfound⟩ := findGreaterOrEqual_eq h hP hS none (by simp) hfuel
  rw [Iterator.seek, hfind, ok_bind, hbound, nodeAt_eq_firstNode rfl]
  exact congrArg Except.ok hfound.next

theorem iterator_seekToLast (hfuel : order.length + kMaxHeight ≤ fuel) :
    Iterator.seekToLast l fuel = .ok (nodeAt order (before order order.length)) := by
  rw [← append_nil order] at h hfuel
  obtain ⟨⟨x, s⟩, hfind, hfound⟩ : ∃ r, Res.loop (searchStep l fun _ => .ok true) fuel (l.start none) = .ok r ∧
      Found l lvl order [] false r :=
    loop_searchStep h (fun _ _ => rfl) (by simp) none (by simp) hfuel
  have hlast := h.ofNode_lastNode
  rw [append_nil] at hlast
  rw [Iterator.seekToLast, findLast, hfind]
  simp only [ok_bind, pure_eq]
  rw [show s.x = lastNode order from hfound.x, hlast]

end Linked

theorem findLessThanStep_eq (h : Linked cmp l (P ++ S) lvl) {key : K} (hP : ∀ e ∈ P, cmp e.1 key = .lt) {A R : List (K × Nat)}
    {filled : Bool} {k : Nat} {s : Search} (hs : SearchAt l lvl P A R filled k s) :
    findLessThanStep cmp l key s = searchStep l (l.keyIsAfterNode cmp key) s := by
  unfold findLessThanStep
  by_cases hx : s.x = head
  · rw [if_neg (not_not.2 hx)]
  · have hA : A ≠ [] := by
      rintro rfl
      exact hx hs.x
    obtain ⟨e, he, heq⟩ := exists_mem_lastNode hA
    have hmem : e ∈ P := by rw [hs.parts]; exact mem_append_left _ he
    rw [if_pos hx, hs.x, ← heq, h.key e (mem_append_left _ hmem), ok_bind, check_of (hP e hmem)]
    rfl

theorem Linked.iterator_prev [TransCmp cmp] (h : Linked cmp l order lvl) (hfuel : order.length + kMaxHeight ≤ fuel)
    (hi : i < order.length) :
    Iterator.prev cmp l fuel (nodeAt order i) = .ok (nodeAt order (before order i)) := by
  obtain ⟨P, e, S, rfl, rfl⟩ : ∃ P e S, order = P ++ e :: S ∧ i = P.length :=
    ⟨order.take i, order[i], order.drop (i + 1), by simp, by simp [Nat.min_eq_left (Nat.le_of_lt hi)]⟩
  have hP : ∀ p ∈ P, cmp p.1 e.1 = .lt := fun p hp => (pairwise_append.1 h.sorted).2.2 p hp e mem_cons_self
  have hS : ∀ p ∈ e :: S, cmp p.1 e.1 ≠ .lt := fun p hp => by
    rcases mem_cons.1 hp with rfl | hp
    · rw [(ReflCmp.compare_self : cmp p.1 p.1 = .eq)]
      decide
    · rw [OrientedCmp.gt_of_lt ((pairwise_cons.1 (pairwise_append.1 h.sorted).2.1).1 p hp)]
      decide
  obtain ⟨⟨x, s⟩, hloop, hfound⟩ : ∃ r, Res.loop (findLessThanStep cmp l e.1) fuel (l.start none) = .ok r ∧
      Found l lvl P (e :: S) false r := by
    have hstart := searchAt_start h none (by simp)
    refine loop_total (I := fun k s => ∃ A R, SearchAt l lvl P A R false k s) (fun k s hs => ?_) ⟨[], P, hstart⟩ ?_
    · obtain ⟨A, R, hs⟩ := hs
      rw [findLessThanStep_eq h hP hs]
      refine hs.step h (fun p hp => ?_) fun p hp => ?_
      · rw [keyIsAfterNode_eq h (mem_append_left _ hp), decide_eq_true (hP p hp)]
      · rw [keyIsAfterNode_eq h (mem_append_right _ hp), decide_eq_false (hS p hp)]
    · have := h.maxHeight
      rw [length_append] at hfuel
      omega
  rw [Iterator.prev, h.iterator_key (i := P.length) (e := e) (by simp), ok_bind, findLessThan, hloop]
  simp only [ok_bind, pure_eq]
  rw [show s.x = lastNode P from hfound.x, h.ofNode_lastNode]

/-! ## Lists that are filled key by key -/

theorem Linked.length_le [TransCmp cmp] (h : Linked cmp l order lvl) : order.length ≤ l.nodes.length := by
  have hsubset : order.map Prod.snd ⊆ List.range l.nodes.length := fun n hn => by
    obtain ⟨e, he, rfl⟩ := mem_map.1 hn
    exact mem_range.2 (h.alloc e.2 (h.height e he).1)
  simpa using (subperm_of_subset h.nodup hsubset).length_le

theorem Linked.exists_cut_of_new [TransCmp cmp] (h : Linked cmp l order lvl) {key : K} (hnew : ∀ e ∈ order, cmp key e.1 ≠ .eq) :
    ∃ P S, order = P ++ S ∧ (∀ e ∈ P, cmp e.1 key = .lt) ∧ ∀ e ∈ S, cmp key e.1 = .lt := by
  obtain ⟨P, S, rfl, -, hP, hS⟩ := exists_cut_lowerBound h.sorted key
  refine ⟨P, S, rfl, hP, fun e he => ?_⟩
  cases hc : cmp key e.1 with
  | lt => rfl
  | eq => exact absurd hc (hnew e (mem_append_right _ he))
  | gt => exact absurd (OrientedCmp.lt_of_gt hc) (hS e he)

theorem Linked.contains_eq [TransCmp cmp] (h : Linked cmp l order lvl) (hfuel : order.length + kMaxHeight ≤ fuel) (key : K) :
    l.contains cmp fuel key = .ok (order.any fun e => cmp key e.1 = .eq) := by
  obtain ⟨P, S, rfl, -, hP, hS⟩ := exists_cut_lowerBound h.sorted key
  obtain ⟨⟨x, s⟩, hfind, hfound⟩ := findGreaterOrEqual_eq h hP hS none (by simp) hfuel
  have hPany : (P.any fun e => decide (cmp key e.1 = .eq)) = false := by
    refine any_eq_false.2 fun e he heq => ?_
    rw [decide_eq_true_eq, OrientedCmp.gt_of_lt (hP e he)] at heq
    cases heq
  rw [contains, hfind]
  simp only [ok_bind]
  rw [show x = firstNode S from hfound.next, any_append, hPany, Bool.false_or]
  cases S with
  | nil => rfl
  | cons e S =>
    -- the keys behind the first one that is not smaller are larger
    have hsorted := pairwise_cons.1 (pairwise_append.1 h.sorted).2.1
    have hSany : (S.any fun e => decide (cmp key e.1 = .eq)) = false := by
      refine any_eq_false.2 fun e' he' heq => hS e mem_cons_self ?_
      rw [decide_eq_true_eq] at heq
      exact TransCmp.lt_of_lt_of_eq (hsorted.1 e' he') (OrientedCmp.eq_symm heq)
    rw [firstNode_cons, any_cons, hSany, Bool.or_false]
    simp [h.key e (by simp)]

/-- The heights that the generator draws for `n` nodes. -/
def heights : Nat → Random → List Nat
  | 0, _ => []
  | n + 1, rnd => (randomHeight rnd).1 :: heights n (randomHeight rnd).2

theorem foldlM_insert [TransCmp cmp] {keys : List K} (h : Linked cmp l order l.levels)
    (hkeys : keys.Pairwise fun a b => cmp b a ≠ .eq) (hnew : ∀ k ∈ keys, ∀ e ∈ order, cmp k e.1 ≠ .eq)
    (hfuel : order.length + keys.length + kMaxHeight ≤ fuel) :
    ∃ l' order', keys.foldlM (fun l k => l.insert cmp fuel k) l = .ok l' ∧ Linked cmp l' order' l'.levels ∧
      (order'.map Prod.fst).Perm (order.map Prod.fst ++ keys) ∧
      l'.shape = l.shape ++ (keys.map some).zip (heights keys.length l.rnd) := by
  induction keys generalizing l order with
  | nil => exact ⟨l, order, rfl, h, by simp, by simp⟩
  | cons k keys ih =>
    obtain ⟨hk, hkeys⟩ := pairwise_cons.1 hkeys
    obtain ⟨P, S, rfl, hP, hS⟩ := h.exists_cut_of_new (hnew k mem_cons_self)
    rw [length_cons] at hfuel
    have hfuel₀ : (P ++ S).length + kMaxHeight ≤ fuel := by omega
    obtain ⟨l₁, n, hinsert, h₁, hgains⟩ := insert_eq h hP hS hfuel₀
    have hnew₁ : ∀ k' ∈ keys, ∀ e ∈ P ++ (k, n) :: S, cmp k' e.1 ≠ .eq := by
      intro k' hk' e he
      rcases mem_append.1 he with he | he
      · exact hnew k' (mem_cons_of_mem _ hk') e (mem_append_left _ he)
      · rcases mem_cons.1 he with rfl | he
        · exact hk k' hk'
        · exact hnew k' (mem_cons_of_mem _ hk') e (mem_append_right _ he)
    have hlen : (P ++ (k, n) :: S).length = (P ++ S).length + 1 := by simp [Nat.add_assoc]
    obtain ⟨l', order', hfold, h', hperm, hshape⟩ := ih h₁ hkeys hnew₁ (by omega)
    refine ⟨l', order', by rw [foldlM_cons, hinsert, ok_bind, hfold], h', hperm.trans ?_, ?_⟩
    · simp only [map_append, map_cons, append_assoc, cons_append]
      exact perm_middle.symm.append_left _
    · rw [hshape, hgains.shape, hgains.rnd, append_assoc]
      rfl

/-- A list that different keys are inserted into, in any order: every key has a node with as many links as were drawn for
it, all of them lead to the next node in order that has this level (`Linked`), and every search in the list is right. -/
theorem insert_all [TransCmp cmp] {keys : List K} (hkeys : keys.Pairwise fun a b => cmp b a ≠ .eq)
    (hfuel : keys.length + kMaxHeight ≤ fuel) :
    ∃ l order, keys.foldlM (fun l k => l.insert cmp fuel k) new = .ok l ∧ Linked cmp l order l.levels ∧
      l.shape = (none, kMaxHeight) :: (keys.map some).zip (heights keys.length (.new 0xdeadbeef)) ∧
      (order.map Prod.fst).Perm keys ∧ ∀ k, l.contains cmp fuel k = .ok (keys.any fun k' => cmp k k' = .eq) := by
  obtain ⟨l, order, hfold, h, hperm, hshape⟩ := foldlM_insert (@linked_new K cmp) hkeys (by simp) (by simpa using hfuel)
  rw [map_nil, nil_append] at hperm
  have hlen : order.length = keys.length := by simpa using hperm.length_eq
  refine ⟨l, order, hfold, h, hshape, hperm, fun k => ?_⟩
  rw [h.contains_eq (by omega), ← hperm.any_eq, any_map]
  rfl

theorem insert_all_nine : ∃ l order,
    [30, 10, 20, 80, 50, 70, 60, 40, 90].foldlM (fun l k => l.insert compare 21 k) new = .ok l ∧
    Linked compare l order l.levels ∧
    l.shape = [(none, 12), (some 30, 2), (some 10, 1), (some 20, 1), (some 80, 1), (some 50, 1), (some 70, 1),
      (some 60, 1), (some 40, 1), (some 90, 2)] ∧
    (order.map Prod.fst).Perm [30, 10, 20, 80, 50, 70, 60, 40, 90] ∧ l.contains compare 21 50 = .ok true ∧
    l.contains compare 21 55 = .ok false := by
  obtain ⟨l, order, hfold, hlinked, hshape, hperm, hcontains⟩ :=
    @insert_all Nat compare 21 _ [30, 10, 20, 80, 50, 70, 60, 40, 90] (by decide) (by decide)
  exact ⟨l, order, hfold, hlinked, hshape, hperm, hcontains 50, hcontains 55⟩

/-! ## Searches among insertions -/

/-- A list, the insertion at work in it, and a search: where it is, or what it returned. -/
structure Shared (K : Type) where
  list : SkipList K
  insert : Option Pending
  read : Search ⊕ Iterator

namespace Shared

/-- What can happen next: an insertion begins, the insertion at work does its next store, the search does its next pass. -/
inductive Event (K : Type)
  | insert (key : K)
  | store
  | read

def passes (s : Shared K) : Nat := s.list.nodes.length + kMaxHeight

def empty : Shared K := ⟨new, none, .inr none⟩

def seek (s : Shared K) : Shared K := { s with read := .inl (s.list.start none) }

def step (cmp : K → K → Ordering) (target : K) (s : Shared K) : Event K → Res (Shared K)
  | .insert key => do
    let (list, w) ← s.list.prepare cmp s.passes key
    return { s with list := list, insert := some w }
  | .store =>
    match s.insert with
    | none => return s
    | some w => do
      match ← linkStep (s.list, w) with
      | .inl (list, w) => return { s with list := list, insert := some w }
      | .inr list => return { s with list := list, insert := none }
  | .read =>
    match s.read with
    | .inr _ => return s
    | .inl search => do
      match ← searchStep s.list (s.list.keyIsAfterNode cmp target) search with
      | .inl search => return { s with read := .inl search }
      | .inr (node, _) => return { s with read := .inr node }

/-- What callers of `Insert` see to: one insertion at a time, and no key twice. -/
def Allowed (cmp : K → K → Ordering) (s : Shared K) : Event K → Prop
  | .insert key => s.insert = none ∧ ∀ n k, s.list.key n = .ok k → cmp key k ≠ .eq
  | .store => True
  | .read => True

end Shared

variable {target : K} {s : Shared K}

/-- The list of `s` is linked as `order` says, also while an insertion is at work. -/
structure Shared.Ok (cmp : K → K → Ordering) (s : Shared K) (order : List (K × Nat)) (lvl : Nat → Nat) : Prop where
  linked : Linked cmp s.list order lvl
  linking : ∀ w, s.insert = some w → ∃ key P S, order = P ++ linkedPart key w.node w.level ++ S ∧
    Linking cmp key P S s.list w lvl

def Below (cmp : K → K → Ordering) (target : K) (order : List (K × Nat)) (lvl : Nat → Nat) (search : Search) : Prop :=
  (search.x = head ∨ ∃ e ∈ order, e.2 = search.x ∧ cmp e.1 target = .lt) ∧ search.level < lvl search.x

theorem Below.grows {order' : List (K × Nat)} {lvl' : Nat → Nat} {search : Search} (h : Below cmp target order lvl search)
    (hgrows : Grows order lvl order' lvl') : Below cmp target order' lvl' search :=
  ⟨h.1.imp_right fun ⟨e, he, h⟩ => ⟨e, hgrows.sublist.subset he, h⟩, Nat.lt_of_lt_of_le h.2 (hgrows.level _)⟩

theorem Below.step [TransCmp cmp] {search : Search} (h : Linked cmp l order lvl) (hs : Below cmp target order lvl search) :
    (∃ search', searchStep l (l.keyIsAfterNode cmp target) search = .ok (.inl search') ∧ Below cmp target order lvl search') ∨
      ∃ search', searchStep l (l.keyIsAfterNode cmp target) search =
        .ok (.inr (nodeAt order (lowerBound cmp target order), search')) := by
  obtain ⟨A, B, hcut, hx, hA⟩ : ∃ A B, order = A ++ B ∧ search.x = lastNode A ∧ ∀ e ∈ A, cmp e.1 target = .lt := by
    rcases hs.1 with hx | ⟨e, he, hx, hlt⟩
    · exact ⟨[], order, rfl, hx, by simp⟩
    · obtain ⟨A, B, rfl⟩ := append_of_mem he
      refine ⟨A ++ [e], B, by simp, by rw [lastNode_concat, hx], fun a ha => ?_⟩
      rcases mem_append.1 ha with ha | ha
      · exact TransCmp.lt_trans ((pairwise_append.1 h.sorted).2.2 a ha e mem_cons_self) hlt
      · rw [mem_singleton.1 ha, hlt]
  -- what the pass does depends on the first node of this level behind the cut
  have hpasses : ∀ e ∈ B, l.keyIsAfterNode cmp target e.2 = .ok (decide (cmp e.1 target = .lt)) :=
    fun e he => keyIsAfterNode_eq h (by rw [hcut]; exact mem_append_right _ he) target
  by_cases hpass : ∃ B₁ e B₂, B = B₁ ++ e :: B₂ ∧ (∀ b ∈ B₁, lvl b.2 ≤ search.level) ∧ search.level < lvl e.2 ∧
    cmp e.1 target = .lt
  · obtain ⟨B₁, e, B₂, rfl, hB₁, he, hlt⟩ := hpass
    refine .inl ⟨_, searchStep_pass h hcut hx hs.2 hB₁ he ?_, .inr ⟨e, by simp [hcut], rfl, hlt⟩, he⟩
    rw [hpasses e (by simp), decide_eq_true hlt]
  · have hB : ∀ b ∈ B, search.level < lvl b.2 → cmp b.1 target ≠ .lt := by
      intro b hb hlevel hlt
      have hne : atLevel lvl search.level B ≠ [] := ne_nil_of_mem (mem_filter.2 ⟨hb, decide_eq_true hlevel⟩)
      obtain ⟨B₁, e, B₂, rfl, hB₁, he⟩ := exists_of_atLevel_ne_nil hne
      refine hpass ⟨B₁, e, B₂, rfl, hB₁, he, ?_⟩
      rcases mem_append.1 hb with hb | hb
      · exact absurd hlevel (Nat.not_lt.2 (hB₁ b hb))
      · rcases mem_cons.1 hb with rfl | hb
        · exact hlt
        · have hsorted := (pairwise_append.1 (pairwise_append.1 (hcut ▸ h.sorted)).2.1).2.1
          exact TransCmp.lt_trans ((pairwise_cons.1 hsorted).1 b hb) hlt
    have hdown : searchStep l (l.keyIsAfterNode cmp target) search =
        .ok (search.down (firstNode (atLevel lvl search.level B))) :=
      searchStep_down h hcut hx hs.2 fun b hb hlevel => by rw [hpasses b hb, decide_eq_false (hB b hb hlevel)]
    rw [hdown, Search.down]
    by_cases hzero : search.level = 0
    · have hmem : ∀ b ∈ B, b ∈ order := fun b hb => by rw [hcut]; exact mem_append_right _ hb
      have hbound : lowerBound cmp target order = A.length := by
        rw [hcut]
        exact lowerBound_append hA fun b hb => hB b hb (hzero ▸ (h.height b (hmem b hb)).1)
      exact .inr ⟨_, by rw [if_pos hzero, hzero, h.atLevel_zero hmem, hbound, nodeAt_eq_firstNode hcut]⟩
    · exact .inl ⟨⟨search.x, search.level - 1, search.prev.map fun prev => prev.set search.level (some search.x)⟩,
        by rw [if_neg hzero], hs.1, Nat.lt_of_le_of_lt (Nat.sub_le ..) hs.2⟩

namespace Shared

/-- A search that began in the state `s₀`, with the list `order₀`, found what is right in the list as it was after `moment`,
some of the events since then. -/
def ReturnedSince (cmp : K → K → Ordering) (target : K) (s₀ : Shared K) (order₀ : List (K × Nat)) (done : List (Event K))
    (node : Iterator) : Prop :=
  ∃ moment s mid lvl, moment <+: done ∧ Run.exec (step cmp target) s₀ moment = .ok s ∧ Linked cmp s.list mid lvl ∧
    order₀.Sublist mid ∧ node = nodeAt mid (lowerBound cmp target mid)

def Reading (cmp : K → K → Ordering) (target : K) (s₀ : Shared K) (order₀ : List (K × Nat)) (done : List (Event K))
    (order : List (K × Nat)) (lvl : Nat → Nat) : Search ⊕ Iterator → Prop
  | .inl search => Below cmp target order lvl search
  | .inr node => ReturnedSince cmp target s₀ order₀ done node

variable {s₀ : Shared K} {order₀ : List (K × Nat)} {done : List (Event K)}

theorem Reading.grows {order' : List (K × Nat)} {lvl' : Nat → Nat} {read : Search ⊕ Iterator} {ev : Event K}
    (h : Reading cmp target s₀ order₀ done order lvl read) (hgrows : Grows order lvl order' lvl') :
    Reading cmp target s₀ order₀ (done ++ [ev]) order' lvl' read := by
  cases read with
  | inl search => exact Below.grows h hgrows
  | inr node =>
    obtain ⟨moment, s, mid, lvl, hmoment, h⟩ := h
    exact ⟨moment, s, mid, lvl, hmoment.trans (prefix_append ..), h⟩

theorem grows_refl : Grows order lvl order lvl := ⟨List.Sublist.refl _, fun _ => Nat.le_refl _⟩

theorem Ok.insert_eq [TransCmp cmp] (h : s.Ok cmp order lvl) (target : K) {key : K}
    (hnew : ∀ n k, s.list.key n = .ok k → cmp key k ≠ .eq) :
    ∃ s', s.step cmp target (.insert key) = .ok s' ∧ s'.read = s.read ∧ s'.Ok cmp order lvl := by
  obtain ⟨P, S, rfl, hP, hS⟩ := h.linked.exists_cut_of_new fun e he => hnew e.2 e.1 (h.linked.key e he)
  obtain ⟨l', w, hprepare, hlinking, hlevel, -⟩ :=
    prepare_eq h.linked hP hS (Nat.add_le_add_right h.linked.length_le kMaxHeight)
  refine ⟨{ s with list := l', insert := some w }, by simp only [step, passes, hprepare, ok_bind]; rfl, rfl, ?_⟩
  have horder : P ++ linkedPart key w.node w.level ++ S = P ++ S := by rw [hlevel, linkedPart, if_pos rfl, append_nil]
  refine ⟨horder ▸ hlinking.linked, ?_⟩
  rintro _ ⟨⟩
  exact ⟨key, P, S, horder.symm, hlinking⟩

theorem Ok.store_eq [TransCmp cmp] (h : s.Ok cmp order lvl) (target : K) :
    ∃ s' order' lvl', s.step cmp target .store = .ok s' ∧ s'.read = s.read ∧ s'.Ok cmp order' lvl' ∧
      Grows order lvl order' lvl' := by
  cases hw : s.insert with
  | none => exact ⟨s, order, lvl, by simp [step, hw], rfl, h, grows_refl⟩
  | some w =>
    obtain ⟨key, P, S, rfl, hlinking⟩ := h.linking w hw
    by_cases hlt : w.level < w.height
    · obtain ⟨l', w', lvl', hstep, h', -, -, hgrows⟩ := hlinking.step hlt
      refine ⟨{ s with list := l', insert := some w' }, _, lvl', by simp [step, hw, hstep], rfl, ⟨h'.linked, ?_⟩, hgrows⟩
      rintro _ ⟨⟩
      exact ⟨key, P, S, rfl, h'⟩
    · obtain ⟨hstep, -, -⟩ := hlinking.done hlt
      exact ⟨{ s with insert := none }, _, lvl, by simp [step, hw, hstep], rfl, ⟨h.linked, by simp⟩, grows_refl⟩

theorem Ok.read_eq [TransCmp cmp] (h : s.Ok cmp order lvl) (hs : Run.exec (step cmp target) s₀ done = .ok s)
    (h₀ : order₀.Sublist order) (hread : Reading cmp target s₀ order₀ done order lvl s.read) :
    ∃ s', s.step cmp target .read = .ok s' ∧ s'.Ok cmp order lvl ∧
      Reading cmp target s₀ order₀ (done ++ [.read]) order lvl s'.read := by
  cases hr : s.read with
  | inr node => exact ⟨s, by simp [step, hr], h, hread.grows grows_refl⟩
  | inl search =>
    rw [hr] at hread
    rcases Below.step h.linked hread with ⟨search', hstep, hbelow⟩ | ⟨search', hstep⟩
    · exact ⟨{ s with read := .inl search' }, by simp [step, hr, hstep], ⟨h.linked, h.linking⟩, hbelow⟩
    · -- the last pass: what it loads is right in the list as it is now
      exact ⟨{ s with read := .inr _ }, by simp [step, hr, hstep], ⟨h.linked, h.linking⟩, done, s, order, lvl,
        prefix_append .., hs, h.linked, h₀, rfl⟩

/-- After the events `done` the list is linked, and nothing of `order₀` has gone; the search is right. -/
def Sound (cmp : K → K → Ordering) (target : K) (s₀ : Shared K) (order₀ : List (K × Nat)) (done : List (Event K))
    (s : Shared K) : Prop :=
  ∃ order lvl, s.Ok cmp order lvl ∧ order₀.Sublist order ∧ Reading cmp target s₀ order₀ done order lvl s.read

theorem Sound.step [TransCmp cmp] (h : Sound cmp target s₀ order₀ done s)
    (hs : Run.exec (Shared.step cmp target) s₀ done = .ok s) {ev : Event K} (hev : s.Allowed cmp ev) :
    ∃ s', s.step cmp target ev = .ok s' ∧ Sound cmp target s₀ order₀ (done ++ [ev]) s' := by
  obtain ⟨order, lvl, hok, h₀, hread⟩ := h
  cases ev with
  | insert key =>
    obtain ⟨s', hs', hr, hok'⟩ := hok.insert_eq target hev.2
    exact ⟨s', hs', order, lvl, hok', h₀, hr ▸ hread.grows grows_refl⟩
  | store =>
    obtain ⟨s', order', lvl', hs', hr, hok', hgrows⟩ := hok.store_eq target
    exact ⟨s', hs', order', lvl', hok', h₀.trans hgrows.sublist, hr ▸ hread.grows hgrows⟩
  | read =>
    obtain ⟨s', hs', hok', hread'⟩ := hok.read_eq hs h₀ hread
    exact ⟨s', hs', order, lvl, hok', h₀, hread'⟩

theorem sound_empty (target : K) : Sound cmp target empty [] [] (empty : Shared K) :=
  ⟨[], _, ⟨linked_new, by simp [empty]⟩, List.Sublist.refl _, [], empty, [], _, prefix_refl _, rfl, linked_new,
    List.Sublist.refl _, rfl⟩

/-- A search that is begun at any time, and insertions at work before and during it, in whatever order their stores and its
passes come: nothing goes wrong, and if the search returns, then what it returns is the first node that is not before the
target in the list as it was at a moment since the search began. So no node that was there when the search began is
missed. -/
theorem search_among_insertions [TransCmp cmp] {past events : List (Event K)}
    (hpast : Run.Guarded (step cmp target) (Allowed cmp) empty past) (hs : Run.exec (step cmp target) empty past = .ok s)
    (hevents : Run.Guarded (step cmp target) (Allowed cmp) s.seek events) :
    ∃ order lvl, Linked cmp s.list order lvl ∧ ∀ done, done <+: events → ∃ s' order' lvl',
      Run.exec (step cmp target) s.seek done = .ok s' ∧ Linked cmp s'.list order' lvl' ∧ order.Sublist order' ∧
      ∀ node, s'.read = .inr node → ReturnedSince cmp target s.seek order done node := by
  have hempty : Sound cmp target empty [] [] (empty : Shared K) := sound_empty target
  obtain ⟨s', hs', order, lvl, hok, -, -⟩ := Run.exec_of_guarded hempty hpast (fun _ _ _ hs h hev => h.step hs hev)
    (prefix_refl past)
  obtain rfl := Except.ok.inj (hs.symm.trans hs')
  refine ⟨order, lvl, hok.linked, fun done hdone => ?_⟩
  have hstart : Sound cmp target s.seek order [] s.seek := by
    refine ⟨order, lvl, ⟨hok.linked, hok.linking⟩, List.Sublist.refl _, .inl rfl, ?_⟩
    have := hok.linked.maxHeight
    change s.list.maxHeight - 1 < lvl head
    rw [hok.linked.height_head]
    omega
  obtain ⟨s', hs', order', lvl', hok', h₀, hread⟩ := Run.exec_of_guarded hstart hevents
    (fun _ _ _ hs h hev => h.step hs hev) hdone
  refine ⟨s', order', lvl', hs', hok'.linked, h₀, fun node hnode => ?_⟩
  rw [hnode] at hread
  exact hread

/-- A search for 3 begins when 5 is in the list, and finds 4, which is linked between its two passes. -/
theorem search_among_insertions_four : ∃ s s' order,
    Run.exec (step compare 3) empty [.insert 5, .store, .store, .store, .store, .store] = .ok s ∧
    Run.exec (step compare 3) s.seek [.insert 4, .read, .store, .store, .read] = .ok s' ∧
    s'.read = .inr (some 2) ∧ s'.list.key 2 = .ok 4 ∧
    ReturnedSince compare 3 s.seek order [.insert 4, .read, .store, .store, .read] (some 2) := by
  obtain ⟨s, hs⟩ : ∃ s, Run.exec (step compare 3) empty [.insert 5, .store, .store, .store, .store, .store] = .ok s := ⟨_, rfl⟩
  have hpast : Run.Guarded (step compare 3) (Allowed compare) empty [.insert 5, .store, .store, .store, .store, .store] := by
    refine .cons ⟨rfl, fun n k hk => ?_⟩ rfl (.cons trivial rfl (.cons trivial rfl (.cons trivial rfl (.cons trivial rfl
      (.cons trivial rfl trivial)))))
    rcases n with _ | n <;> cases hk
  have hevents : Run.Guarded (step compare 3) (Allowed compare) s.seek [.insert 4, .read, .store, .store, .read] := by
    obtain rfl := Except.ok.inj (show Except.ok _ = Except.ok s from hs)
    refine .cons ⟨rfl, fun n k hk => ?_⟩ rfl (.cons trivial rfl (.cons trivial rfl (.cons trivial rfl (.cons trivial rfl
      trivial))))
    rcases n with _ | _ | n
    · cases hk
    · obtain rfl := Except.ok.inj (show Except.ok _ = Except.ok k from hk)
      decide
    · cases hk
  have hread : ∃ s', Run.exec (step compare 3) s.seek [.insert 4, .read, .store, .store, .read] = .ok s' ∧
      s'.read = .inr (some 2) ∧ s'.list.key 2 = .ok 4 := by
    obtain rfl := Except.ok.inj (show Except.ok _ = Except.ok s from hs)
    exact ⟨_, rfl, rfl, rfl⟩
  obtain ⟨s', hs', hnode, hkey⟩ := hread
  obtain ⟨order, lvl, hlinked, hsearch⟩ := search_among_insertions hpast hs hevents
  obtain ⟨s'', order', lvl', hs'', -, -, hreturned⟩ := hsearch _ (prefix_refl _)
  obtain rfl := Except.ok.inj (hs'.symm.trans hs'')
  exact ⟨s, s', order, hs, hs', hnode, hkey, hreturned _ hnode⟩

end Shared

end Dbms18.LevelDb.SkipList
