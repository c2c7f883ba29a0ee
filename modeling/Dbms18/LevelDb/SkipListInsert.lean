import Dbms18.LevelDb.SkipListLinks

/-!
# Insertion into a skip list

`Linking` is the state of an insertion between two of its stores: the new node is linked on the levels below the one
`Insert` is at. Each store leads from such a state to the next, with the list `Linked` all the while; in the end the
new key stands in its place and all others are where they were.
-/

namespace Dbms18.LevelDb.SkipList

open Res List Std Iter

variable {K : Type} {cmp : K → K → Ordering} {l l' : SkipList K} {order A B P R S : List (K × Nat)} {lvl : Nat → Nat}
  {e : K × Nat} {i n : Nat}

/-! ## Stores -/

def HasLink (l : SkipList K) (n i : Nat) : Prop := ∃ node, l.nodes[n]? = some node ∧ i < node.2.length

theorem hasLink_of_next {x : Option Nat} (h : l.next n i = .ok x) : HasLink l n i := by
  obtain ⟨node, hnode, h⟩ := bind_eq_ok.1 h
  obtain ⟨link, hlink, -⟩ := bind_eq_ok.1 h
  exact ⟨node, getD_eq_ok.1 hnode, (List.getElem?_eq_some_iff.1 (getD_eq_ok.1 hlink)).1⟩

/-- `l'` is `l` with `x` stored in one link. -/
structure Stored (l l' : SkipList K) (n i : Nat) (x : Option Nat) : Prop where
  key : ∀ m, l'.key m = l.key m
  next : ∀ m j, m ≠ n ∨ j ≠ i → l'.next m j = l.next m j
  stored : l'.next n i = .ok x
  hasLink : ∀ m j, HasLink l m j → HasLink l' m j
  shape : l'.shape = l.shape
  maxHeight : l'.maxHeight = l.maxHeight
  rnd : l'.rnd = l.rnd

theorem Stored.length {x : Option Nat} (h : Stored l l' n i x) : l'.nodes.length = l.nodes.length := by
  rw [← length_shape, h.shape, length_shape]

theorem setNext_eq (h : HasLink l n i) (x : Option Nat) : ∃ l', l.setNext n i x = .ok l' ∧ Stored l l' n i x := by
  obtain ⟨node, hnode, hi⟩ := h
  have hn := (List.getElem?_eq_some_iff.1 hnode).1
  refine ⟨{ l with nodes := l.nodes.set n (node.1, node.2.set i (some x)) }, ?_, ?_⟩
  · rw [setNext, hnode, getD_some, ok_bind, check_of hi]
    rfl
  · have hself : (l.nodes.set n (node.1, node.2.set i (some x)))[n]? = some (node.1, node.2.set i (some x)) :=
      getElem?_set_self hn
    refine ⟨fun m => ?_, fun m j hne => ?_, ?_, fun m j ⟨node', hnode', hj⟩ => ?_, ?_, rfl, rfl⟩
    · by_cases hm : m = n
      · subst hm
        simp only [SkipList.key, hself, hnode, getD_some, ok_bind]
      · simp only [SkipList.key, getElem?_set_ne (Ne.symm hm)]
    · by_cases hm : m = n
      · subst hm
        have hj := hne.resolve_left (fun h => h rfl)
        simp only [SkipList.next, hself, hnode, getD_some, ok_bind, getElem?_set_ne (Ne.symm hj)]
      · simp only [SkipList.next, getElem?_set_ne (Ne.symm hm)]
    · simp only [SkipList.next, hself, getD_some, ok_bind, getElem?_set_self hi]
    · by_cases hm : m = n
      · subst hm
        obtain rfl := Option.some.inj (hnode.symm.trans hnode')
        exact ⟨_, hself, by rwa [length_set]⟩
      · exact ⟨node', by rw [← hnode']; exact getElem?_set_ne (Ne.symm hm), hj⟩
    · have hget : l.shape[n]? = some (node.1, node.2.length) := by rw [shape, getElem?_map, hnode]; rfl
      obtain ⟨hlt, heq⟩ := List.getElem?_eq_some_iff.1 hget
      rw [shape, map_set, length_set, ← heq]
      exact set_getElem_self hlt

theorem Linked.of_stored (h : Linked cmp l order lvl) {x : Option Nat} (hs : Stored l l' n i x)
    (hn : ∀ A B, order = A ++ B → lastNode A = n → lvl n ≤ i) : Linked cmp l' order lvl where
  sorted := h.sorted
  key e he := by rw [hs.key, h.key e he]
  ne_head := h.ne_head
  next {A B j} hcut hj := by
    rw [hs.next, h.next hcut hj]
    by_cases heq : lastNode A = n
    · have := hn A B hcut heq
      rw [heq] at hj
      right
      omega
    · exact .inl heq
  alloc := by rw [hs.length]; exact h.alloc
  height := by rw [hs.maxHeight]; exact h.height
  height_head := h.height_head
  maxHeight := by rw [hs.maxHeight]; exact h.maxHeight

/-! ## Publishing a level of the new node -/

/-- The new node as it stands in the order when it is linked on `level` levels. -/
def linkedPart (key : K) (node level : Nat) : List (K × Nat) := if level = 0 then [] else [(key, node)]

section Publish

variable {key : K} {node : Nat}

theorem lvl_update_of_ne (hne : e.2 ≠ node) : Function.update lvl node (i + 1) e.2 = lvl e.2 := Function.update_of_ne hne ..

theorem atLevel_update (hA : ∀ e ∈ A, e.2 ≠ node) (j : Nat) :
    atLevel (Function.update lvl node (i + 1)) j A = atLevel lvl j A :=
  atLevel_congr fun e he => by rw [lvl_update_of_ne (hA e he)]

theorem atLevel_linkedPart (hnode : lvl node = i) {j : Nat} (hj : j ≠ i) :
    atLevel (Function.update lvl node (i + 1)) j [(key, node)] = atLevel lvl j (linkedPart key node i) := by
  by_cases hi : i = 0
  · have hlt : ¬ j < 1 := by omega
    simp [linkedPart, hi, atLevel, hlt]
  · have hiff : j < i + 1 ↔ j < i := by omega
    rw [linkedPart, if_neg hi]
    refine atLevel_congr fun e he => ?_
    rw [mem_singleton.1 he, Function.update_self, hnode, hiff]

theorem Linked.lastNode_eq_iff [TransCmp cmp] (h : Linked cmp l order lvl) (hcut : order = A ++ B) (hB : B = R ++ S)
    (hlevel : i < lvl (lastNode A)) : lastNode (atLevel lvl i (A ++ R)) = lastNode A ↔ atLevel lvl i R = [] := by
  constructor
  · intro heq
    by_contra hne
    rw [atLevel_append, lastNode_append_of_ne_nil hne] at heq
    obtain ⟨e, he, hlast⟩ := exists_mem_lastNode hne
    have hmem : e ∈ B := by rw [hB]; exact mem_append_left _ (mem_filter.1 he).1
    exact h.ne_lastNode hcut hmem (hlast.trans heq)
  · intro hnil
    rw [atLevel_append, hnil, append_nil, lastNode_atLevel hlevel]

theorem firstNode_append_of_ne_nil (hA : A ≠ []) : firstNode (A ++ B) = firstNode A := by
  cases A with
  | nil => exact absurd rfl hA
  | cons e A => rfl

/-- The store `SetNext` that leads to the new node on level `i`, when all it needs is in place. -/
structure Publishes (cmp : K → K → Ordering) (l l' : SkipList K) (P S : List (K × Nat)) (lvl : Nat → Nat) (key : K)
    (node i : Nat) : Prop where
  linked : Linked cmp l (P ++ linkedPart key node i ++ S) lvl
  fresh : ∀ e ∈ P ++ S, e.2 ≠ node
  ne_head : node ≠ head
  key_node : l.key node = .ok key
  level : lvl node = i
  lt_maxHeight : i < l.maxHeight
  below : ∀ e ∈ P, cmp e.1 key = .lt
  above : ∀ e ∈ S, cmp key e.1 = .lt
  written : l.next node i = .ok (firstNode (atLevel lvl i S))
  stored : Stored l l' (lastNode (atLevel lvl i P)) i (some node)

namespace Publishes

variable (h : Publishes cmp l l' P S lvl key node i)

include h

theorem fresh_left : ∀ e ∈ P, e.2 ≠ node := fun e he => h.fresh e (mem_append_left _ he)

theorem fresh_right : ∀ e ∈ S, e.2 ≠ node := fun e he => h.fresh e (mem_append_right _ he)

theorem lastNode_ne (hA : ∀ e ∈ A, e ∈ P ++ S) : lastNode A ≠ node := by
  by_cases hnil : A = []
  · rw [hnil]
    exact Ne.symm h.ne_head
  · obtain ⟨e, he, heq⟩ := exists_mem_lastNode hnil
    exact heq ▸ h.fresh e (hA e he)

theorem lastNode_atLevel_ne : lastNode (atLevel lvl i P) ≠ node :=
  h.lastNode_ne fun _ he => mem_append_left _ (mem_filter.1 he).1

theorem next_before [TransCmp cmp] {j : Nat} (hP : P = A ++ R) (hj : j < lvl (lastNode A)) :
    l'.next (lastNode A) j = .ok (firstNode (atLevel (Function.update lvl node (i + 1)) j (R ++ (key, node) :: S))) := by
  have hcut : P ++ linkedPart key node i ++ S = A ++ (R ++ (linkedPart key node i ++ S)) := by simp [hP]
  have hR : ∀ e ∈ R, e.2 ≠ node := fun e he => h.fresh_left e (by rw [hP]; exact mem_append_right _ he)
  rw [atLevel_append, atLevel_update hR]
  by_cases hji : j = i
  · subst hji
    by_cases hnil : atLevel lvl j R = []
    -- the cut ends with the node the link of which was stored
    · have hlast := (h.linked.lastNode_eq_iff hcut rfl hj).2 hnil
      rw [← hP] at hlast
      rw [← hlast, h.stored.stored, hnil]
      simp [atLevel]
    · have hlast := mt (h.linked.lastNode_eq_iff hcut rfl hj).1 hnil
      rw [← hP] at hlast
      rw [h.stored.next _ _ (.inl (Ne.symm hlast)), h.linked.next hcut hj, atLevel_append, firstNode_append_of_ne_nil hnil,
        firstNode_append_of_ne_nil hnil]
  · rw [h.stored.next _ _ (.inr hji), h.linked.next hcut hj, ← singleton_append, atLevel_append, atLevel_append,
      atLevel_append, atLevel_linkedPart h.level hji, atLevel_update h.fresh_right]

theorem next_node {j : Nat} (hj : j < i + 1) :
    l'.next node j = .ok (firstNode (atLevel (Function.update lvl node (i + 1)) j S)) := by
  rw [atLevel_update h.fresh_right, h.stored.next _ _ (.inl (Ne.symm h.lastNode_atLevel_ne))]
  by_cases hji : j = i
  · rw [hji, h.written]
  · have hi : i ≠ 0 := by omega
    have hlast : lastNode (P ++ linkedPart key node i) = node := by simp [linkedPart, hi]
    have hnext := h.linked.next (A := P ++ linkedPart key node i) (B := S) (i := j) rfl (by rw [hlast, h.level]; omega)
    rwa [hlast] at hnext

theorem next_behind [TransCmp cmp] {j : Nat} (hS : S = A ++ B) (hA : A ≠ []) (hj : j < lvl (lastNode A)) :
    l'.next (lastNode A) j = .ok (firstNode (atLevel (Function.update lvl node (i + 1)) j B)) := by
  have hcut : P ++ linkedPart key node i ++ S = (P ++ linkedPart key node i ++ A) ++ B := by simp [hS]
  have hlast : lastNode (P ++ linkedPart key node i ++ A) = lastNode A := lastNode_append_of_ne_nil hA
  have hB : ∀ e ∈ B, e.2 ≠ node := fun e he => h.fresh_right e (by rw [hS]; exact mem_append_right _ he)
  have hne : lastNode A ≠ lastNode (atLevel lvl i P) := by
    obtain ⟨a, ha, heq⟩ := exists_mem_lastNode hA
    rw [← heq]
    by_cases hnil : atLevel lvl i P = []
    · rw [hnil]
      exact h.linked.ne_head a (by rw [hS]; simp [ha])
    · obtain ⟨p, hp, heq'⟩ := exists_mem_lastNode hnil
      obtain ⟨P₁, P₂, hP⟩ := append_of_mem (mem_filter.1 hp).1
      rw [← heq']
      have hcut' : P ++ linkedPart key node i ++ S = (P₁ ++ [p]) ++ (P₂ ++ linkedPart key node i ++ S) := by simp [hP]
      have := h.linked.ne_lastNode hcut' (e := a) (by rw [hS]; simp [ha])
      rwa [lastNode_concat] at this
  rw [h.stored.next _ _ (.inl hne), atLevel_update hB, ← hlast, h.linked.next hcut (by rwa [hlast])]

theorem linked_after [TransCmp cmp] : Linked cmp l' (P ++ (key, node) :: S) (Function.update lvl node (i + 1)) := by
  have hPmem : ∀ e ∈ P, e ∈ P ++ linkedPart key node i ++ S := fun e he => by simp [he]
  have hSmem : ∀ e ∈ S, e ∈ P ++ linkedPart key node i ++ S := fun e he => by simp [he]
  have hmem : ∀ e ∈ P ++ (key, node) :: S, e ∈ P ∨ e = (key, node) ∨ e ∈ S := fun e he => by simpa using he
  refine ⟨?_, fun e he => ?_, fun e he => ?_, fun {A B j} hcut hj => ?_, fun n hn => ?_, fun e he => ?_, ?_, ?_⟩
  · have hPS : (P ++ S).Pairwise fun a b => cmp a.1 b.1 = .lt := by
      refine h.linked.sorted.sublist ?_
      rw [append_assoc]
      exact (List.Sublist.refl P).append (sublist_append_right ..)
    obtain ⟨hPsorted, hSsorted, hPS⟩ := pairwise_append.1 hPS
    refine pairwise_append.2 ⟨hPsorted, pairwise_cons.2 ⟨h.above, hSsorted⟩, fun a ha b hb => ?_⟩
    rcases mem_cons.1 hb with rfl | hb
    · exact h.below a ha
    · exact hPS a ha b hb
  · rw [h.stored.key]
    rcases hmem e he with he | rfl | he
    · exact h.linked.key e (hPmem e he)
    · exact h.key_node
    · exact h.linked.key e (hSmem e he)
  · rcases hmem e he with he | rfl | he
    · exact h.linked.ne_head e (hPmem e he)
    · exact h.ne_head
    · exact h.linked.ne_head e (hSmem e he)
  · rcases append_eq_append_iff.1 hcut with ⟨A', rfl, hA'⟩ | ⟨R, hP, rfl⟩
    · cases A' with
      | nil =>
        rw [append_nil] at hj ⊢
        rw [Function.update_of_ne (h.lastNode_ne fun _ he => mem_append_left _ he)] at hj
        rw [← show (key, node) :: S = B from hA']
        exact h.next_before (append_nil P).symm hj
      | cons e A' =>
        obtain ⟨rfl, hS⟩ := List.cons.inj hA'
        rw [lastNode_append_cons] at hj ⊢
        by_cases hnil : A' = []
        · subst hnil
          rw [lastNode_singleton, Function.update_self] at hj
          obtain rfl : S = B := hS
          exact h.next_node hj
        · have hlast : lastNode ((key, node) :: A') = lastNode A' := lastNode_append_of_ne_nil (A := [(key, node)]) hnil
          rw [hlast] at hj ⊢
          rw [Function.update_of_ne (h.lastNode_ne fun _ he => by rw [hS]; simp [he])] at hj
          exact h.next_behind hS hnil hj
    · rw [Function.update_of_ne (h.lastNode_ne fun _ he => by rw [hP]; simp [he])] at hj
      exact h.next_before hP hj
  · rw [h.stored.length]
    by_cases heq : n = node
    · rw [heq]
      obtain ⟨_, hget, -⟩ := bind_eq_ok.1 h.key_node
      exact (List.getElem?_eq_some_iff.1 (getD_eq_ok.1 hget)).1
    · rw [Function.update_of_ne heq] at hn
      exact h.linked.alloc n hn
  · rw [h.stored.maxHeight]
    rcases hmem e he with he | rfl | he
    · rw [lvl_update_of_ne (h.fresh_left e he)]
      exact h.linked.height e (hPmem e he)
    · rw [Function.update_self]
      have := h.lt_maxHeight
      omega
    · rw [lvl_update_of_ne (h.fresh_right e he)]
      exact h.linked.height e (hSmem e he)
  · rw [Function.update_of_ne (Ne.symm h.ne_head), h.linked.height_head]
  · rw [h.stored.maxHeight]
    exact h.linked.maxHeight

end Publishes

end Publish

/-! ## The loop -/

/-- `Insert` is about to do the next store for the key, with `P` before and `S` behind it. -/
structure Linking (cmp : K → K → Ordering) (key : K) (P S : List (K × Nat)) (l : SkipList K) (w : Pending) (lvl : Nat → Nat) :
    Prop where
  linked : Linked cmp l (P ++ linkedPart key w.node w.level ++ S) lvl
  fresh : ∀ e ∈ P ++ S, e.2 ≠ w.node
  ne_head : w.node ≠ head
  key_node : l.key w.node = .ok key
  hasLink : ∀ i < w.height, HasLink l w.node i
  level : lvl w.node = w.level
  level_le : w.level ≤ w.height
  height : 0 < w.height ∧ w.height ≤ l.maxHeight
  below : ∀ e ∈ P, cmp e.1 key = .lt
  above : ∀ e ∈ S, cmp key e.1 = .lt
  prev : ∀ i, i < w.height → w.prev[i]? = some (some (lastNode (atLevel lvl i P)))
  written : w.written = true → l.next w.node w.level = .ok (firstNode (atLevel lvl w.level S))

def Pending.left (w : Pending) : Nat := 2 * (w.height - w.level) - w.written.toNat

variable {key : K} {w : Pending}

section Linking

variable (h : Linking cmp key P S l w lvl)

include h

theorem Linking.lt_lastNode (hlt : w.level < w.height) :
    w.level < lvl (lastNode (atLevel lvl w.level P)) := by
  by_cases hnil : atLevel lvl w.level P = []
  · rw [hnil, lastNode_nil, h.linked.height_head]
    exact Nat.lt_of_lt_of_le hlt (h.height.2.trans h.linked.maxHeight.2)
  · obtain ⟨e, he, heq⟩ := exists_mem_lastNode hnil
    rw [← heq]
    simpa using (mem_filter.1 he).2

theorem Linking.next_prev [TransCmp cmp] (hlt : w.level < w.height) :
    l.next (lastNode (atLevel lvl w.level P)) w.level = .ok (firstNode (atLevel lvl w.level S)) := by
  have hpart : atLevel lvl w.level (linkedPart key w.node w.level) = [] := by
    refine atLevel_eq_nil_iff.2 fun e he => ?_
    unfold linkedPart at he
    split at he
    · cases he
    · rw [mem_singleton.1 he, h.level]
  obtain ⟨A, R, hP, hlast, hR⟩ := exists_cut_atLevel lvl w.level P
  have hcut : P ++ linkedPart key w.node w.level ++ S = A ++ (R ++ linkedPart key w.node w.level ++ S) := by simp [hP]
  rw [← hlast, h.linked.next hcut (by rw [hlast]; exact h.lt_lastNode hlt), atLevel_append, atLevel_append, hR, hpart]
  rfl

/-- A store of an insertion: it is still the same node that is linked, and only its levels change. -/
structure Keeps (l : SkipList K) (w : Pending) (lvl : Nat → Nat) (l' : SkipList K) (w' : Pending) (lvl' : Nat → Nat) :
    Prop where
  shape : l'.shape = l.shape
  rnd : l'.rnd = l.rnd
  node : w'.node = w.node
  height : w'.height = w.height
  level : ∀ n, n ≠ w.node → lvl' n = lvl n

/-- Nothing that was in the list, or linked on a level, has gone. -/
structure Grows (order : List (K × Nat)) (lvl : Nat → Nat) (order' : List (K × Nat)) (lvl' : Nat → Nat) : Prop where
  sublist : order.Sublist order'
  level : ∀ n, lvl n ≤ lvl' n

theorem Linking.write [TransCmp cmp] (hlt : w.level < w.height) (hw : w.written = false) :
    ∃ l', linkStep (l, w) = .ok (.inl (l', { w with written := true })) ∧
      Linking cmp key P S l' { w with written := true } lvl ∧
      Keeps l w lvl l' { w with written := true } lvl := by
  obtain ⟨l', hl', hs⟩ := setNext_eq (h.hasLink _ hlt) (firstNode (atLevel lvl w.level S))
  refine ⟨l', ?_, ⟨?_, h.fresh, h.ne_head, (hs.key _).trans h.key_node, fun i hi => hs.hasLink _ _ (h.hasLink i hi), h.level,
    h.level_le, by rw [hs.maxHeight]; exact h.height, h.below, h.above, h.prev, fun _ => hs.stored⟩, hs.shape, hs.rnd, rfl, rfl,
    fun _ _ => rfl⟩
  · simp only [linkStep, if_pos hlt, h.prev _ hlt, getD_some, ok_bind, hw, h.next_prev hlt, hl']
    rfl
  · exact h.linked.of_stored hs fun _ _ _ _ => Nat.le_of_eq h.level

theorem Linking.publish [TransCmp cmp] (hlt : w.level < w.height) (hw : w.written = true) :
    ∃ l', linkStep (l, w) = .ok (.inl (l', { w with level := w.level + 1, written := false })) ∧
      Linking cmp key P S l' { w with level := w.level + 1, written := false } (Function.update lvl w.node (w.level + 1)) ∧
      Keeps l w lvl l' { w with level := w.level + 1, written := false } (Function.update lvl w.node (w.level + 1)) := by
  have hP : ∀ e ∈ P, e.2 ≠ w.node := fun e he => h.fresh e (mem_append_left _ he)
  obtain ⟨l', hl', hs⟩ := setNext_eq (hasLink_of_next (h.next_prev hlt)) (some w.node)
  have hpub : Publishes cmp l l' P S lvl key w.node w.level := ⟨h.linked, h.fresh, h.ne_head, h.key_node, h.level,
    Nat.lt_of_lt_of_le hlt h.height.2, h.below, h.above, h.written hw, hs⟩
  refine ⟨l', ?_, ⟨?_, h.fresh, h.ne_head, (hs.key _).trans h.key_node, fun i hi => hs.hasLink _ _ (h.hasLink i hi),
    Function.update_self .., hlt, by rw [hs.maxHeight]; exact h.height, h.below, h.above, fun i hi => ?_, fun h => by cases h⟩,
    hs.shape, hs.rnd, rfl, rfl, fun n hn => Function.update_of_ne hn ..⟩
  · simp only [linkStep, if_pos hlt, h.prev _ hlt, getD_some, ok_bind, hw, hl']
    rfl
  · have := hpub.linked_after
    rwa [← singleton_append, ← append_assoc] at this
  · rw [atLevel_update hP]
    exact h.prev i hi

theorem Linking.step [TransCmp cmp] (hlt : w.level < w.height) :
    ∃ l' w' lvl', linkStep (l, w) = .ok (.inl (l', w')) ∧ Linking cmp key P S l' w' lvl' ∧ Keeps l w lvl l' w' lvl' ∧
      w'.left < w.left ∧ Grows (P ++ linkedPart key w.node w.level ++ S) lvl
        (P ++ linkedPart key w'.node w'.level ++ S) lvl' := by
  cases hw : w.written with
  | false =>
    obtain ⟨l', hstep, h', hkeeps⟩ := h.write hlt hw
    refine ⟨l', _, lvl, hstep, h', hkeeps, ?_, ⟨List.Sublist.refl _, fun _ => Nat.le_refl _⟩⟩
    simp only [Pending.left, hw, Bool.toNat_true, Bool.toNat_false]
    omega
  | true =>
    obtain ⟨l', hstep, h', hkeeps⟩ := h.publish hlt hw
    refine ⟨l', _, _, hstep, h', hkeeps, ?_, ⟨?_, fun n => ?_⟩⟩
    · simp only [Pending.left, hw, Bool.toNat_true, Bool.toNat_false]
      omega
    · refine ((List.Sublist.refl P).append ?_).append (List.Sublist.refl S)
      unfold linkedPart
      split
      · exact nil_sublist _
      · exact List.Sublist.refl _
    · by_cases hn : n = w.node
      · rw [hn, Function.update_self, h.level]
        exact Nat.le_succ _
      · rw [Function.update_of_ne hn]

theorem Linking.done (hlt : ¬ w.level < w.height) :
    linkStep (l, w) = .ok (.inr l) ∧ lvl w.node = w.height ∧ Linked cmp l (P ++ (key, w.node) :: S) lvl := by
  refine ⟨by simp only [linkStep, if_neg hlt]; rfl, h.level.trans (Nat.le_antisymm h.level_le (Nat.not_lt.1 hlt)), ?_⟩
  have hne : w.level ≠ 0 := by
    have := h.height.1
    have := h.level_le
    omega
  have := h.linked
  rwa [linkedPart, if_neg hne, append_assoc, singleton_append] at this

end Linking

/-! ## The whole insertion -/

theorem raise_le (left height : Nat) (rnd : Random) :
    height ≤ (raise left height rnd).1 ∧ (raise left height rnd).1 ≤ height + left := by
  induction left generalizing height rnd with
  | zero => exact ⟨Nat.le_refl _, Nat.le_refl _⟩
  | succ left ih =>
    rw [raise]
    split
    · have := ih (height + 1) rnd.next
      omega
    · exact ⟨Nat.le_refl _, Nat.le_add_right ..⟩

theorem randomHeight_le (rnd : Random) : 0 < (randomHeight rnd).1 ∧ (randomHeight rnd).1 ≤ kMaxHeight :=
  raise_le (kMaxHeight - 1) 1 rnd

structure Gains (l : SkipList K) (key : K) (l' : SkipList K) : Prop where
  shape : l'.shape = l.shape ++ [(some key, (randomHeight l.rnd).1)]
  rnd : l'.rnd = (randomHeight l.rnd).2

theorem Linked.newNode (h : Linked cmp l order lvl) (key : K) {height : Nat} (hheight : height ≤ kMaxHeight) (rnd : Random) :
    Linked cmp ({ l with maxHeight := max height l.maxHeight, rnd := rnd }.newNode key height).2 order lvl := by
  have hget : ∀ n, n < l.nodes.length → (l.nodes ++ [(some key, List.replicate height none)])[n]? = l.nodes[n]? :=
    fun n hn => getElem?_append_left hn
  refine ⟨h.sorted, fun e he => ?_, h.ne_head, fun {A _ i} hcut hi => ?_, fun n hn => ?_, fun e he => ?_, h.height_head, ?_⟩
  · rw [← h.key e he, SkipList.key, SkipList.key]
    simp only [SkipList.newNode, hget _ (h.alloc _ (h.height e he).1)]
  · rw [← h.next hcut hi, SkipList.next, SkipList.next]
    simp only [SkipList.newNode, hget _ (h.alloc (lastNode A) (by omega))]
  · simpa [SkipList.newNode] using Nat.lt_succ_of_lt (h.alloc n hn)
  · exact ⟨(h.height e he).1, (h.height e he).2.trans (Nat.le_max_right ..)⟩
  · exact ⟨Nat.lt_of_lt_of_le h.maxHeight.1 (Nat.le_max_right ..), Nat.max_le.2 ⟨hheight, h.maxHeight.2⟩⟩

section Insert

variable [TransCmp cmp]

omit [TransCmp cmp] in
theorem fillHead_eq (h : Linked cmp l (P ++ S) lvl) {prev : List (Option Nat)} {height : Nat} (hheight : height ≤ kMaxHeight)
    (hprev : Fills lvl P (fun i => i < l.maxHeight) (some prev)) (hi : i < height) :
    (if height > l.maxHeight then l.fillHead height prev else prev)[i]? = some (some (lastNode (atLevel lvl i P))) := by
  obtain ⟨hlen, hprev⟩ := hprev prev rfl
  by_cases hmax : i < l.maxHeight
  · split
    · rw [fillHead, getElem?_mapIdx, hprev i hmax]
      simp [Nat.not_le.2 hmax]
    · exact hprev i hmax
  · -- no node is linked on this level yet
    have hnil : atLevel lvl i P = [] := atLevel_eq_nil_iff.2 fun e he => by
      have := (h.height e (mem_append_left _ he)).2
      omega
    rw [if_pos (by omega), hnil, fillHead, getElem?_mapIdx, getElem?_eq_getElem (by omega)]
    simp [Nat.not_lt.1 hmax, hi]

theorem prepare_eq (h : Linked cmp l (P ++ S) lvl) (hP : ∀ e ∈ P, cmp e.1 key = .lt) (hS : ∀ e ∈ S, cmp key e.1 = .lt)
    {fuel : Nat} (hfuel : (P ++ S).length + kMaxHeight ≤ fuel) :
    ∃ l' w, l.prepare cmp fuel key = .ok (l', w) ∧ Linking cmp key P S l' w lvl ∧ w.level = 0 ∧ Gains l key l' ∧
      w.node = l.nodes.length ∧ w.height = (randomHeight l.rnd).1 := by
  have hS' : ∀ e ∈ S, cmp e.1 key ≠ .lt := fun e he => by rw [OrientedCmp.gt_of_lt (hS e he)]; decide
  obtain ⟨⟨x, s⟩, hfind, hfound⟩ := findGreaterOrEqual_eq h hP hS' (some (List.replicate kMaxHeight none))
    (by rintro _ ⟨⟩; exact length_replicate) hfuel
  obtain ⟨prev, hprev⟩ := Option.isSome_iff_exists.1 hfound.isSome
  have hassert : l.checkNew cmp key x = .ok () := by
    rw [show x = firstNode S from hfound.next]
    cases S with
    | nil => rfl
    | cons e S =>
      have hne : cmp key e.1 ≠ .eq := by rw [hS e mem_cons_self]; decide
      rw [firstNode_cons, checkNew, h.key e (by simp), ok_bind, check_of hne]
  obtain ⟨height, rnd, hrandom⟩ : ∃ height rnd, randomHeight l.rnd = (height, rnd) := ⟨_, _, rfl⟩
  have hheight := randomHeight_le l.rnd
  rw [hrandom] at hheight
  have hfresh : ∀ n, 0 < lvl n → n ≠ l.nodes.length := fun n hn => Nat.ne_of_lt (h.alloc n hn)
  have hself : (l.nodes ++ [(some key, List.replicate height none)])[l.nodes.length]? =
      some (some key, List.replicate height none) :=
    getElem?_concat_length
  refine ⟨({ l with maxHeight := max height l.maxHeight, rnd := rnd }.newNode key height).2,
    ⟨l.nodes.length, height, if height > l.maxHeight then l.fillHead height prev else prev, 0, false⟩, ?_, ?_, rfl,
      ⟨?_, ?_⟩, rfl, ?_⟩
  · simp only [prepare, hfind, ok_bind, hassert, hrandom]
    rw [show s.prev = some prev from hprev]
    rfl
  · refine ⟨?_, fun e he => hfresh _ (h.height e he).1, ?_, ?_, fun i hi => ?_, ?_, Nat.zero_le _,
      ⟨hheight.1, ?_⟩, hP, hS, fun i hi => ?_, fun h => by cases h⟩
    · exact (append_nil P).symm ▸ h.newNode key hheight.2 rnd
    · exact Ne.symm (hfresh head (by rw [h.height_head]; decide))
    · change (Res.getD (l.nodes ++ _)[l.nodes.length]? _ >>= _) = _
      rw [hself]
      rfl
    · exact ⟨_, hself, by simpa using hi⟩
    · by_contra hne
      exact hfresh _ (Nat.pos_of_ne_zero hne) rfl
    · exact Nat.le_max_left ..
    · exact fillHead_eq h hheight.2 (hprev ▸ hfound.fills) hi
  · rw [hrandom]
    simp [shape, newNode]
  · rw [hrandom]
    rfl
  · rw [hrandom]

omit [TransCmp cmp] in
theorem Gains.levels_eq (h : Gains l key l') (n : Nat) :
    l'.levels n = if n = l.nodes.length then (randomHeight l.rnd).1 else l.levels n := by
  rw [levels, h.shape, ← length_shape]
  rcases Nat.lt_trichotomy n l.shape.length with hlt | heq | hgt
  · rw [getElem?_append_left hlt, if_neg (Nat.ne_of_lt hlt), levels]
  · rw [heq, getElem?_concat_length, if_pos rfl]
    rfl
  · rw [getElem?_eq_none (by simpa using Nat.succ_le_of_lt hgt), if_neg (Nat.ne_of_gt hgt),
      levels_of_le (length_shape ▸ hgt.le)]
    rfl

/-- `Insert` puts a new key in its place, with a node that is linked on all the levels that were drawn for it. -/
theorem insert_eq (h : Linked cmp l (P ++ S) l.levels) (hP : ∀ e ∈ P, cmp e.1 key = .lt) (hS : ∀ e ∈ S, cmp key e.1 = .lt)
    {fuel : Nat} (hfuel : (P ++ S).length + kMaxHeight ≤ fuel) :
    ∃ l' n, l.insert cmp fuel key = .ok l' ∧ Linked cmp l' (P ++ (key, n) :: S) l'.levels ∧ Gains l key l' := by
  obtain ⟨l₀, w₀, hprepare, hlinking, -, hgains, hnode, hheight⟩ := prepare_eq h hP hS hfuel
  have hloop : ∃ l', Res.loop linkStep (2 * kMaxHeight + 1) (l₀, w₀) = .ok l' ∧ Gains l key l' ∧
      ∃ lvl, Linked cmp l' (P ++ (key, w₀.node) :: S) lvl ∧ lvl w₀.node = w₀.height ∧ ∀ n, n ≠ w₀.node →
        lvl n = l.levels n := by
    refine loop_total (I := fun k s => k = s.2.left ∧ Gains l key s.1 ∧ s.2.node = w₀.node ∧ s.2.height = w₀.height ∧
      ∃ lvl, Linking cmp key P S s.1 s.2 lvl ∧ ∀ n, n ≠ w₀.node → lvl n = l.levels n) ?_
      ⟨rfl, hgains, rfl, rfl, l.levels, hlinking, fun _ _ => rfl⟩ ?_
    · rintro _ ⟨l, w⟩ ⟨rfl, hgains, hnode, hheight, lvl, h, hlvl⟩
      dsimp only at hgains hnode hheight h
      by_cases hlt : w.level < w.height
      · obtain ⟨l', w', lvl', hstep, h', hkeeps, hleft, -⟩ := h.step hlt
        refine .inl ⟨w'.left, (l', w'), hstep, ⟨rfl, ⟨hkeeps.shape.trans hgains.shape, hkeeps.rnd.trans hgains.rnd⟩,
          hkeeps.node.trans hnode, hkeeps.height.trans hheight, lvl', h', fun n hn => ?_⟩, hleft⟩
        rw [hkeeps.level n (hnode ▸ hn), hlvl n hn]
      · obtain ⟨hstep, hlevel, h'⟩ := h.done hlt
        rw [hnode] at hlevel h'
        exact .inr ⟨l, hstep, hgains, lvl, h', hlevel.trans hheight, hlvl⟩
    · have := hlinking.height.2.trans hlinking.linked.maxHeight.2
      change w₀.left < _
      unfold Pending.left
      omega
  obtain ⟨l', hloop, hgains', lvl, hlinked, hself, hothers⟩ := hloop
  have hlevels : lvl = l'.levels := by
    funext n
    rw [hgains'.levels_eq, ← hnode]
    split
    · next hn => rw [hn, hself, hheight]
    · next hn => exact hothers n hn
  exact ⟨l', w₀.node, by rw [insert, hprepare, ok_bind, hloop], hlevels ▸ hlinked, hgains'⟩

end Insert

end Dbms18.LevelDb.SkipList
