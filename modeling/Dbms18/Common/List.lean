import Mathlib.Data.List.Dedup
import Dbms18.Lib.Chain

/-!
# `utils::List` (`include/common/list.hpp`)

A list of nodes that carry their own links. `ListNode<T>` derives from `T` and no operation touches that
part, so a node is here only its address, of any type `α`; what a list does happens in the heap of links.
From the empty list, the five operations do what they do to a sequence (`Reached.refines`). Of the
position queries of a node only `First` is right (`Reached.positionQueries_iff`): `IsFirst` and `IsLast`
are `false` for every node, and `Last` starts from a local variable that is never set.
-/

namespace Dbms18

open List

namespace ListNode

variable {α : Type} [DecidableEq α]

def isFirst (_this : α) : Bool := false

def isLast (_this : α) : Bool := false

def linkToRight (h : LinkHeap α) (this rightNode : α) : LinkHeap α :=
  (h.setNext this (some rightNode)).setPrev rightNode (some this)

def linkToLeft (h : LinkHeap α) (this leftNode : α) : LinkHeap α :=
  (h.setNext leftNode (some this)).setPrev this (some leftNode)

def first (fuel : Nat) (h : LinkHeap α) (this : α) : Res α := Res.loop (followStep fun p => (h p).prev) fuel this

/-- `uninit` is what the local variable `p` holds: a node, or a pointer that cannot be followed. -/
def last (fuel : Nat) (h : LinkHeap α) (_this : α) (uninit : Option α) : Res α := do
  let p ← Res.getD uninit .nullPointer
  Res.loop (followStep fun p => (h p).next) fuel p

def remove (h : LinkHeap α) (this : α) : LinkHeap α :=
  let h := h.setNext? (h this).prev (h this).next
  let h := h.setPrev? (h this).next (h this).prev
  Function.update h this Links.null

section

variable {h : LinkHeap α} {xs : List α} {node : α} (hnodup : xs.Nodup) (hchain : Chain h none xs none)
  (hnull : h node = Links.null) (hnot : node ∉ xs)
include hnodup hchain hnull hnot

theorem chain_linkToLeft {head : α} (hhead : xs.head? = some head) :
    Chain (linkToLeft h head node) none (node :: xs) none := by
  have hne : node ≠ head := by
    rintro rfl
    exact hnot (mem_of_head? hhead)
  have hkeep : Chain (h.setNext node (some head)) none xs none := hchain.congr fun x hx =>
    LinkHeap.setNext_of_ne (by rintro rfl; exact hnot hx)
  have hrest := hkeep.setFirst hnodup (some node)
  rw [hhead] at hrest
  refine ⟨?_, hrest⟩
  rw [linkToLeft, LinkHeap.setPrev_of_ne hne, LinkHeap.setNext_self, hnull, hhead]
  rfl

end

section

variable {h : LinkHeap α} {l r : List α} {y : α} (hnodup : (l ++ y :: r).Nodup) (hchain : Chain h none (l ++ y :: r) none)
include hnodup hchain

theorem chain_remove : Chain (remove h y) none (l ++ r) none := by
  obtain ⟨hl, hy, hr⟩ := chain_append.1 hchain
  rw [Option.or_none, Option.or_none] at hy
  obtain ⟨hnodupl, hnodupr, hdisjoint⟩ := nodup_append'.1 hnodup
  obtain ⟨hyr, hnodupr⟩ := nodup_cons.1 hnodupr
  have hyl : y ∉ l := fun hyl => hdisjoint hyl mem_cons_self
  have hlast : ∀ x, x ∉ l → l.getLast? ≠ some x := fun x hx heq => hx (mem_of_getLast? heq)
  have hhead : ∀ x, x ∉ r → r.head? ≠ some x := fun x hx heq => hx (mem_of_head? heq)
  have hremove : remove h y =
      Function.update ((h.setNext? l.getLast? r.head?).setPrev? r.head? l.getLast?) y Links.null := by
    simp only [remove, hy, LinkHeap.setNext?_of_ne (hlast y hyl)]
  have hl' := (hl.setLast hnodupl r.head?).congr fun x hx =>
    LinkHeap.setPrev?_of_ne (v := l.getLast?) (hhead x fun hxr => hdisjoint hx (mem_cons_of_mem _ hxr))
  have hr' := (hr.congr fun x hx => LinkHeap.setNext?_of_ne (v := r.head?)
    (hlast x fun hxl => hdisjoint hxl (mem_cons_of_mem _ hx))).setFirst hnodupr l.getLast?
  rw [hremove, chain_append, Option.or_none, Option.or_none]
  refine ⟨hl'.congr fun x hx => Function.update_of_ne ?_ .., hr'.congr fun x hx => Function.update_of_ne ?_ ..⟩
  · rintro rfl
    exact hyl hx
  · rintro rfl
    exact hyr hx

omit hnodup hchain in
theorem remove_self : remove h y y = Links.null := Function.update_self ..

end

end ListNode

structure UtilsList (α : Type) where
  nodes : LinkHeap α
  head : Option α
  tail : Option α

namespace UtilsList

variable {α : Type} [DecidableEq α]

def new (nodes : LinkHeap α) : UtilsList α := ⟨nodes, none, none⟩

def pushBack (l : UtilsList α) (node : α) : Res (UtilsList α) :=
  match l.tail with
  | none => do
    Res.check (l.head = none) .assertion
    return { l with head := some node, tail := some node }
  | some tail => .ok { l with nodes := ListNode.linkToRight l.nodes tail node, tail := some node }

def pushFront (l : UtilsList α) (node : α) : Res (UtilsList α) :=
  match l.head with
  | none => do
    Res.check (l.tail = none) .assertion
    return { l with tail := some node, head := some node }
  | some head => .ok { l with nodes := ListNode.linkToLeft l.nodes head node, head := some node }

/-- The two assertions of `PopFront` and `PopBack` for the case that `head_ == tail_`. -/
def checkEnds (l : UtilsList α) : Res Unit := do
  Res.check (l.head.all fun a => (l.nodes a).next.isNone) .assertion
  Res.check (l.tail.all fun a => (l.nodes a).prev.isNone) .assertion

/-- `if (node) node->Remove()`. -/
def unlink (l : UtilsList α) (node : Option α) : UtilsList α :=
  { l with nodes := node.elim l.nodes (ListNode.remove l.nodes) }

def popFront (l : UtilsList α) : Res (Option α × UtilsList α) := do
  let node := l.head
  if l.head = l.tail then
    l.checkEnds
    return (node, { l with head := none, tail := none }.unlink node)
  else
    let head ← Res.getD l.head .nullPointer
    return (node, { l with head := (l.nodes head).next }.unlink node)

def popBack (l : UtilsList α) : Res (Option α × UtilsList α) := do
  let node := l.tail
  if l.head = l.tail then
    l.checkEnds
    return (node, { l with head := none, tail := none }.unlink node)
  else
    let tail ← Res.getD l.tail .nullPointer
    return (node, { l with tail := (l.nodes tail).prev }.unlink node)

def remove (l : UtilsList α) (node : α) : UtilsList α :=
  let l := if some node = l.head then { l with head := (l.nodes node).next } else l
  let l := if some node = l.tail then { l with tail := (l.nodes node).prev } else l
  l.unlink (some node)

/-! ## Sequences of operations -/

inductive Op (α : Type)
  | pushBack (node : α)
  | pushFront (node : α)
  | popFront
  | popBack
  | remove (node : α)

def step (l : UtilsList α) : Op α → Res (Option α × UtilsList α)
  | .pushBack node => (none, ·) <$> l.pushBack node
  | .pushFront node => (none, ·) <$> l.pushFront node
  | .popFront => l.popFront
  | .popBack => l.popBack
  | .remove node => .ok (none, l.remove node)

/-- What the operation does to a sequence, and what it returns. -/
def Op.apply : Op α → List α → Option α × List α
  | .pushBack node, xs => (none, xs ++ [node])
  | .pushFront node, xs => (none, node :: xs)
  | .popFront, xs => (xs.head?, xs.tail)
  | .popBack, xs => (xs.getLast?, xs.dropLast)
  | .remove node, xs => (none, xs.erase node)

def Op.takes : Op α → List α → Option α
  | .pushBack _, _ | .pushFront _, _ => none
  | .popFront, xs => xs.head?
  | .popBack, xs => xs.getLast?
  | .remove node, _ => some node

/-- A node that is pushed is detached and not in the list, a node that is removed is in it. -/
def Allowed (l : UtilsList α) (xs : List α) : Op α → Prop
  | .pushBack node | .pushFront node => l.nodes node = Links.null ∧ node ∉ xs
  | .popFront | .popBack => True
  | .remove node => node ∈ xs

inductive Reached (nodes : LinkHeap α) : UtilsList α → List α → Prop
  | new : Reached nodes (new nodes) []
  | step {l l' : UtilsList α} {xs : List α} {returned : Option α} (h : Reached nodes l xs) (op : Op α)
      (hallowed : l.Allowed xs op) (hstep : l.step op = .ok (returned, l')) : Reached nodes l' (op.apply xs).2

structure Represents (l : UtilsList α) (xs : List α) : Prop where
  nodup : xs.Nodup
  chain : Chain l.nodes none xs none
  head : l.head = xs.head?
  tail : l.tail = xs.getLast?

namespace Represents

variable {l : UtilsList α} {xs : List α} (h : l.Represents xs)
include h

theorem pushBack {node : α} (hnull : l.nodes node = Links.null) (hnot : node ∉ xs) :
    ∃ l', l.pushBack node = .ok l' ∧ l'.Represents (xs ++ [node]) := by
  have hnodup : (xs ++ [node]).Nodup := by
    rw [nodup_append', disjoint_singleton]
    exact ⟨h.nodup, nodup_singleton node, hnot⟩
  cases htail : xs.getLast? with
  | none =>
    obtain rfl := getLast?_eq_none_iff.1 htail
    refine ⟨{ l with head := some node, tail := some node }, ?_, hnodup, ⟨hnull, trivial⟩, rfl, rfl⟩
    simp [UtilsList.pushBack, h.tail, h.head, Res.check_of]
  | some tail =>
    have hhead : xs.head? = (xs ++ [node]).head? := by
      cases xs with
      | nil => cases htail
      | cons x xs => rfl
    refine ⟨{ l with nodes := ListNode.linkToRight l.nodes tail node, tail := some node }, ?_, hnodup,
      h.chain.concat h.nodup hnull hnot htail, h.head.trans hhead, by simp⟩
    simp [UtilsList.pushBack, h.tail, htail]

theorem pushFront {node : α} (hnull : l.nodes node = Links.null) (hnot : node ∉ xs) :
    ∃ l', l.pushFront node = .ok l' ∧ l'.Represents (node :: xs) := by
  have hnodup : (node :: xs).Nodup := nodup_cons.2 ⟨hnot, h.nodup⟩
  cases hhead : xs.head? with
  | none =>
    obtain rfl := head?_eq_none_iff.1 hhead
    refine ⟨{ l with tail := some node, head := some node }, ?_, hnodup, ⟨hnull, trivial⟩, rfl, rfl⟩
    simp [UtilsList.pushFront, h.tail, h.head, Res.check_of]
  | some head =>
    have htail : xs.getLast? = (node :: xs).getLast? := by
      cases xs with
      | nil => cases hhead
      | cons x xs => rfl
    refine ⟨{ l with nodes := ListNode.linkToLeft l.nodes head node, head := some node }, ?_, hnodup,
      ListNode.chain_linkToLeft h.nodup h.chain hnull hnot hhead, rfl, h.tail.trans htail⟩
    simp [UtilsList.pushFront, h.head, hhead]

omit h in
theorem unlink_self {head tail : Option α} {y : α} :
    (UtilsList.unlink ⟨l.nodes, head, tail⟩ (some y)).nodes y = Links.null := ListNode.remove_self

omit h in
theorem unlink (ys zs : List α) {ws : List α} {y : α} (h : l.Represents (ys ++ y :: zs)) (hws : ys ++ zs = ws)
    {head tail : Option α} (hhead : head = ws.head?) (htail : tail = ws.getLast?) :
    (UtilsList.unlink ⟨l.nodes, head, tail⟩ (some y)).Represents ws where
  nodup := hws ▸ (nodup_middle.1 h.nodup).of_cons
  chain := hws ▸ ListNode.chain_remove h.nodup h.chain
  head := hhead
  tail := htail

theorem ends (heq : l.head = l.tail) : l.checkEnds = .ok () ∧ xs.tail = [] ∧ xs.dropLast = [] ∧
    (UtilsList.unlink ⟨l.nodes, none, none⟩ l.head).Represents [] := by
  have hhead := h.head
  have htail := h.tail
  rcases xs with _ | ⟨y, _ | ⟨z, zs⟩⟩
  · rw [hhead]
    exact ⟨by simp [checkEnds, hhead, htail, Res.check_of], rfl, rfl, nodup_nil, trivial, rfl, rfl⟩
  · obtain ⟨hy, -⟩ := h.chain
    rw [hhead]
    exact ⟨by simp [checkEnds, hhead, htail, hy, Res.check_of], rfl, rfl, unlink [] [] h rfl rfl rfl⟩
  · rw [hhead, htail, getLast?_cons_cons] at heq
    exact absurd (mem_of_getLast? heq.symm) (nodup_cons.1 h.nodup).1

theorem popFront : ∃ l', l.popFront = .ok (xs.head?, l') ∧ l'.Represents xs.tail ∧
    ∀ y, xs.head? = some y → l'.nodes y = Links.null := by
  by_cases heq : l.head = l.tail
  · obtain ⟨hcheck, hxs, -, hempty⟩ := h.ends heq
    refine ⟨_, by rw [UtilsList.popFront, if_pos heq, hcheck, ← h.head]; rfl, hxs ▸ hempty, fun y hy => ?_⟩
    rw [h.head, hy]
    exact unlink_self
  · rcases xs with _ | ⟨y, _ | ⟨z, zs⟩⟩
    · exact absurd (h.head.trans h.tail.symm) heq
    · exact absurd (h.head.trans h.tail.symm) heq
    · obtain ⟨hy, -⟩ := h.chain
      refine ⟨_, by rw [UtilsList.popFront, if_neg heq, h.head]; rfl, ?_, ?_⟩
      · exact unlink [] (z :: zs) h rfl (by simp [hy]) h.tail
      · rintro _ ⟨⟩
        exact unlink_self

theorem popBack : ∃ l', l.popBack = .ok (xs.getLast?, l') ∧ l'.Represents xs.dropLast ∧
    ∀ y, xs.getLast? = some y → l'.nodes y = Links.null := by
  by_cases heq : l.head = l.tail
  · obtain ⟨hcheck, -, hxs, hempty⟩ := h.ends heq
    rw [heq] at hempty
    refine ⟨_, by rw [UtilsList.popBack, if_pos heq, hcheck, ← h.tail]; rfl, hxs ▸ hempty, fun y hy => ?_⟩
    rw [h.tail, hy]
    exact unlink_self
  · cases xs using List.reverseRecOn with
    | nil => exact absurd (h.head.trans h.tail.symm) heq
    | append_singleton ys y =>
      obtain ⟨-, hy, -⟩ := chain_append.1 h.chain
      have htail : l.tail = some y := h.tail.trans getLast?_concat
      have hhead : l.head = ys.head? := by
        cases ys with
        | nil => exact absurd (h.head.trans h.tail.symm) heq
        | cons x ys => exact h.head
      rw [getLast?_concat, dropLast_concat]
      refine ⟨_, by rw [UtilsList.popBack, if_neg heq, htail]; rfl, ?_, ?_⟩
      · exact unlink ys [] h (append_nil ys) hhead (by simp [hy])
      · rintro _ ⟨⟩
        exact unlink_self

theorem remove {node : α} (hmem : node ∈ xs) :
    (l.remove node).Represents (xs.erase node) ∧ (l.remove node).nodes node = Links.null ∧ node ∉ xs.erase node := by
  have hout : node ∉ xs.erase node := h.nodup.not_mem_erase
  obtain ⟨ys, zs, rfl⟩ := append_of_mem hmem
  obtain ⟨hnoty, -⟩ := nodup_cons.1 (nodup_middle.1 h.nodup)
  rw [mem_append, not_or] at hnoty
  obtain ⟨-, hy, -⟩ := chain_append.1 h.chain
  have herase : (ys ++ node :: zs).erase node = ys ++ zs := by
    rw [erase_append_right _ hnoty.1, erase_cons_head]
  have hhead : (if some node = l.head then (l.nodes node).next else l.head) = (ys ++ zs).head? := by
    rw [h.head, hy]
    cases ys with
    | nil => simp
    | cons y ys =>
      have hne : node ≠ y := fun heq => hnoty.1 (heq ▸ mem_cons_self)
      simp [hne]
  have htail : (if some node = l.tail then (l.nodes node).prev else l.tail) = (ys ++ zs).getLast? := by
    rw [h.tail, hy]
    cases zs using List.reverseRecOn with
    | nil => simp
    | append_singleton zs z =>
      have hne : node ≠ z := by
        rintro rfl
        exact hnoty.2 (by simp)
      simp [hne, getLast?_cons]
  have hremove : l.remove node = UtilsList.unlink ⟨l.nodes, if some node = l.head then (l.nodes node).next else l.head,
      if some node = l.tail then (l.nodes node).prev else l.tail⟩ (some node) := by
    simp only [UtilsList.remove]
    split <;> split <;> rfl
  rw [hremove]
  exact ⟨unlink ys zs h herase.symm (herase ▸ hhead) (herase ▸ htail), unlink_self, hout⟩

theorem step {op : Op α} (hallowed : l.Allowed xs op) : ∃ l', l.step op = .ok ((op.apply xs).1, l') ∧
    l'.Represents (op.apply xs).2 ∧ ∀ y, op.takes xs = some y → l'.nodes y = Links.null ∧ y ∉ (op.apply xs).2 := by
  cases op with
  | pushBack node =>
    obtain ⟨l', hl', h'⟩ := h.pushBack hallowed.1 hallowed.2
    exact ⟨l', by simp [UtilsList.step, hl', Op.apply], h', by simp [Op.takes]⟩
  | pushFront node =>
    obtain ⟨l', hl', h'⟩ := h.pushFront hallowed.1 hallowed.2
    exact ⟨l', by simp [UtilsList.step, hl', Op.apply], h', by simp [Op.takes]⟩
  | popFront =>
    obtain ⟨l', hl', h', hnull⟩ := h.popFront
    refine ⟨l', hl', h', fun y hy => ⟨hnull y hy, fun hmem => ?_⟩⟩
    obtain ⟨zs, rfl⟩ := head?_eq_some_iff.1 hy
    exact (nodup_cons.1 h.nodup).1 hmem
  | popBack =>
    obtain ⟨l', hl', h', hnull⟩ := h.popBack
    refine ⟨l', hl', h', fun y hy => ⟨hnull y hy, fun hmem => ?_⟩⟩
    obtain ⟨ys, rfl⟩ := getLast?_eq_some_iff.1 hy
    rw [Op.apply, dropLast_concat] at hmem
    exact disjoint_of_nodup_append h.nodup hmem mem_cons_self
  | remove node =>
    obtain ⟨h', hnull, hout⟩ := h.remove hallowed
    refine ⟨_, rfl, h', ?_⟩
    rintro _ ⟨⟩
    exact ⟨hnull, hout⟩

end Represents

namespace Reached

variable {nodes : LinkHeap α} {l : UtilsList α} {xs : List α}

theorem represents (h : Reached nodes l xs) : l.Represents xs := by
  induction h with
  | new => exact ⟨nodup_nil, trivial, rfl, rfl⟩
  | step h op hallowed hstep ih =>
    obtain ⟨l', hl', hrepresents, -⟩ := ih.step hallowed
    rw [hstep] at hl'
    obtain ⟨-, rfl⟩ := Prod.mk.inj (Except.ok.inj hl')
    exact hrepresents

/-- The list is the sequence, read in both directions, and every operation does what it does to the
sequence: no assertion fails, the ends are returned, and a node that is taken out may be pushed again. -/
theorem refines (h : Reached nodes l xs) :
    Walk (fun a => (l.nodes a).next) l.head xs ∧ Walk (fun a => (l.nodes a).prev) l.tail xs.reverse ∧
      (l.head = none ↔ l.tail = none) ∧
      ∀ op, l.Allowed xs op → ∃ l', l.step op = .ok ((op.apply xs).1, l') ∧ Reached nodes l' (op.apply xs).2 ∧
        ∀ y, op.takes xs = some y → l'.nodes y = Links.null ∧
          l'.Allowed (op.apply xs).2 (.pushBack y) ∧ l'.Allowed (op.apply xs).2 (.pushFront y) := by
  have hrep := h.represents
  refine ⟨hrep.head ▸ hrep.chain.walk_next, hrep.tail ▸ hrep.chain.walk_prev, ?_, fun op hallowed => ?_⟩
  · rw [hrep.head, hrep.tail, head?_eq_none_iff, getLast?_eq_none_iff]
  · obtain ⟨l', hstep, -, htaken⟩ := hrep.step hallowed
    exact ⟨l', hstep, h.step op hallowed hstep, fun y hy => ⟨(htaken y hy).1, htaken y hy, htaken y hy⟩⟩

end Reached

theorem refines_two_nodes : ∃ l : UtilsList Nat, Reached (fun _ => Links.null) l [1, 0] ∧
    Walk (fun a => (l.nodes a).next) l.head [1, 0] ∧ Walk (fun a => (l.nodes a).prev) l.tail [0, 1] ∧
    ∃ l', l.step .popBack = .ok (some 0, l') := by
  have hempty : Reached (fun _ : Nat => Links.null) _ _ := .new
  have hone := hempty.step (.pushBack 0) ⟨rfl, by decide⟩ rfl
  have hreached := hone.step (.pushFront 1) ⟨rfl, by decide⟩ rfl
  obtain ⟨hnext, hprev, -, hstep⟩ := hreached.refines
  obtain ⟨l', hl', -⟩ := hstep .popBack trivial
  exact ⟨_, hreached, hnext, hprev, l', hl'⟩

/-! ## Position queries -/

/-- The queries of the node `x` say where it is in the list. -/
structure PositionQueries (l : UtilsList α) (x : α) (uninit : Option α) : Prop where
  first : ∃ N, ∀ fuel ≥ N, ∃ y, ListNode.first fuel l.nodes x = .ok y ∧ l.head = some y
  last : ∃ N, ∀ fuel ≥ N, ∃ y, ListNode.last fuel l.nodes x uninit = .ok y ∧ l.tail = some y
  isFirst : ListNode.isFirst x = true ↔ l.head = some x
  isLast : ListNode.isLast x = true ↔ l.tail = some x

namespace Reached

variable {nodes : LinkHeap α} {l : UtilsList α} {xs : List α} {x : α}

theorem first_eq (h : Reached nodes l xs) (hx : x ∈ xs) :
    ∃ N, ∀ fuel ≥ N, ∃ y, ListNode.first fuel l.nodes x = .ok y ∧ l.head = some y := by
  have hrep := h.represents
  obtain ⟨ys, zs, rfl⟩ := append_of_mem hx
  have hchain := hrep.chain
  rw [← singleton_append, ← append_assoc] at hchain
  have hwalk := (chain_append.1 hchain).1.walk_prev
  rw [getLast?_concat] at hwalk
  obtain ⟨y, hy⟩ : ∃ y, (ys ++ x :: zs).head? = some y := by
    cases ys with
    | nil => exact ⟨x, rfl⟩
    | cons y ys => exact ⟨y, rfl⟩
  have hlast : (ys ++ [x]).reverse.getLast? = some y := by
    rw [getLast?_reverse, ← hy]
    cases ys <;> rfl
  exact ⟨_, fun fuel hfuel => ⟨y, Res.loop_mono (loop_follow hwalk hlast) hfuel, hrep.head.trans hy⟩⟩

omit [DecidableEq α] in
theorem last_eq_iff {uninit : Option α} {tail : α} (htail : l.tail = some tail) :
    (∃ N, ∀ fuel ≥ N, ∃ y, ListNode.last fuel l.nodes x uninit = .ok y ∧ l.tail = some y) ↔
      ∃ ys, Walk (fun a => (l.nodes a).next) uninit ys ∧ ys.getLast? = l.tail := by
  constructor
  · rintro ⟨N, hN⟩
    obtain ⟨y, hy, hl⟩ := hN N (Nat.le_refl N)
    obtain ⟨p, hp, hloop⟩ := Res.bind_eq_ok.1 hy
    obtain rfl := Res.getD_eq_ok.1 hp
    obtain ⟨ys, hwalk, hlast⟩ := walk_of_loop_follow hloop
    exact ⟨ys, hwalk, hlast.trans hl.symm⟩
  · rintro ⟨ys, hwalk, hlast⟩
    rw [htail] at hlast
    cases uninit with
    | none =>
      cases ys with
      | nil => cases hlast
      | cons y ys => cases hwalk.1
    | some p => exact ⟨_, fun fuel hfuel => ⟨tail, Res.loop_mono (loop_follow hwalk hlast) hfuel, htail⟩⟩

/-- The queries of a node are right exactly if it is at neither end and the uninitialised variable of
`Last` holds a node from which the links lead to the tail. -/
theorem positionQueries_iff (h : Reached nodes l xs) (hx : x ∈ xs) (uninit : Option α) :
    l.PositionQueries x uninit ↔ l.head ≠ some x ∧ l.tail ≠ some x ∧
      ∃ ys, Walk (fun a => (l.nodes a).next) uninit ys ∧ ys.getLast? = l.tail := by
  obtain ⟨tail, htail⟩ : ∃ tail, l.tail = some tail := by
    rw [h.represents.tail]
    exact ⟨_, getLast?_eq_some_getLast (ne_nil_of_mem hx)⟩
  constructor
  · rintro ⟨-, hlast, hisFirst, hisLast⟩
    exact ⟨fun heq => Bool.false_ne_true (hisFirst.2 heq), fun heq => Bool.false_ne_true (hisLast.2 heq),
      (last_eq_iff htail).1 hlast⟩
  · rintro ⟨hfirst, hlast, hwalk⟩
    exact ⟨h.first_eq hx, (last_eq_iff htail).2 hwalk, iff_of_false Bool.false_ne_true hfirst,
      iff_of_false Bool.false_ne_true hlast⟩

end Reached

theorem positionQueries_iff_middle : ∃ l : UtilsList Nat, Reached (fun _ => Links.null) l [0, 1, 2] ∧
    l.PositionQueries 1 (some 2) := by
  have hempty : Reached (fun _ : Nat => Links.null) _ _ := .new
  have hone := hempty.step (.pushBack 0) ⟨rfl, by decide⟩ rfl
  have htwo := hone.step (.pushBack 1) ⟨rfl, by decide⟩ rfl
  have hthree := htwo.step (.pushBack 2) ⟨rfl, by decide⟩ rfl
  refine ⟨_, hthree, (hthree.positionQueries_iff (by decide) (some 2)).2 ⟨?_, ?_, [2], ⟨rfl, rfl⟩, rfl⟩⟩
  · rintro ⟨⟩
  · rintro ⟨⟩

/-- In a list of one node, that node is the first and the last, and says that it is neither; `Last` goes
through a null pointer if that is what its variable holds. -/
theorem not_positionQueries_one_node : ∃ l : UtilsList Nat, Reached (fun _ => Links.null) l [0] ∧ l.head = some 0 ∧
    l.tail = some 0 ∧ ListNode.isFirst 0 = false ∧ ListNode.isLast 0 = false ∧
    (∀ fuel, ListNode.last fuel l.nodes 0 none = .error .nullPointer) ∧ ∀ uninit, ¬ l.PositionQueries 0 uninit := by
  have hempty : Reached (fun _ : Nat => Links.null) _ _ := .new
  have hone := hempty.step (.pushBack 0) ⟨rfl, by decide⟩ rfl
  exact ⟨_, hone, rfl, rfl, rfl, rfl, fun _ => rfl, fun _ h => Bool.false_ne_true (h.isFirst.2 rfl)⟩

end UtilsList

end Dbms18
