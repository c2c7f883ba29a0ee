import Dbms18.Lib.OrderedIter

/-!
# The merging iterator (`table/merger.cc`, `table/iterator_wrapper.h`, `table/iterator.cc`)

`MergingIterator` walks over the entries of several iterators at once. Its children are wrapped: an
`IteratorWrapper` remembers whether its iterator is valid and the key it is on.

Moving forward, all children are on their first entry that has not been passed, and the current one is the child
with the smallest key. Moving backward, they are on their last entry that has not been passed, and the current one is
the child with the largest key. When the direction changes, the other children are moved over the current key.

`current_` is the index of a child. `FindSmallest` and `FindLargest` are one loop (`pick`), run over the children
in different directions and with different comparisons.
-/

namespace Dbms18.LevelDb

variable {σ K V : Type}

/-! ## Wrappers -/

structure IteratorWrapper (σ K : Type) where
  iter : σ
  valid : Bool
  key : Option K

namespace IteratorWrapper

variable (it : Iter σ K V)

/-- `Update`, after the iterator has been moved; the key is left as it was if the iterator is not valid. -/
def update (key : Option K) (iter : σ) : Res (IteratorWrapper σ K) :=
  if it.valid iter then do
    return ⟨iter, true, some (← it.key iter)⟩
  else
    return ⟨iter, false, key⟩

def set (iter : σ) : Res (IteratorWrapper σ K) := update it none iter

def asIter : Iter (IteratorWrapper σ K) K V where
  valid w := w.valid
  key w := do
    Res.check (w.valid = true) .assertion
    Res.getD w.key .uninitialized
  value w := do
    Res.check (w.valid = true) .assertion
    it.value w.iter
  seekToFirst w := do update it w.key (← it.seekToFirst w.iter)
  seekToLast w := do update it w.key (← it.seekToLast w.iter)
  accepts := it.accepts
  seek k w := do update it w.key (← it.seek k w.iter)
  next w := do update it w.key (← it.next w.iter)
  prev w := do update it w.key (← it.prev w.iter)

end IteratorWrapper

/-! ## The merging iterator -/

structure MergingIterator (σ : Type) where
  children : List σ
  current : Option Nat
  direction : Direction

namespace MergingIterator

variable (it : Iter σ K V) (cmp : K → K → Ordering)

def new (children : List σ) : MergingIterator σ := ⟨children, none, .forward⟩

/-- One pass of `FindSmallest` or `FindLargest`: `best` is the best child so far and its index. -/
def pickStep (better : K → K → Bool) (best : Option (σ × Nat)) (child : σ × Nat) : Res (Option (σ × Nat)) :=
  if it.valid child.1 then
    match best with
    | none => return some child
    | some b => do
      if better (← it.key child.1) (← it.key b.1) then
        return some child
      else
        return some b
  else
    return best

def pick (better : K → K → Bool) (children : List (σ × Nat)) : Res (Option Nat) := do
  return (← children.foldlM (pickStep it better) none).map Prod.snd

def findSmallest (children : List σ) : Res (Option Nat) :=
  pick it (fun k k' => cmp k k' = .lt) children.zipIdx

def findLargest (children : List σ) : Res (Option Nat) :=
  pick it (fun k k' => cmp k k' = .gt) children.zipIdx.reverse

def currentChild (m : MergingIterator σ) : Res (Nat × σ) := do
  let c ← Res.getD m.current .assertion
  let s ← Res.getD m.children[c]? .outOfBounds
  return (c, s)

def key (m : MergingIterator σ) : Res K := do
  let (_, s) ← m.currentChild
  it.key s

def value (m : MergingIterator σ) : Res V := do
  let (_, s) ← m.currentChild
  it.value s

def seekToFirst (m : MergingIterator σ) : Res (MergingIterator σ) := do
  let children ← m.children.mapM it.seekToFirst
  return ⟨children, ← findSmallest it cmp children, .forward⟩

def seekToLast (m : MergingIterator σ) : Res (MergingIterator σ) := do
  let children ← m.children.mapM it.seekToLast
  return ⟨children, ← findLargest it cmp children, .reverse⟩

def seek (target : K) (m : MergingIterator σ) : Res (MergingIterator σ) := do
  let children ← m.children.mapM (it.seek target)
  return ⟨children, ← findSmallest it cmp children, .forward⟩

def moveOthers (c : Nat) (move : σ → Res σ) (children : List σ) : Res (List σ) :=
  children.zipIdx.mapM fun child => if child.2 = c then .ok child.1 else move child.1

/-- A child that is not current, to its first entry behind the current key. -/
def moveBehind (key : K) (child : σ) : Res σ := do
  let child ← it.seek key child
  if it.valid child then
    if cmp key (← it.key child) = .eq then it.next child else return child
  else
    return child

/-- A child that is not current, to its last entry before the current key. -/
def moveBefore (key : K) (child : σ) : Res σ := do
  let child ← it.seek key child
  if it.valid child then it.prev child else it.seekToLast child

/-- The children when all of them are behind the current key, or about to be. -/
def turnForward (m : MergingIterator σ) (c : Nat) (s : σ) : Res (List σ) :=
  match m.direction with
  | .forward => return m.children
  | .reverse => do moveOthers c (moveBehind it cmp (← it.key s)) m.children

def turnReverse (m : MergingIterator σ) (c : Nat) (s : σ) : Res (List σ) :=
  match m.direction with
  | .reverse => return m.children
  | .forward => do moveOthers c (moveBefore it (← it.key s)) m.children

def next (m : MergingIterator σ) : Res (MergingIterator σ) := do
  let (c, s) ← m.currentChild
  let children ← m.turnForward it cmp c s
  let children := children.set c (← it.next s)
  return ⟨children, ← findSmallest it cmp children, .forward⟩

def prev (m : MergingIterator σ) : Res (MergingIterator σ) := do
  let (c, s) ← m.currentChild
  let children ← m.turnReverse it c s
  let children := children.set c (← it.prev s)
  return ⟨children, ← findLargest it cmp children, .reverse⟩

def asIter : Iter (MergingIterator σ) K V where
  valid m := m.current.isSome
  key := key it
  value := value it
  seekToFirst := seekToFirst it cmp
  seekToLast := seekToLast it cmp
  accepts := it.accepts
  seek := seek it cmp
  next := next it cmp
  prev := prev it cmp

end MergingIterator

/-! ## What `NewMergingIterator` returns -/

/-- `EmptyIterator` -/
def emptyIterator : Iter Unit K V where
  valid _ := false
  key _ := .error .assertion
  value _ := .error .assertion
  seekToFirst s := .ok s
  seekToLast s := .ok s
  accepts _ := True
  seek _ s := .ok s
  next _ := .error .assertion
  prev _ := .error .assertion

/-- An `EmptyIterator`, the only iterator of the list as it is, or a `MergingIterator`. -/
abbrev MergedIterator (σ K : Type) : Type := Unit ⊕ σ ⊕ MergingIterator (IteratorWrapper σ K)

/-- The calls of such an iterator, which are virtual. -/
def MergedIterator.asIter (it : Iter σ K V) (cmp : K → K → Ordering) : Iter (MergedIterator σ K) K V :=
  emptyIterator.sum (it.sum (MergingIterator.asIter (IteratorWrapper.asIter it) cmp))

def newMergingIterator (it : Iter σ K V) : List σ → Res (MergedIterator σ K)
  | [] => return .inl ()
  | [iter] => return .inr (.inl iter)
  | list => do
    let children ← list.mapM (IteratorWrapper.set it)
    return .inr (.inr (.new children))

end Dbms18.LevelDb
