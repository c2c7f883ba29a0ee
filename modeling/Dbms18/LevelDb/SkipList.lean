import Dbms18.Lib.Loop
import Dbms18.Lib.OrderedIter

/-!
# The skip list (`db/skiplist.h`, `util/random.h`)

Nodes live in an arena and are never freed, so a node is named by its place in the list `nodes`; `head_` is the first.
A node has one link for each of its levels. `NewNode` leaves the links unwritten, and reading one before it is written
is a fault.

The three searches are one loop, `searchStep`: go on to the next node of this level if it is still to be passed,
otherwise go down one level.

`Insert` is cut where a reader of the list, which takes no lock, can see it: `prepare` ends with the store to
`max_height_`, and `linkStep` is one store to a link.
-/

namespace Dbms18.LevelDb

/-! ## Random heights -/

structure Random where
  seed : Nat

namespace Random

def new (s : Nat) : Random :=
  let seed := s &&& 0x7fffffff
  if seed = 0 ∨ seed = 2147483647 then ⟨1⟩ else ⟨seed⟩

def next (r : Random) : Random :=
  let product := r.seed * 16807 % 0x10000000000000000
  let seed := ((product >>> 31) + (product &&& 2147483647)) % 0x100000000
  if seed > 2147483647 then ⟨seed - 2147483647⟩ else ⟨seed⟩

end Random

structure SkipList (K : Type) where
  nodes : List (Option K × List (Option (Option Nat)))
  maxHeight : Nat
  rnd : Random

namespace SkipList

variable {K : Type}

def kMaxHeight : Nat := 12

def kBranching : Nat := 4

/-- The loop of `RandomHeight`, with the passes that are left until `kMaxHeight`. -/
def raise : Nat → Nat → Random → Nat × Random
  | 0, height, rnd => (height, rnd)
  | left + 1, height, rnd =>
    if rnd.next.seed % kBranching = 0 then raise left (height + 1) rnd.next else (height, rnd.next)

def randomHeight (rnd : Random) : Nat × Random := raise (kMaxHeight - 1) 1 rnd

/-! ## Nodes -/

def head : Nat := 0

def new : SkipList K := ⟨[(none, List.replicate kMaxHeight (some none))], 1, .new 0xdeadbeef⟩

def key (l : SkipList K) (n : Nat) : Res K := do
  let node ← Res.getD l.nodes[n]? .outOfBounds
  Res.getD node.1 .nullPointer

def next (l : SkipList K) (n level : Nat) : Res (Option Nat) := do
  let node ← Res.getD l.nodes[n]? .outOfBounds
  let link ← Res.getD node.2[level]? .outOfBounds
  Res.getD link .uninitialized

def setNext (l : SkipList K) (n level : Nat) (x : Option Nat) : Res (SkipList K) := do
  let node ← Res.getD l.nodes[n]? .outOfBounds
  Res.check (level < node.2.length) .outOfBounds
  return { l with nodes := l.nodes.set n (node.1, node.2.set level (some x)) }

/-! ## Searching -/

/-- Where a search is, and the array `prev` it fills, if it was given one. -/
structure Search where
  x : Nat
  level : Nat
  prev : Option (List (Option Nat))

def start (l : SkipList K) (prev : Option (List (Option Nat))) : Search := ⟨head, l.maxHeight - 1, prev⟩

/-- A search that stops at this level: its last pass returns, the others go down. -/
def Search.down (s : Search) (next : Option Nat) : Search ⊕ (Option Nat × Search) :=
  let s' := { s with prev := s.prev.map fun prev => prev.set s.level (some s.x) }
  if s.level = 0 then .inr (next, s') else .inl { s' with level := s.level - 1 }

/-- One pass of a search that goes on over the nodes of which `passes` is true. -/
def searchStep (l : SkipList K) (passes : Nat → Res Bool) (s : Search) : Res (Search ⊕ (Option Nat × Search)) := do
  match ← l.next s.x s.level with
  | none => return s.down none
  | some n => do
    if ← passes n then
      return .inl { s with x := n }
    else
      return s.down (some n)

variable (cmp : K → K → Ordering)

/-- `KeyIsAfterNode`, of a node that is not null. -/
def keyIsAfterNode (l : SkipList K) (key : K) (n : Nat) : Res Bool := do
  return cmp (← l.key n) key = .lt

def findGreaterOrEqual (l : SkipList K) (fuel : Nat) (key : K) (prev : Option (List (Option Nat))) :
    Res (Option Nat × Search) :=
  Res.loop (searchStep l (l.keyIsAfterNode cmp key)) fuel (l.start prev)

/-- One pass of `FindLessThan`, which also checks that it has not gone too far. -/
def findLessThanStep (l : SkipList K) (key : K) (s : Search) : Res (Search ⊕ (Option Nat × Search)) := do
  if s.x ≠ head then
    Res.check (cmp (← l.key s.x) key = .lt) .assertion
  searchStep l (l.keyIsAfterNode cmp key) s

def findLessThan (l : SkipList K) (fuel : Nat) (key : K) : Res Nat := do
  let (_, s) ← Res.loop (findLessThanStep cmp l key) fuel (l.start none)
  return s.x

def findLast (l : SkipList K) (fuel : Nat) : Res Nat := do
  let (_, s) ← Res.loop (searchStep l fun _ => .ok true) fuel (l.start none)
  return s.x

/-! ## Insertion -/

/-- What `Insert` keeps in its local variables while it links the new node. -/
structure Pending where
  node : Nat
  height : Nat
  prev : List (Option Nat)
  level : Nat
  /-- Whether the link of the new node at `level` has been written. -/
  written : Bool

def newNode (l : SkipList K) (key : K) (height : Nat) : Nat × SkipList K :=
  (l.nodes.length, { l with nodes := l.nodes ++ [(some key, List.replicate height none)] })

/-- The part of `prev` that the search has not filled, for a node higher than all others. -/
def fillHead (l : SkipList K) (height : Nat) (prev : List (Option Nat)) : List (Option Nat) :=
  prev.mapIdx fun i p => if l.maxHeight ≤ i ∧ i < height then some head else p

/-- The assertion that the key is not in the list already, with the node its search came to. -/
def checkNew (l : SkipList K) (key : K) : Option Nat → Res Unit
  | none => return
  | some n => do Res.check (cmp key (← l.key n) ≠ .eq) .assertion

/-- `Insert` up to the loop that links the new node. -/
def prepare (l : SkipList K) (fuel : Nat) (key : K) : Res (SkipList K × Pending) := do
  let (x, s) ← l.findGreaterOrEqual cmp fuel key (some (List.replicate kMaxHeight none))
  l.checkNew cmp key x
  let prev := s.prev.getD []
  let (height, rnd) := randomHeight l.rnd
  let prev := if height > l.maxHeight then l.fillHead height prev else prev
  let (node, l) := { l with maxHeight := max height l.maxHeight, rnd := rnd }.newNode key height
  return (l, ⟨node, height, prev, 0, false⟩)

/-- The next store of the loop in `Insert`: the new node's link at a level, then the link that leads to it. -/
def linkStep (s : SkipList K × Pending) : Res ((SkipList K × Pending) ⊕ SkipList K) := do
  let (l, w) := s
  if w.level < w.height then
    let p ← Res.getD w.prev[w.level]? .outOfBounds
    let p ← Res.getD p .uninitialized
    if w.written then
      return .inl (← l.setNext p w.level (some w.node), { w with level := w.level + 1, written := false })
    else
      return .inl (← l.setNext w.node w.level (← l.next p w.level), { w with written := true })
  else
    return .inr l

def insert (l : SkipList K) (fuel : Nat) (key : K) : Res (SkipList K) := do
  Res.loop linkStep (2 * kMaxHeight + 1) (← l.prepare cmp fuel key)

def contains (l : SkipList K) (fuel : Nat) (key : K) : Res Bool := do
  let (x, _) ← l.findGreaterOrEqual cmp fuel key none
  match x with
  | none => return false
  | some n => return cmp key (← l.key n) = .eq

/-! ## Iterators -/

abbrev Iterator := Option Nat

namespace Iterator

variable (l : SkipList K) (fuel : Nat)

def key (node : Iterator) : Res K := do l.key (← Res.getD node .assertion)

def next (node : Iterator) : Res Iterator := do l.next (← Res.getD node .assertion) 0

def ofNode (n : Nat) : Iterator := if n = head then none else some n

def prev (node : Iterator) : Res Iterator := do
  return ofNode (← l.findLessThan cmp fuel (← key l node))

def seek (target : K) : Res Iterator := do
  let (node, _) ← l.findGreaterOrEqual cmp fuel target none
  return node

def seekToFirst : Res Iterator := l.next head 0

def seekToLast : Res Iterator := do
  return ofNode (← l.findLast fuel)

end Iterator

end SkipList

end Dbms18.LevelDb
