import Dbms18.Lib.Chain
import Dbms18.Parser.Ast

/-!
# The nodes of a parse tree (`include/parser/ast_base.h`)

Every list of the grammar is threaded through its nodes' own links. `RAppend` goes to the end of the list
and links the head of another list behind it; the functions that make the statements go through the links
once and convert each node with `dynamic_cast`.
-/

namespace Dbms18

namespace LinkHeap

/-- `this->RAppend(ast)`. -/
def rAppend (fuel : Nat) (links : LinkHeap Nat) (this ast : Nat) : Res (LinkHeap Nat) := do
  let last ← Res.loop (followStep fun p => (links p).next) fuel this
  return (links.setPrev ast (some last)).setNext last (some ast)

theorem rAppend_eq {links : LinkHeap Nat} {xs ys : List Nat} {x y fuel : Nat} (hxs : Chain links none xs none)
    (hys : Chain links none ys none) (hdisjoint : xs.Disjoint ys) (hx : x ∈ xs) (hy : ys.head? = some y)
    (hfuel : xs.length ≤ fuel) :
    ∃ links', links.rAppend fuel x y = .ok links' ∧ Chain links' none (xs ++ ys) none ∧
      ∀ p, p ∉ xs → p ∉ ys → links' p = links p := by
  obtain ⟨zs, hsuffix, hlast, hwalk⟩ := hxs.walk_next_of_mem hx
  obtain ⟨last, hlast'⟩ := Option.isSome_iff_exists.1 (List.getLast?_isSome.2 (List.ne_nil_of_mem hx))
  have hloop := Res.loop_mono (loop_follow hwalk (hlast.trans hlast')) (hsuffix.length_le.trans hfuel)
  refine ⟨_, Res.bind_eq_ok.2 ⟨last, hloop, rfl⟩,
    hxs.join hys (List.nodup_append'.2 ⟨hxs.nodup, hys.nodup, hdisjoint⟩) hlast' hy, fun p hpx hpy => ?_⟩
  have hne : p ≠ last := by
    rintro rfl
    exact hpx (List.mem_of_getLast? hlast')
  have hne' : p ≠ y := by
    rintro rfl
    exact hpy (List.mem_of_head? hy)
  rw [setNext_of_ne hne, setPrev_of_ne hne']

end LinkHeap

structure SelectTarget where
  expression : ExpressionBase
  aliasName : Bytes
deriving DecidableEq

structure OrderClause where
  expression : ExpressionBase
  isDesc : Bool
deriving DecidableEq

/-- The nodes of a parse tree, as `dynamic_cast` tells them apart. -/
inductive Node
  | referenceName (name : Bytes)
  | expression (e : ExpressionBase)
  | selectTarget (target : SelectTarget)
  | orderClause (clause : OrderClause)
  | tableFactor (factor : TableFactor)
  | columnDefine (column : ColumnDefine)
  | statement
deriving DecidableEq

namespace Node

def asReferenceName : Node → Option Bytes
  | referenceName name => some name
  | _ => none

def asExpressionBase : Node → Option ExpressionBase
  | expression e => some e
  | _ => none

def asConstValue : Node → Option ConstValue
  | expression (.constValue value) => some value
  | _ => none

def asSelectTarget : Node → Option SelectTarget
  | selectTarget target => some target
  | _ => none

def asOrderClause : Node → Option OrderClause
  | orderClause clause => some clause
  | _ => none

def asTableFactor : Node → Option TableFactor
  | tableFactor factor => some factor
  | _ => none

def asColumnDefine : Node → Option ColumnDefine
  | columnDefine column => some column
  | _ => none

end Node

structure NodeHeap where
  node : Nat → Option Node
  links : LinkHeap Nat

namespace NodeHeap

def next (h : NodeHeap) (p : Nat) : Option Nat := (h.links p).next

/-- `dynamic_cast` of a pointer, and what happens where the result is used without being one. -/
def cast {β : Type} (h : NodeHeap) (as : Node → Option β) (fault : Fault) (p : Nat) : Res β := do
  let node ← Res.getD (h.node p) .outOfBounds
  Res.getD (as node) fault

/-- The loop of a list, with the assertion that every node has the right type. -/
def collect {β : Type} (fuel : Nat) (h : NodeHeap) (as : Node → Option β) (list : Option Nat) : Res (List β) :=
  Res.loop (collectStep h.next (h.cast as .assertion)) fuel (list, [])

def rAppend (fuel : Nat) (h : NodeHeap) (this ast : Nat) : Res NodeHeap :=
  (fun links => { h with links }) <$> h.links.rAppend fuel this ast

/-- The addresses `ps` are linked to a list of their own that holds the nodes. -/
structure Holds (h : NodeHeap) (ps : List Nat) (nodes : List Node) : Prop where
  chain : Chain h.links none ps none
  nodes : List.Forall₂ (fun p node => h.node p = some node) ps nodes

variable {h h' : NodeHeap} {ps qs : List Nat} {nodes nodes' : List Node} {fuel : Nat}

theorem Holds.frame (hps : h.Holds ps nodes) (hnode : ∀ {p node}, h.node p = some node → h'.node p = some node)
    (hlinks : ∀ p ∈ ps, h'.links p = h.links p) : h'.Holds ps nodes :=
  ⟨hps.chain.congr hlinks, hps.nodes.imp fun _ _ => hnode⟩

theorem Holds.exists_node (hps : h.Holds ps nodes) {p : Nat} (hp : p ∈ ps) : ∃ node, h.node p = some node := by
  obtain ⟨i, hi, rfl⟩ := List.mem_iff_getElem.1 hp
  exact ⟨_, (List.forall₂_iff_get.1 hps.nodes).2 i hi (hps.nodes.length_eq ▸ hi)⟩

theorem Holds.rAppend {x y : Nat} (hps : h.Holds ps nodes) (hqs : h.Holds qs nodes') (hdisjoint : ps.Disjoint qs)
    (hx : x ∈ ps) (hy : qs.head? = some y) (hfuel : ps.length ≤ fuel) :
    ∃ h', h.rAppend fuel x y = .ok h' ∧ h'.Holds (ps ++ qs) (nodes ++ nodes') ∧ h'.node = h.node ∧
      ∀ p, p ∉ ps → p ∉ qs → h'.links p = h.links p := by
  obtain ⟨links', hlinks', hchain, hframe⟩ := LinkHeap.rAppend_eq hps.chain hqs.chain hdisjoint hx hy hfuel
  refine ⟨⟨h.node, links'⟩, ?_, ⟨hchain, List.rel_append hps.nodes hqs.nodes⟩, rfl, hframe⟩
  rw [NodeHeap.rAppend, hlinks']
  rfl

theorem cast_eq {β : Type} (as : Node → Option β) {fault : Fault} {p : Nat} {node : Node} {b : β} (hp : h.node p = some node)
    (hb : as node = some b) : h.cast as fault p = .ok b := by
  rw [cast, hp, Res.getD_some, Res.ok_bind, hb, Res.getD_some]

theorem Holds.collect {β : Type} {as : Node → Option β} {make : β → Node} {bs : List β} (hps : h.Holds ps (bs.map make))
    (has : ∀ b, as (make b) = some b) (hfuel : ps.length < fuel) : h.collect fuel as ps.head? = .ok bs := by
  refine loop_collect hps.chain.walk_next ?_ hfuel
  refine (List.forall₂_map_right_iff.1 hps.nodes).imp fun p b hp => ?_
  exact cast_eq as hp (has b)

end NodeHeap

end Dbms18
