import Dbms18.Lib.Text
import Dbms18.Parser.NodeHeap

/-!
# The parse tree of an INSERT (`parser/parser_context.cpp`, `insert_stmt` in `parser/parser.yy`)

The actions of the grammar make one node for every name and every value, and link the nodes of a list by
`RAppend`. `NewInsertStmt` then goes through the list of column names twice: once for the names, and once,
where it should go through the values, for the values. So it fails an assertion if there are column names,
and leaves the value list empty if there are none (`insertStmt_eq`).

Names are put into upper case by `boost::to_upper`, of which nothing is assumed.
-/

namespace Dbms18

open List

/-- `ast_node_list_`, which holds every node there is, and the links of the nodes. A pointer to a node is
its place in the list. -/
structure ParserContext where
  astNodeList : List Node
  links : LinkHeap Nat

namespace ParserContext

def new : ParserContext := ⟨[], fun _ => Links.null⟩

def heap (ctx : ParserContext) : NodeHeap := ⟨(ctx.astNodeList[·]?), ctx.links⟩

def add (ctx : ParserContext) (node : Node) : Nat × ParserContext :=
  (ctx.astNodeList.length, { ctx with astNodeList := ctx.astNodeList ++ [node] })

def rAppend (fuel : Nat) (ctx : ParserContext) (this ast : Nat) : Res ParserContext := do
  let heap ← ctx.heap.rAppend fuel this ast
  return { ctx with links := heap.links }

/-- Both loops start from `opt_column_name_list`. -/
def newInsertStmt (fuel : Nat) (ctx : ParserContext) (tableName : Nat) (optColumnNameList _valueList : Option Nat) :
    Res InsertStmt := do
  let tableName ← ctx.heap.cast Node.asReferenceName .assertion tableName
  let optColumnNames ← ctx.heap.collect fuel Node.asReferenceName optColumnNameList
  let insertValues ← ctx.heap.collect fuel Node.asConstValue optColumnNameList
  return ⟨tableName, optColumnNames, insertValues⟩

/-- The actions of a list: the first node, and the others appended to it. There is no node if there is
no list. -/
def nodeList (fuel : Nat) (ctx : ParserContext) : List Node → Res (Option Nat × ParserContext)
  | [] => .ok (none, ctx)
  | node :: nodes => do
    let (first, ctx) := ctx.add node
    let ctx ← nodes.foldlM (fun ctx node => let (p, ctx) := ctx.add node; ctx.rAppend fuel first p) ctx
    return (some first, ctx)

/-- `ctext_row`, a list of strings. -/
def ctextRow (fuel : Nat) (ctx : ParserContext) (values : List Bytes) : Res (Option Nat × ParserContext) :=
  ctx.nodeList fuel (values.map fun value => .expression (.constValue (.varchar value)))

section Names

variable (toUpper : Bytes → Bytes)

def newReferenceName (ctx : ParserContext) (str : Bytes) : Nat × ParserContext := ctx.add (.referenceName (toUpper str))

/-- `opt_column_list`. -/
def optColumnList (fuel : Nat) (ctx : ParserContext) (names : List Bytes) : Res (Option Nat × ParserContext) :=
  ctx.nodeList fuel (names.map fun name => .referenceName (toUpper name))

/-- `INSERT INTO table_name opt_column_list VALUES ctext_row`. -/
def insertStmt (fuel : Nat) (tableName : Bytes) (names values : List Bytes) : Res InsertStmt := do
  let table := new.newReferenceName toUpper tableName
  let columns ← table.2.optColumnList toUpper fuel names
  let row ← columns.2.ctextRow fuel values
  row.2.newInsertStmt fuel table.1 columns.1 row.1

end Names

/-! ## Lists of nodes -/

def Fresh (ctx : ParserContext) : Prop := ∀ p, ctx.astNodeList.length ≤ p → ctx.links p = Links.null

/-- The nodes were added as one linked list, and the links of the old nodes are as before. -/
structure Grown (ctx ctx' : ParserContext) (nodes : List Node) : Prop where
  astNodeList : ctx'.astNodeList = ctx.astNodeList ++ nodes
  holds : ctx'.heap.Holds (List.range' ctx.astNodeList.length nodes.length) nodes
  links : ∀ p < ctx.astNodeList.length, ctx'.links p = ctx.links p
  fresh : ctx'.Fresh

variable {ctx ctx' : ParserContext} {nodes : List Node} {fuel : Nat}

theorem Fresh.add (h : ctx.Fresh) (node : Node) : (ctx.add node).2.Fresh := by
  intro p hp
  refine h p (Nat.le_trans ?_ hp)
  simp [ParserContext.add]

theorem Fresh.holds_add (h : ctx.Fresh) (node : Node) : (ctx.add node).2.heap.Holds [ctx.astNodeList.length] [node] :=
  ⟨⟨h _ le_rfl, trivial⟩, .cons getElem?_concat_length .nil⟩

theorem holds_of_append {ps : List Nat} (h : ctx.heap.Holds ps nodes) {added : List Node}
    (hlist : ctx'.astNodeList = ctx.astNodeList ++ added) (hlinks : ∀ p < ctx.astNodeList.length, ctx'.links p = ctx.links p) :
    ctx'.heap.Holds ps nodes := by
  have hlt : ∀ {p node}, ctx.heap.node p = some node → p < ctx.astNodeList.length := fun hp =>
    (List.getElem?_eq_some_iff.1 hp).1
  refine h.frame (fun {p node} hp => ?_) fun p hp => ?_
  · exact (congrArg (·[p]?) hlist).trans ((getElem?_append_left (hlt hp)).trans hp)
  · obtain ⟨node, hnode⟩ := h.exists_node hp
    exact hlinks p (hlt hnode)

theorem Grown.append (h : Grown ctx ctx' nodes) (hnodes : nodes ≠ []) (hfuel : nodes.length ≤ fuel) (node : Node) :
    ∃ ctx'', (ctx'.add node).2.rAppend fuel ctx.astNodeList.length (ctx'.add node).1 = .ok ctx'' ∧
      Grown ctx ctx'' (nodes ++ [node]) := by
  have hplace : ctx'.astNodeList.length = ctx.astNodeList.length + nodes.length := by
    rw [h.astNodeList, length_append]
  have hmem : ∀ {p}, p ∈ List.range' ctx.astNodeList.length nodes.length ↔
      ctx.astNodeList.length ≤ p ∧ p < ctx'.astNodeList.length := by
    intro p
    rw [mem_range'_1, hplace]
  have hdisjoint : (List.range' ctx.astNodeList.length nodes.length).Disjoint [ctx'.astNodeList.length] := by
    rw [disjoint_singleton]
    exact fun hp => lt_irrefl _ (hmem.1 hp).2
  have hfirst : ctx.astNodeList.length ∈ List.range' ctx.astNodeList.length nodes.length :=
    hmem.2 ⟨le_rfl, by simpa [hplace] using length_pos_iff.2 hnodes⟩
  have hold : (ctx'.add node).2.heap.Holds (List.range' ctx.astNodeList.length nodes.length) nodes :=
    holds_of_append h.holds rfl fun _ _ => rfl
  obtain ⟨⟨heapNode, links⟩, happend, hholds, rfl, hframe⟩ :=
    hold.rAppend (h.fresh.holds_add node) hdisjoint hfirst rfl (length_range'.trans_le hfuel)
  have hkeep : ∀ p, ¬ (ctx.astNodeList.length ≤ p ∧ p ≤ ctx'.astNodeList.length) → links p = ctx'.links p := by
    intro p hp
    refine hframe p (fun hold => hp ?_) fun hlast => hp ?_
    · exact ⟨(hmem.1 hold).1, (hmem.1 hold).2.le⟩
    · rw [mem_singleton.1 hlast]
      omega
  refine ⟨⟨ctx'.astNodeList ++ [node], links⟩, ?_, ?_, ?_, fun p hp => ?_, fun p hp => ?_⟩
  · exact Res.bind_eq_ok.2 ⟨_, happend, rfl⟩
  · simp [h.astNodeList]
  · rw [length_append, length_singleton, range'_concat, Nat.one_mul, ← hplace]
    exact hholds
  · exact (hkeep p (by omega)).trans (h.links p hp)
  · rw [length_append, length_singleton] at hp
    exact (hkeep p (by omega)).trans (h.fresh p (by omega))

theorem Grown.appendAll {rest : List Node} (h : Grown ctx ctx' nodes) (hnodes : nodes ≠ [])
    (hfuel : (nodes ++ rest).length ≤ fuel) :
    ∃ ctx'', rest.foldlM (fun (ctx' : ParserContext) node =>
        (ctx'.add node).2.rAppend fuel ctx.astNodeList.length (ctx'.add node).1) ctx' = .ok ctx'' ∧
      Grown ctx ctx'' (nodes ++ rest) := by
  induction rest generalizing ctx' nodes with
  | nil => exact ⟨ctx', rfl, (append_nil nodes).symm ▸ h⟩
  | cons node rest ih =>
    have hle : nodes.length ≤ fuel := by
      rw [length_append] at hfuel
      omega
    obtain ⟨ctx₁, happend, h₁⟩ := h.append hnodes hle node
    obtain ⟨ctx₂, hfold, h₂⟩ := ih h₁ (by simp) (by simpa using hfuel)
    refine ⟨ctx₂, by rw [foldlM_cons, happend]; exact hfold, ?_⟩
    rwa [append_assoc] at h₂

theorem nodeList_eq (h : ctx.Fresh) (hfuel : nodes.length ≤ fuel) :
    ∃ ctx', ctx.nodeList fuel nodes = .ok ((List.range' ctx.astNodeList.length nodes.length).head?, ctx') ∧
      Grown ctx ctx' nodes := by
  cases nodes with
  | nil => exact ⟨ctx, rfl, (append_nil _).symm, ⟨trivial, .nil⟩, fun _ _ => rfl, h⟩
  | cons node nodes =>
    have hfirst : Grown ctx (ctx.add node).2 [node] := ⟨rfl, h.holds_add node, fun _ _ => rfl, h.add node⟩
    obtain ⟨ctx', hfold, hgrown⟩ := hfirst.appendAll (cons_ne_nil _ _) hfuel
    exact ⟨ctx', Res.bind_eq_ok.2 ⟨ctx', hfold, rfl⟩, hgrown⟩

/-! ## The statement -/

section Names

variable {toUpper : Bytes → Bytes}

/-- What comes of an INSERT: without column names there are no values in the statement, and with them the
second loop finds a name where it expects a value. -/
theorem insertStmt_eq (tableName : Bytes) (names values : List Bytes) (hfuel : names.length + values.length < fuel) :
    insertStmt toUpper fuel tableName names values =
      if names = [] then .ok ⟨toUpper tableName, [], []⟩ else .error .assertion := by
  have hfresh : (new.newReferenceName toUpper tableName).2.Fresh := Fresh.add (fun _ _ => rfl) _
  obtain ⟨ctx₁, hcolumns, hgrown₁⟩ := nodeList_eq hfresh
    (by rw [length_map]; omega : (names.map fun name => Node.referenceName (toUpper name)).length ≤ fuel)
  obtain ⟨ctx₂, hrow, hgrown₂⟩ := nodeList_eq hgrown₁.fresh
    (by rw [length_map]; omega : (values.map fun value => Node.expression (.constValue (.varchar value))).length ≤ fuel)
  have htable : ctx₂.heap.node 0 = some (.referenceName (toUpper tableName)) :=
    congrArg (·[0]?) (by rw [hgrown₂.astNodeList, hgrown₁.astNodeList]; rfl : ctx₂.astNodeList = _ :: _)
  have hholds : ctx₂.heap.Holds (List.range' 1 names.length) ((names.map toUpper).map .referenceName) := by
    have := holds_of_append hgrown₁.holds hgrown₂.astNodeList hgrown₂.links
    rw [length_map] at this
    rwa [map_map]
  rw [length_map] at hcolumns
  have hnames : ctx₂.heap.collect fuel Node.asReferenceName (List.range' 1 names.length).head? = .ok (names.map toUpper) :=
    hholds.collect (fun _ => rfl) (by rw [length_range']; omega)
  rw [insertStmt, optColumnList, hcolumns, Res.ok_bind, ctextRow, hrow, Res.ok_bind]
  show ctx₂.newInsertStmt fuel 0 (List.range' 1 names.length).head? _ = _
  rw [newInsertStmt, NodeHeap.cast_eq Node.asReferenceName htable rfl, Res.ok_bind, hnames, Res.ok_bind]
  obtain ⟨fuel, rfl⟩ := Nat.exists_eq_add_one_of_ne_zero (Nat.ne_zero_of_lt hfuel)
  cases names with
  | nil => rfl
  | cons name names =>
    obtain ⟨hnode, -⟩ := forall₂_cons.1 hholds.nodes
    have hcast : ctx₂.heap.cast Node.asConstValue .assertion 1 = .error .assertion := by
      rw [NodeHeap.cast, hnode]
      rfl
    rw [length_cons, range'_succ, head?_cons, NodeHeap.collect, loop_collect_error hcast]
    rfl

variable (toUpper)

def InsertParsed (tableName : Bytes) (names values : List Bytes) : Prop :=
  ∃ N, ∀ fuel ≥ N, ∃ stmt, insertStmt toUpper fuel tableName names values = .ok stmt ∧
    stmt.optColumnNameList = names.map toUpper ∧ stmt.valueList = values.map .varchar

variable {toUpper}

theorem InsertParsed.values_eq_nil {tableName : Bytes} {names values : List Bytes}
    (h : InsertParsed toUpper tableName names values) : values = [] := by
  obtain ⟨fuel, ⟨stmt, hstmt, -, hvalueList⟩, hfuel⟩ :=
    Res.exists_fuel h ⟨names.length + values.length + 1, fun _ hfuel => hfuel⟩
  rw [insertStmt_eq _ _ _ hfuel] at hstmt
  split at hstmt
  · obtain rfl := Except.ok.inj hstmt
    exact map_eq_nil_iff.1 hvalueList.symm
  · cases hstmt

theorem not_insertParsed (tableName : Bytes) (names : List Bytes) {values : List Bytes} (hvalues : values ≠ []) :
    ¬ InsertParsed toUpper tableName names values :=
  fun h => hvalues h.values_eq_nil

end Names

/-- What `boost::to_upper` does in the classic locale. -/
def classicUpper (s : Bytes) : Bytes := s.map fun c => if 0x61 ≤ c ∧ c ≤ 0x7a then c - 0x20 else c

theorem not_insertParsed_one_value : [ascii "x"] ≠ [] ∧ ¬ InsertParsed classicUpper (ascii "t") [ascii "a"] [ascii "x"] :=
  ⟨cons_ne_nil _ _, not_insertParsed _ _ (cons_ne_nil _ _)⟩

/-- `INSERT INTO t (a) VALUES ('x')` fails an assertion, and `INSERT INTO t VALUES ('x')` has no values. -/
theorem insertStmt_with_and_without_names :
    insertStmt classicUpper 3 (ascii "t") [ascii "a"] [ascii "x"] = .error .assertion ∧
    insertStmt classicUpper 3 (ascii "t") [] [ascii "x"] = .ok ⟨ascii "T", [], []⟩ ∧
    ¬ InsertParsed classicUpper (ascii "t") [ascii "a"] [ascii "x"] ∧
    ¬ InsertParsed classicUpper (ascii "t") [] [ascii "x"] :=
  ⟨rfl, rfl, fun h => cons_ne_nil _ _ h.values_eq_nil, fun h => cons_ne_nil _ _ h.values_eq_nil⟩

end ParserContext

end Dbms18
