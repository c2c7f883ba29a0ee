import Dbms18.Lib.Text
import Dbms18.Parser.NodeHeap

/-!
# The lists of a parse tree (`include/parser/ast_base.h`, `parser/parser_context.cpp`)

Every list of the grammar is threaded through its nodes' own links. `RAppend` goes to the end of the list
and links the head of another list behind it, so an item may itself be a list in parentheses. The functions
that make the statements go through the links once and put what they find into vectors. Both come to an
end, and the vectors hold the items in their order (`listsBuilt`).
-/

namespace Dbms18

open Res List

namespace NodeHeap

def newCreateStmt (fuel : Nat) (h : NodeHeap) (tableName : Nat) (colDefList : Option Nat) : Res CreateStmt := do
  let name ← h.cast Node.asReferenceName .nullPointer tableName
  let columnDefineList ← h.collect fuel Node.asColumnDefine colDefList
  return ⟨name, columnDefineList⟩

/-- `SelectStmt` with all that the parser puts into it. -/
structure SelectLists where
  selectList : List SelectTarget
  tableReference : List TableFactor
  optWhere : List ExpressionBase
  optGroup : List ExpressionBase
  optOrder : List OrderClause
deriving DecidableEq

/-- What the realizer looks at. -/
def SelectLists.stmt (s : SelectLists) : SelectStmt where
  selectList := s.selectList.map SelectTarget.expression
  tableReference := s.tableReference
  optWhere := s.optWhere
  optGroupBy := s.optGroup
  optOrderBy := s.optOrder.map OrderClause.expression

/-- `opt_have` is not used. -/
def newSelectStmt (fuel : Nat) (h : NodeHeap) (selList tblRefList optWhere optGroup _optHave optOrder : Option Nat) :
    Res SelectLists := do
  let selectList ← h.collect fuel Node.asSelectTarget selList
  let tableReference ← h.collect fuel Node.asTableFactor tblRefList
  let optWhere ← h.collect fuel Node.asExpressionBase optWhere
  let optGroup ← h.collect fuel Node.asExpressionBase optGroup
  let optOrder ← h.collect fuel Node.asOrderClause optOrder
  return ⟨selectList, tableReference, optWhere, optGroup, optOrder⟩

/-- The file path of COPY, unless the pointer is null. -/
def filePath (h : NodeHeap) : Option Nat → Res (Option Bytes)
  | none => .ok none
  | some p => do
    match ← h.cast Node.asConstValue .assertion p with
    | .varchar value => return some value
    | .integer _ => return some []

/-- The delimiter of COPY FROM: a comma, unless one character is given. -/
def copyDelimiter : Option Bytes → UInt8
  | some [c] => c
  | _ => 0x2c

/-- The statement, and `opt_column_name_list_`, which nothing reads. -/
def newLoadStmt (fuel : Nat) (h : NodeHeap) (tableName : Nat) (optColumnNameList path : Option Nat)
    (delimiter : Option Bytes) : Res (LoadStmt × List Bytes) := do
  let name ← h.cast Node.asReferenceName .assertion tableName
  let columnNames ← h.collect fuel Node.asReferenceName optColumnNameList
  let file ← h.filePath path
  return (⟨name, file.getD [], file.isNone, copyDelimiter delimiter⟩, columnNames)

/-- The delimiter is not used. -/
def newExportStmt (fuel : Nat) (h : NodeHeap) (tableName : Nat) (optColumnNameList path : Option Nat)
    (_delimiter : Option Bytes) : Res (ExportStmt × List Bytes) := do
  let name ← h.cast Node.asReferenceName .assertion tableName
  let columnNames ← h.collect fuel Node.asReferenceName optColumnNameList
  let file ← h.filePath path
  return (⟨name, file.getD [], file.isNone⟩, columnNames)

/-- The actions of a list: every further item is appended to the first one. -/
def appendItems (fuel : Nat) (h : NodeHeap) (first : Nat) (items : List Nat) : Res NodeHeap :=
  items.foldlM (fun h item => h.rAppend fuel first item) h

/-! ## Appending -/

variable {h h' : NodeHeap} {ps qs : List Nat} {nodes nodes' : List Node} {fuel : Nat}

theorem Holds.appendItems {first : Nat} {items : List Nat} {pieces : List (List Nat × List Node)} (hps : h.Holds ps nodes)
    (hfirst : first ∈ ps) (hpieces : ∀ piece ∈ pieces, h.Holds piece.1 piece.2)
    (hitems : List.Forall₂ (fun item piece => piece.1.head? = some item) items pieces)
    (hnodup : (ps ++ pieces.flatMap Prod.fst).Nodup) (hfuel : (ps ++ pieces.flatMap Prod.fst).length ≤ fuel) :
    ∃ h', h.appendItems fuel first items = .ok h' ∧
      h'.Holds (ps ++ pieces.flatMap Prod.fst) (nodes ++ pieces.flatMap Prod.snd) := by
  induction hitems generalizing h ps nodes with
  | nil => exact ⟨h, rfl, by simpa using hps⟩
  | @cons item piece items pieces hitem _ ih =>
    obtain ⟨hpiece, hpieces⟩ := forall_mem_cons.1 hpieces
    rw [flatMap_cons, ← append_assoc] at hnodup hfuel
    rw [flatMap_cons, flatMap_cons, ← append_assoc, ← append_assoc]
    have hle : ps.length ≤ fuel := by
      rw [length_append, length_append] at hfuel
      omega
    obtain ⟨h₁, happend, hholds, hnode, hframe⟩ :=
      hps.rAppend hpiece (disjoint_of_nodup_append hnodup.of_append_left) hfirst hitem hle
    -- the lists that are still to come are elsewhere
    have hpieces' : ∀ piece' ∈ pieces, h₁.Holds piece'.1 piece'.2 := by
      intro piece' hpiece'
      refine (hpieces piece' hpiece').frame (fun hp => by rwa [hnode]) fun p hp => ?_
      have hnot : p ∉ ps ++ piece.1 := fun hmem =>
        disjoint_of_nodup_append hnodup hmem (mem_flatMap.2 ⟨piece', hpiece', hp⟩)
      rw [mem_append, not_or] at hnot
      exact hframe p hnot.1 hnot.2
    obtain ⟨h₂, hrest, hholds₂⟩ := ih hholds (mem_append_left _ hfirst) hpieces' hnodup hfuel
    exact ⟨h₂, bind_eq_ok.2 ⟨h₁, happend, hrest⟩, hholds₂⟩

/-! ## The statements -/

variable {table : Nat} {name : Bytes}

theorem newCreateStmt_eq {columns : List ColumnDefine} (htable : h.node table = some (.referenceName name))
    (hps : h.Holds ps (columns.map .columnDefine)) (hfuel : ps.length < fuel) :
    h.newCreateStmt fuel table ps.head? = .ok ⟨name, columns⟩ := by
  rw [newCreateStmt, cast_eq Node.asReferenceName htable rfl, ok_bind, hps.collect (fun _ => rfl) hfuel]
  rfl

theorem newSelectStmt_eq {s : SelectLists} {sel tbl whr grp ord : List Nat}
    (hsel : h.Holds sel (s.selectList.map .selectTarget)) (htbl : h.Holds tbl (s.tableReference.map .tableFactor))
    (hwhr : h.Holds whr (s.optWhere.map .expression)) (hgrp : h.Holds grp (s.optGroup.map .expression))
    (hord : h.Holds ord (s.optOrder.map .orderClause)) (optHave : Option Nat)
    (hfuel : sel.length + tbl.length + whr.length + grp.length + ord.length < fuel) :
    h.newSelectStmt fuel sel.head? tbl.head? whr.head? grp.head? optHave ord.head? = .ok s := by
  rw [newSelectStmt, hsel.collect (fun _ => rfl) (by omega), ok_bind, htbl.collect (fun _ => rfl) (by omega),
    ok_bind, hwhr.collect (fun _ => rfl) (by omega), ok_bind, hgrp.collect (fun _ => rfl) (by omega),
    ok_bind, hord.collect (fun _ => rfl) (by omega)]
  rfl

def Path (h : NodeHeap) (path : Option Nat) (file : Option Bytes) : Prop :=
  match path, file with
  | none, none => True
  | some p, some file => h.node p = some (.expression (.constValue (.varchar file)))
  | _, _ => False

variable {path : Option Nat} {file : Option Bytes}

theorem filePath_eq (hpath : h.Path path file) : h.filePath path = .ok file := by
  cases path with
  | none =>
    cases file with
    | none => rfl
    | some => cases hpath
  | some p =>
    cases file with
    | none => cases hpath
    | some file =>
      rw [filePath, cast_eq Node.asConstValue hpath rfl]
      rfl

theorem newLoadStmt_eq {columnNames : List Bytes}
    (htable : h.node table = some (.referenceName name)) (hps : h.Holds ps (columnNames.map .referenceName))
    (hpath : h.Path path file) (delimiter : Option Bytes) (hfuel : ps.length < fuel) :
    h.newLoadStmt fuel table ps.head? path delimiter =
      .ok (⟨name, file.getD [], file.isNone, copyDelimiter delimiter⟩, columnNames) := by
  rw [newLoadStmt, cast_eq Node.asReferenceName htable rfl, ok_bind, hps.collect (fun _ => rfl) hfuel, ok_bind,
    filePath_eq hpath]
  rfl

theorem newExportStmt_eq {columnNames : List Bytes}
    (htable : h.node table = some (.referenceName name)) (hps : h.Holds ps (columnNames.map .referenceName))
    (hpath : h.Path path file) (delimiter : Option Bytes) (hfuel : ps.length < fuel) :
    h.newExportStmt fuel table ps.head? path delimiter = .ok (⟨name, file.getD [], file.isNone⟩, columnNames) := by
  rw [newExportStmt, cast_eq Node.asReferenceName htable rfl, ok_bind, hps.collect (fun _ => rfl) hfuel, ok_bind,
    filePath_eq hpath]
  rfl

structure ListsBuilt (h : NodeHeap) : Prop where
  /-- Appended to any node of a list, another list comes behind it. -/
  rAppend : ∀ {xs ys x y}, Chain h.links none xs none → Chain h.links none ys none → xs.Disjoint ys → x ∈ xs →
    ys.head? = some y → ∃ N, ∀ fuel ≥ N, ∃ h', h.rAppend fuel x y = .ok h' ∧ Chain h'.links none (xs ++ ys) none ∧
      h'.node = h.node ∧ ∀ p, p ∉ xs → p ∉ ys → h'.links p = h.links p
  /-- A list of items, of which each may be a list. -/
  appendItems : ∀ {ps nodes first items} {pieces : List (List Nat × List Node)}, h.Holds ps nodes → ps.head? = some first →
    (∀ piece ∈ pieces, h.Holds piece.1 piece.2) →
    List.Forall₂ (fun item piece => piece.1.head? = some item) items pieces →
    (ps ++ pieces.flatMap Prod.fst).Nodup → ∃ N, ∀ fuel ≥ N, ∃ h', h.appendItems fuel first items = .ok h' ∧
      h'.Holds (ps ++ pieces.flatMap Prod.fst) (nodes ++ pieces.flatMap Prod.snd)
  select : ∀ {s : SelectLists} {sel tbl whr grp ord}, h.Holds sel (s.selectList.map .selectTarget) →
    h.Holds tbl (s.tableReference.map .tableFactor) → h.Holds whr (s.optWhere.map .expression) →
    h.Holds grp (s.optGroup.map .expression) → h.Holds ord (s.optOrder.map .orderClause) →
    ∀ optHave, ∃ N, ∀ fuel ≥ N, h.newSelectStmt fuel sel.head? tbl.head? whr.head? grp.head? optHave ord.head? = .ok s
  create : ∀ {table name ps} {columns : List ColumnDefine}, h.node table = some (.referenceName name) →
    h.Holds ps (columns.map .columnDefine) → ∃ N, ∀ fuel ≥ N, h.newCreateStmt fuel table ps.head? = .ok ⟨name, columns⟩
  copyFrom : ∀ {table name ps path file} {columnNames : List Bytes}, h.node table = some (.referenceName name) →
    h.Holds ps (columnNames.map .referenceName) → h.Path path file → ∀ delimiter, ∃ N, ∀ fuel ≥ N, ∃ stmt,
      h.newLoadStmt fuel table ps.head? path delimiter = .ok (stmt, columnNames)
  copyTo : ∀ {table name ps path file} {columnNames : List Bytes}, h.node table = some (.referenceName name) →
    h.Holds ps (columnNames.map .referenceName) → h.Path path file → ∀ delimiter, ∃ N, ∀ fuel ≥ N, ∃ stmt,
      h.newExportStmt fuel table ps.head? path delimiter = .ok (stmt, columnNames)

theorem listsBuilt (h : NodeHeap) : h.ListsBuilt where
  rAppend {xs ys x y} hxs hys hdisjoint hx hy := by
    refine ⟨xs.length, fun fuel hfuel => ?_⟩
    obtain ⟨links', hlinks', hchain, hframe⟩ := LinkHeap.rAppend_eq hxs hys hdisjoint hx hy hfuel
    exact ⟨⟨h.node, links'⟩, by rw [NodeHeap.rAppend, hlinks']; rfl, hchain, rfl, hframe⟩
  appendItems {ps} {_} {_} {_} {pieces} hps hfirst hpieces hitems hnodup :=
    ⟨(ps ++ pieces.flatMap Prod.fst).length, fun _ hfuel =>
      hps.appendItems (mem_of_head? hfirst) hpieces hitems hnodup hfuel⟩
  select hsel htbl hwhr hgrp hord optHave := ⟨_, fun _ hfuel => newSelectStmt_eq hsel htbl hwhr hgrp hord optHave hfuel⟩
  create htable hps := ⟨_, fun _ hfuel => newCreateStmt_eq htable hps hfuel⟩
  copyFrom htable hps hpath delimiter := ⟨_, fun _ hfuel => ⟨_, newLoadStmt_eq htable hps hpath delimiter hfuel⟩⟩
  copyTo htable hps hpath delimiter := ⟨_, fun _ hfuel => ⟨_, newExportStmt_eq htable hps hpath delimiter hfuel⟩⟩

def twoLists : NodeHeap where
  node p := ([ascii "A", ascii "B", ascii "C", ascii "D", ascii "T"].map Node.referenceName)[p]?
  links
    | 0 => ⟨none, some 1⟩
    | 1 => ⟨some 0, none⟩
    | 2 => ⟨none, some 3⟩
    | 3 => ⟨some 2, none⟩
    | _ => Links.null

/-- Appended, they are the column names of one `COPY T (A, B, C, D) FROM STDIN`. -/
theorem listsBuilt_two : ∃ fuel h', twoLists.rAppend fuel 0 2 = .ok h' ∧ ∃ N, ∀ fuel ≥ N, ∃ stmt,
    h'.newLoadStmt fuel 4 (some 0) none none = .ok (stmt, [ascii "A", ascii "B", ascii "C", ascii "D"]) := by
  have hxs : Chain twoLists.links none [0, 1] none := ⟨rfl, rfl, trivial⟩
  have hys : Chain twoLists.links none [2, 3] none := ⟨rfl, rfl, trivial⟩
  have hdisjoint : List.Disjoint [0, 1] [2, 3] := by simp
  obtain ⟨fuel, hfuel⟩ := (listsBuilt twoLists).rAppend hxs hys hdisjoint (mem_cons_self : 0 ∈ [0, 1]) rfl
  obtain ⟨⟨node, links⟩, happend, hchain, rfl, -⟩ := hfuel fuel le_rfl
  refine ⟨fuel, _, happend, ?_⟩
  have hholds : NodeHeap.Holds ⟨twoLists.node, links⟩ [0, 1, 2, 3]
      ([ascii "A", ascii "B", ascii "C", ascii "D"].map .referenceName) :=
    ⟨hchain, .cons rfl (.cons rfl (.cons rfl (.cons rfl .nil)))⟩
  have htable : NodeHeap.node ⟨twoLists.node, links⟩ 4 = some (.referenceName (ascii "T")) := rfl
  have hpath : NodeHeap.Path ⟨twoLists.node, links⟩ none none := trivial
  exact (listsBuilt ⟨twoLists.node, links⟩).copyFrom htable hholds hpath none

end NodeHeap

end Dbms18
