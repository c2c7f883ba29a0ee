import Mathlib.Data.List.Perm.Basic
import Mathlib.Data.List.Dedup
import Dbms18.Common.Relation
import Dbms18.Lib.Text

/-!
# The catalog of `LevelStore` (`storage/level_store.cpp`)

`CreateRelation` registers a relation in memory and writes its records to the two catalog databases.
`Start` reads them back. The keys of the records are random, so what is known about the order in
which they come back is only that it is some permutation of the order they were written in.
-/

namespace Dbms18

structure ColumnSchema where
  name : Bytes
  dataType : DataType
  length : Int32
  isNull : Bool
deriving DecidableEq

structure TableSchema where
  name : Bytes
  columnList : List ColumnSchema
deriving DecidableEq

/-- The maps hold positions in `all_relations_`, where the source has pointers to its elements. -/
structure Catalog where
  allRelations : List Relation
  nameRelMap : Bytes → Option Nat
  idRelMap : RelationId → Option Nat

/-- The values of the records in the two catalog databases, in the order they were put. -/
structure CatalogFiles where
  sysClass : List Bytes
  sysAttribute : List Bytes

structure CatalogStore where
  catalog : Catalog
  files : CatalogFiles

namespace Catalog

def empty : Catalog := ⟨[], fun _ => none, fun _ => none⟩

def getRelation (c : Catalog) (name : Bytes) : Option Relation :=
  (c.nameRelMap name).bind fun i => c.allRelations[i]?

def insertRelation (c : Catalog) (r : Relation) : Catalog × Bool :=
  if (c.nameRelMap r.name).isSome || (c.idRelMap r.id).isSome then (c, false)
  else
    let i := c.allRelations.length
    (⟨c.allRelations ++ [r], Function.update c.nameRelMap r.name (some i),
      Function.update c.idRelMap r.id (some i)⟩, true)

/-- `GenRelationID`, where `rand` returns `draws`. -/
def genRelationID (c : Catalog) : List RelationId → Res RelationId
  | [] => .error .outOfFuel
  | id :: draws => if (c.idRelMap id).isNone then .ok id else c.genRelationID draws

def readRelation (c : Catalog) (value : Bytes) : Res Catalog := do
  let r ← Relation.fromTuple (Cells.ofBytes value)
  return (c.insertRelation r).1

def readAttribute (c : Catalog) (value : Bytes) : Res Catalog := do
  let a ← Attribute.fromTuple (Cells.ofBytes value)
  let i ← Res.getD (c.idRelMap a.relationId) .assertion
  return { c with allRelations := c.allRelations.modify i fun r => r.addAttribute a false }

/-- `ReadSystemTable`, where the two databases iterate the records as given. -/
def readSystemTable (c : Catalog) (sysClass sysAttribute : List Bytes) : Res Catalog := do
  let c ← sysClass.foldlM readRelation c
  sysAttribute.foldlM readAttribute c

end Catalog

namespace CatalogFiles

def writeRelMeta (f : CatalogFiles) (r : Relation) : Res CatalogFiles := do
  let value ← r.record
  let attributes ← r.attributes.mapM Attribute.record
  return ⟨f.sysClass ++ [value], f.sysAttribute ++ attributes⟩

end CatalogFiles

/-- The relations `CreateSystemTable` describes. -/
def sysClassRelation : Relation :=
  (Relation.addAttribute { name := ascii "sys_class", id := 0 }
    { name := ascii "id", id := 0, dataType := .integer, maxLength := 8 } true).addAttribute
    { name := ascii "name", id := 1, dataType := .varchar, maxLength := 512 } true

def sysAttributeRelation : Relation :=
  ((((Relation.addAttribute { name := ascii "sys_attribute", id := 1 }
    { name := ascii "id", id := 0, dataType := .integer, maxLength := 8 } true).addAttribute
    { name := ascii "rel_id", id := 1, dataType := .integer, maxLength := 8 } true).addAttribute
    { name := ascii "name", id := 2, dataType := .varchar, maxLength := 512 } true).addAttribute
    { name := ascii "type", id := 3, dataType := .integer, maxLength := 8 } true).addAttribute
    { name := ascii "size", id := 4, dataType := .integer, maxLength := 8 } true

/-- `InitDB` on a new directory. -/
def initDB : Res CatalogFiles := do
  let f ← CatalogFiles.writeRelMeta ⟨[], []⟩ sysClassRelation
  f.writeRelMeta sysAttributeRelation

namespace CatalogStore

/-- One pass of the loop in `CreateRelation`. -/
def columnAttribute (col : ColumnSchema) (i : Nat) : Res Attribute :=
  let make := fun size isVariable =>
    { name := col.name, id := i.toUInt32, dataType := col.dataType, isNull := col.isNull,
      maxLength := size, isVariable }
  match col.dataType with
  | .integer => .ok (make 8 false)
  | .float => .ok (make 8 false)
  | .varchar => .ok (make col.length.toUInt32 true)
  | .date => .ok (make 8 false)
  | _ => .error .assertion

def schemaRelation (schema : TableSchema) (id : RelationId) : Res Relation :=
  schema.columnList.zipIdx.foldlM (fun r col => do return r.addAttribute (← columnAttribute col.1 col.2) true)
    { name := schema.name, id }

def createRelation (s : CatalogStore) (schema : TableSchema) (draws : List RelationId) :
    Res (CatalogStore × Bool) := do
  let id ← s.catalog.genRelationID draws
  let r ← schemaRelation schema id
  let files ← s.files.writeRelMeta r
  return (⟨(s.catalog.insertRelation r).1, files⟩, true)

end CatalogStore

end Dbms18
