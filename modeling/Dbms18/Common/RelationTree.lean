import Dbms18.Common.Relation
import Dbms18.Lib.PropertyTree

/-!
# Relations as property trees (`include/common/relation.h`, `attribute.h`)

`ToPropertyTree` writes a relation with its attributes and the pages it is stored in, and
`InitByPropertyTree` reads them into a relation. An attribute's relation id and index are not read: they
are given by `AddAttribute`, as they were when the relation was built (`initByPropertyTree_toPropertyTree`).
-/

namespace Dbms18

structure PageID where
  fileno : UInt32 := 0xffffffff
  pageno : UInt32 := 0xffffffff
deriving DecidableEq

structure PagedRelation extends Relation where
  firstDataPageid : PageID := {}
  lastDataPageid : PageID := {}
  firstExtentPageid : PageID := {}
  lastExtentPageid : PageID := {}
deriving DecidableEq

/-! ## The names of the fields (`include/common/define.h`) -/

def strName : Bytes := ascii "NAME"
def strID : Bytes := ascii "ID"
def strRelationID : Bytes := ascii "RELATION_ID"
def strMaxLength : Bytes := ascii "MAX_LENGTH"
def strDataType : Bytes := ascii "DATA_TYPE"
def strIsNull : Bytes := ascii "IS_NULL"
def strIsVariable : Bytes := ascii "IS_VARIABLE"
def strFirstDataPage : Bytes := ascii "FIRST_DATA_PAGE"
def strLastDataPage : Bytes := ascii "LAST_DATA_PAGE"
def strFirstExtent : Bytes := ascii "FIRST_EXTENT"
def strLastExtent : Bytes := ascii "LAST_EXTENT"
def strFileNo : Bytes := ascii "FILE_NO"
def strPageNo : Bytes := ascii "PAGE_NO"
def strAttributeList : Bytes := ascii "ATTRIBUTE_LIST"

section

variable {T : Type} (pt : PropertyTree T)

/-- `PageIDToPropertyTree`. -/
def PageID.toPropertyTree (pageid : PageID) : T :=
  pt.put .number (pt.put .number pt.empty strFileNo pageid.fileno) strPageNo pageid.pageno

def PageID.ofChild (tree : T) (name : Bytes) : Option PageID := do
  let idTree ← pt.getChild tree name
  return ⟨← pt.get .number idTree strFileNo, ← pt.get .number idTree strPageNo⟩

namespace Attribute

def toPropertyTree (a : Attribute) : T :=
  let t := pt.put .string pt.empty strName a.name
  let t := pt.put .number t strID a.id
  let t := pt.put .number t strRelationID a.relationId
  let t := pt.put .number t strMaxLength a.maxLength
  let t := pt.put .number t strDataType a.dataType.code.toUInt32
  let t := pt.put .bool t strIsNull a.isNull
  pt.put .bool t strIsVariable a.isVariable

/-- A fresh attribute filled from the tree; `none` if `get` throws. -/
def initFromPropertyTree (tree : T) : Option Attribute := do
  let name ← pt.get .string tree strName
  let id ← pt.get .number tree strID
  let relationId ← pt.get .number tree strRelationID
  let maxLength ← pt.get .number tree strMaxLength
  let dataType ← DataType.ofCode (← pt.get .number tree strDataType).toNat
  let isNull ← pt.get .bool tree strIsNull
  let isVariable ← pt.get .bool tree strIsVariable
  return { name, id, relationId, maxLength, dataType, isNull, isVariable }

end Attribute

namespace PagedRelation

def setName (r : PagedRelation) (name : Bytes) : PagedRelation := { r with name }
def setID (r : PagedRelation) (id : RelationId) : PagedRelation := { r with id }
def setFirstDataPageID (r : PagedRelation) (pageid : PageID) : PagedRelation := { r with firstDataPageid := pageid }
def setLastDataPageID (r : PagedRelation) (pageid : PageID) : PagedRelation := { r with lastDataPageid := pageid }
def setFirstExtentPageID (r : PagedRelation) (pageid : PageID) : PagedRelation := { r with firstExtentPageid := pageid }
def setLastExtentPageID (r : PagedRelation) (pageid : PageID) : PagedRelation := { r with lastExtentPageid := pageid }

def addAttribute (r : PagedRelation) (a : Attribute) (append : Bool) : PagedRelation :=
  { r with toRelation := r.toRelation.addAttribute a append }

/-- The children of `ATTRIBUTE_LIST` are named by their numbers. -/
def attributeTree (as : List Attribute) : T :=
  as.zipIdx.foldl (fun t a => pt.pushBack t (decimal a.2, a.1.toPropertyTree pt)) pt.empty

def toPropertyTree (r : PagedRelation) : T :=
  let t := pt.put .string pt.empty strName r.name
  let t := pt.put .number t strID r.id
  let t := pt.putChild t strFirstDataPage (r.firstDataPageid.toPropertyTree pt)
  let t := pt.putChild t strLastDataPage (r.lastDataPageid.toPropertyTree pt)
  let t := pt.putChild t strFirstExtent (r.firstExtentPageid.toPropertyTree pt)
  let t := pt.putChild t strLastExtent (r.lastExtentPageid.toPropertyTree pt)
  pt.putChild t strAttributeList (attributeTree pt r.attributes)

def initByPropertyTree (r : PagedRelation) (tree : T) : Option PagedRelation := do
  let r := r.setName (← pt.get .string tree strName)
  let r := r.setID (← pt.get .number tree strID)
  let r := r.setFirstDataPageID (← PageID.ofChild pt tree strFirstDataPage)
  let r := r.setLastDataPageID (← PageID.ofChild pt tree strLastDataPage)
  let r := r.setFirstExtentPageID (← PageID.ofChild pt tree strFirstExtent)
  let r := r.setLastExtentPageID (← PageID.ofChild pt tree strLastExtent)
  let attributesTree ← pt.getChild tree strAttributeList
  (pt.children attributesTree).foldlM
    (fun r child => do return r.addAttribute (← Attribute.initFromPropertyTree pt child.2) true) r

end PagedRelation

end

/-! ## Reading back -/

section

variable {T : Type} {pt : PropertyTree T} (hpt : pt.Lawful)

include hpt

theorem PageID.ofChild_eq {tree : T} {name : Bytes} {pageid : PageID}
    (h : pt.getChild tree name = some (pageid.toPropertyTree pt)) : ofChild pt tree name = some pageid := by
  have hfile : pt.get .number (pageid.toPropertyTree pt) strFileNo = some pageid.fileno := by
    simp (disch := decide) only [toPropertyTree, hpt.get_put, hpt.get_put_of_ne]
  have hpage : pt.get .number (pageid.toPropertyTree pt) strPageNo = some pageid.pageno := hpt.get_put (by decide)
  simp [ofChild, h, hfile, hpage]

theorem Attribute.initFromPropertyTree_toPropertyTree (a : Attribute) :
    initFromPropertyTree pt (a.toPropertyTree pt) = some { a with attributeIndex := 0 } := by
  have hcode : a.dataType.code.toUInt32.toNat = a.dataType.code := by
    have := a.dataType.code_lt
    simp
    omega
  simp (disch := decide) only [initFromPropertyTree, toPropertyTree, hpt.get_put, hpt.get_put_of_ne]
  simp [hcode]

namespace PagedRelation

theorem children_attributeTree (as : List Attribute) :
    pt.children (attributeTree pt as) = as.zipIdx.map fun a => (decimal a.2, a.1.toPropertyTree pt) := by
  rw [attributeTree, hpt.children_foldl_pushBack, hpt.children_empty, List.nil_append]

omit hpt

def withAttributes (r : PagedRelation) (attributes : List Attribute) : PagedRelation := { r with attributes }

/-- Every attribute has the id of the relation and its own position as the index. -/
def Numbered (r : PagedRelation) : Prop :=
  ∀ (i : Nat) (a : Attribute), r.attributes[i]? = some a → a.relationId = r.id ∧ a.attributeIndex = i.toUInt32

include hpt in
theorem foldlM_addAttribute {r : PagedRelation} {before after : List Attribute}
    (h : (r.withAttributes (before ++ after)).Numbered) :
    ((after.zipIdx before.length).map fun a => (decimal a.2, a.1.toPropertyTree pt)).foldlM
        (fun r child => do return r.addAttribute (← Attribute.initFromPropertyTree pt child.2) true)
        (r.withAttributes before) = some (r.withAttributes (before ++ after)) := by
  induction after generalizing before with
  | nil => simp
  | cons a after ih =>
    have hnumber : a.relationId = r.id ∧ a.attributeIndex = before.length.toUInt32 :=
      h before.length a (by simp [withAttributes])
    have hadd : (r.withAttributes before).addAttribute { a with attributeIndex := 0 } true =
        r.withAttributes (before ++ [a]) := by
      have ha : { a with relationId := r.id, attributeIndex := before.length.toUInt32 } = a := by
        rw [← hnumber.1, ← hnumber.2]
      exact congrArg (fun b => r.withAttributes (before ++ [b])) ha
    rw [List.zipIdx_cons, List.map_cons, List.foldlM_cons, Attribute.initFromPropertyTree_toPropertyTree hpt]
    have h' : (r.withAttributes ((before ++ [a]) ++ after)).Numbered := by rwa [List.append_assoc]
    have hrest := ih h'
    rw [List.append_assoc, List.length_append] at hrest
    simpa [hadd] using hrest

/-- The relations that are built by the setters and by `AddAttribute` in append mode; the id is set before
there are attributes. -/
inductive Built : PagedRelation → Prop
  | new : Built {}
  | setName {r : PagedRelation} (hr : Built r) (name : Bytes) : Built (r.setName name)
  | setID {r : PagedRelation} (hr : Built r) (hnil : r.attributes = []) (id : RelationId) : Built (r.setID id)
  | setFirstDataPageID {r : PagedRelation} (hr : Built r) (pageid : PageID) : Built (r.setFirstDataPageID pageid)
  | setLastDataPageID {r : PagedRelation} (hr : Built r) (pageid : PageID) : Built (r.setLastDataPageID pageid)
  | setFirstExtentPageID {r : PagedRelation} (hr : Built r) (pageid : PageID) : Built (r.setFirstExtentPageID pageid)
  | setLastExtentPageID {r : PagedRelation} (hr : Built r) (pageid : PageID) : Built (r.setLastExtentPageID pageid)
  | addAttribute {r : PagedRelation} (hr : Built r) (a : Attribute) : Built (r.addAttribute a true)

theorem Numbered.addAttribute {r : PagedRelation} (h : r.Numbered) (a : Attribute) : (r.addAttribute a true).Numbered := by
  intro i b hb
  have hb : (r.attributes ++ [{ a with relationId := r.id, attributeIndex := r.attributes.length.toUInt32 }])[i]? =
      some b := hb
  rcases Nat.lt_or_ge i r.attributes.length with hi | hi
  · rw [List.getElem?_append_left hi] at hb
    exact h i b hb
  · rw [List.getElem?_append_right hi, List.getElem?_singleton, Option.ite_none_right_eq_some] at hb
    obtain ⟨hzero, hb⟩ := hb
    obtain rfl := Option.some.inj hb
    obtain rfl : i = r.attributes.length := by omega
    exact ⟨rfl, rfl⟩

theorem Built.numbered {r : PagedRelation} (h : Built r) : r.Numbered := by
  induction h with
  | new => intro i a ha; cases ha
  | setID hr hnil id ih =>
    intro i a ha
    simp [PagedRelation.setID, hnil] at ha
  | setName hr _ ih | setFirstDataPageID hr _ ih | setLastDataPageID hr _ ih | setFirstExtentPageID hr _ ih
    | setLastExtentPageID hr _ ih => exact ih
  | addAttribute hr a ih => exact ih.addAttribute a

include hpt in
theorem initByPropertyTree_of_numbered {r : PagedRelation} (h : r.Numbered) :
    initByPropertyTree pt {} (r.toPropertyTree pt) = some r := by
  have hname : pt.get .string (r.toPropertyTree pt) strName = some r.name := by
    simp (disch := decide) only [toPropertyTree, hpt.get_put, hpt.get_put_of_ne, hpt.get_putChild_of_ne]
  have hid : pt.get .number (r.toPropertyTree pt) strID = some r.id := by
    simp (disch := decide) only [toPropertyTree, hpt.get_put, hpt.get_putChild_of_ne]
  have hfirstData : PageID.ofChild pt (r.toPropertyTree pt) strFirstDataPage = some r.firstDataPageid :=
    PageID.ofChild_eq hpt (by
      simp (disch := decide) only [toPropertyTree, hpt.getChild_putChild, hpt.getChild_putChild_of_ne])
  have hlastData : PageID.ofChild pt (r.toPropertyTree pt) strLastDataPage = some r.lastDataPageid :=
    PageID.ofChild_eq hpt (by
      simp (disch := decide) only [toPropertyTree, hpt.getChild_putChild, hpt.getChild_putChild_of_ne])
  have hfirstExtent : PageID.ofChild pt (r.toPropertyTree pt) strFirstExtent = some r.firstExtentPageid :=
    PageID.ofChild_eq hpt (by
      simp (disch := decide) only [toPropertyTree, hpt.getChild_putChild, hpt.getChild_putChild_of_ne])
  have hlastExtent : PageID.ofChild pt (r.toPropertyTree pt) strLastExtent = some r.lastExtentPageid :=
    PageID.ofChild_eq hpt (by
      simp (disch := decide) only [toPropertyTree, hpt.getChild_putChild, hpt.getChild_putChild_of_ne])
  have hlist : pt.getChild (r.toPropertyTree pt) strAttributeList = some (attributeTree pt r.attributes) :=
    hpt.getChild_putChild (by decide)
  simp only [initByPropertyTree, hname, hid, hfirstData, hlastData, hfirstExtent, hlastExtent, hlist,
    Option.bind_eq_bind, Option.bind_some, children_attributeTree hpt]
  exact foldlM_addAttribute hpt (show (r.withAttributes ([] ++ r.attributes)).Numbered from h)

/-- A relation that was built by its setters and by `AddAttribute` in append mode comes back from its
property tree as it was. -/
theorem initByPropertyTree_toPropertyTree (hpt : pt.Lawful) {r : PagedRelation} (hr : Built r) :
    initByPropertyTree pt {} (r.toPropertyTree pt) = some r :=
  initByPropertyTree_of_numbered hpt hr.numbered

def twoColumns : PagedRelation :=
  (((setID {} 7).setLastDataPageID ⟨1, 2⟩).addAttribute { name := ascii "a", dataType := .integer } true).addAttribute
    { name := ascii "b", id := 1, dataType := .varchar, isNull := true } true

theorem initByPropertyTree_toPropertyTree_twoColumns :
    initByPropertyTree TextTree.propertyTree {} (twoColumns.toPropertyTree TextTree.propertyTree) = some twoColumns :=
  initByPropertyTree_toPropertyTree TextTree.lawful
    (.addAttribute (.addAttribute (.setLastDataPageID (.setID .new rfl 7) _) _) _)

end PagedRelation

end

end Dbms18
