import Dbms18.Lib.Text

/-!
# Property trees

`PropertyTree T` is the part of a property tree library that a program uses on its trees `T`: values of a
few kinds put and got under a name, children, and a list of named children. What the library does is not
defined here but assumed (`Lawful`), for names that are paths of one step.

A tree of texts is an instance: numbers are written as decimal numerals, truth values as words.
-/

namespace Dbms18

inductive PropertyKind
  | string
  | number
  | bool
deriving DecidableEq

abbrev PropertyKind.Value : PropertyKind → Type
  | string => Bytes
  | number => UInt32
  | bool => Bool

structure PropertyTree (T : Type) where
  empty : T
  put : (kind : PropertyKind) → T → Bytes → kind.Value → T
  /-- No result if it throws: there is no such child or its text is no value of the kind. -/
  get : (kind : PropertyKind) → T → Bytes → Option kind.Value
  putChild : T → Bytes → T → T
  getChild : T → Bytes → Option T
  pushBack : T → Bytes × T → T
  children : T → List (Bytes × T)

namespace PropertyTree

/-- A name without the separator of paths. -/
def Step (name : Bytes) : Prop := 0x2e ∉ name

instance (name : Bytes) : Decidable (Step name) := inferInstanceAs (Decidable (0x2e ∉ name))

/-- What is put is got back, and what is put under one name does not change what is under another. -/
structure Lawful {T : Type} (pt : PropertyTree T) : Prop where
  get_put : ∀ {kind t name v}, Step name → pt.get kind (pt.put kind t name v) name = some v
  get_put_of_ne : ∀ {kind kind' t name name' v}, Step name → Step name' → name ≠ name' →
    pt.get kind' (pt.put kind t name v) name' = pt.get kind' t name'
  get_putChild_of_ne : ∀ {kind t name name' child}, Step name → Step name' → name ≠ name' →
    pt.get kind (pt.putChild t name child) name' = pt.get kind t name'
  getChild_putChild : ∀ {t name child}, Step name → pt.getChild (pt.putChild t name child) name = some child
  getChild_putChild_of_ne : ∀ {t name name' child}, Step name → Step name' → name ≠ name' →
    pt.getChild (pt.putChild t name child) name' = pt.getChild t name'
  children_empty : pt.children pt.empty = []
  children_pushBack : ∀ {t child}, pt.children (pt.pushBack t child) = pt.children t ++ [child]

variable {T : Type} {pt : PropertyTree T}

theorem Lawful.children_foldl_pushBack (hpt : pt.Lawful) {α : Type} (child : α → Bytes × T) (as : List α) (t : T) :
    pt.children (as.foldl (fun t a => pt.pushBack t (child a)) t) = pt.children t ++ as.map child := by
  induction as generalizing t with
  | nil => simp
  | cons a as ih => rw [List.foldl_cons, ih, hpt.children_pushBack, List.map_cons, List.append_assoc, List.singleton_append]

end PropertyTree

/-! ## A tree of texts -/

inductive TextTree
  | node (data : Bytes) (children : List (Bytes × TextTree))

namespace PropertyKind

def text : (kind : PropertyKind) → kind.Value → Bytes
  | string, s => s
  | number, n => decimal n.toNat
  | bool, b => if b then ascii "true" else ascii "false"

def value : (kind : PropertyKind) → Bytes → Option kind.Value
  | string, text => some text
  | number, text =>
    let digits := text.map fun b => Char.ofNat b.toNat
    if digits ≠ [] ∧ digits.all Char.isDigit then some (Nat.ofDigitChars 10 digits 0).toUInt32 else none
  | bool, text => if text = ascii "true" then some true else if text = ascii "false" then some false else none

theorem value_text (kind : PropertyKind) (v : kind.Value) : kind.value (kind.text v) = some v := by
  cases kind with
  | string => rfl
  | bool =>
    cases v with
    | true => rfl
    | false => rfl
  | number =>
    have hdigits : (decimal (v.toNat : Int)).map (fun b => Char.ofNat b.toNat) = Nat.toDigits 10 v.toNat := by
      rw [chars_decimal, toList_toString, if_pos (Int.natCast_nonneg _), Int.toNat_natCast]
    have hall : (Nat.toDigits 10 v.toNat).all Char.isDigit = true := List.all_eq_true.2 fun c hc => isDigit_of_mem hc
    rw [text, value, hdigits, if_pos ⟨Nat.toDigits_ne_nil, hall⟩, Nat.ofDigitChars_toDigits (by decide) (by decide)]
    simp

end PropertyKind

namespace TextTree

def data : TextTree → Bytes
  | node data _ => data

def children : TextTree → List (Bytes × TextTree)
  | node _ children => children

def getChild (t : TextTree) (name : Bytes) : Option TextTree :=
  (t.children.find? fun child => child.1 = name).map Prod.snd

/-- The first child with the name changed by `f`; a new last one if there is none. -/
def modifyChildren (name : Bytes) (f : TextTree → TextTree) : List (Bytes × TextTree) → List (Bytes × TextTree)
  | [] => [(name, f (node [] []))]
  | child :: children =>
    if child.1 = name then (name, f child.2) :: children else child :: modifyChildren name f children

def modifyChild (t : TextTree) (name : Bytes) (f : TextTree → TextTree) : TextTree :=
  node t.data (modifyChildren name f t.children)

def propertyTree : PropertyTree TextTree where
  empty := node [] []
  put kind t name v := t.modifyChild name fun child => node (kind.text v) child.children
  get kind t name := do kind.value (← t.getChild name).data
  putChild t name child := t.modifyChild name fun _ => child
  getChild := getChild
  pushBack t child := node t.data (t.children ++ [child])
  children := children

variable {t : TextTree} {name name' : Bytes} {f : TextTree → TextTree}

theorem getChild_modifyChild : (t.modifyChild name f).getChild name = some (f ((t.getChild name).getD (node [] []))) := by
  have hfind : ∀ cs : List (Bytes × TextTree), ((modifyChildren name f cs).find? fun c => c.1 = name) =
      some (name, f (((cs.find? fun c => c.1 = name).map Prod.snd).getD (node [] []))) := by
    intro cs
    induction cs with
    | nil => simp [modifyChildren]
    | cons c cs ih => by_cases hc : c.1 = name <;> simp [modifyChildren, hc, ih]
  rw [getChild, modifyChild, children, hfind]
  rfl

theorem getChild_modifyChild_of_ne (hne : name ≠ name') : (t.modifyChild name f).getChild name' = t.getChild name' := by
  have hfind : ∀ cs : List (Bytes × TextTree),
      ((modifyChildren name f cs).find? fun c => c.1 = name') = cs.find? fun c => c.1 = name' := by
    intro cs
    induction cs with
    | nil => simp [modifyChildren, hne]
    | cons c cs ih =>
      by_cases hc : c.1 = name
      · simp [modifyChildren, hc, hne]
      · by_cases hc' : c.1 = name'
        · simp [modifyChildren, hc', hne.symm]
        · simp [modifyChildren, hc, hc', ih]
  rw [getChild, modifyChild, children, hfind, getChild]

theorem lawful : propertyTree.Lawful where
  get_put {kind t name v} _ := by
    show ((t.modifyChild name _).getChild name).bind _ = _
    rw [getChild_modifyChild]
    exact kind.value_text v
  get_put_of_ne {kind kind' t name name' v} _ _ hne := by
    show ((t.modifyChild name _).getChild name').bind _ = (t.getChild name').bind _
    rw [getChild_modifyChild_of_ne hne]
  get_putChild_of_ne {kind t name name' child} _ _ hne := by
    show ((t.modifyChild name _).getChild name').bind _ = (t.getChild name').bind _
    rw [getChild_modifyChild_of_ne hne]
  getChild_putChild _ := getChild_modifyChild
  getChild_putChild_of_ne _ _ hne := getChild_modifyChild_of_ne hne
  children_empty := rfl
  children_pushBack := rfl

end TextTree

end Dbms18
