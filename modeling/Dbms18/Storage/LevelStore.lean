import Dbms18.Common.Relation
import Dbms18.Storage.WriteHandler

/-!
# The handlers of `LevelStore` (`storage/level_store.cpp`)

`LevelStore` keeps at most one iterator handler and one write handler per relation, hands them out
with a reference count, and deletes a handler when `DeleteIOObject` has brought its count to zero.
A handler holds its relation's database open from its construction to its deletion. leveldb lets a
path be open once in a process: `opened` is its lock table, indexed by the relation id since
`GetDBFilePath` gives every id its own path.

Handlers are addressed by the order of their construction, so an address is never used again and
`handlers` is `none` at an address once the handler there has been deleted.
-/

namespace Dbms18

def sysRelation : RelationId := 0
def sysAttribute : RelationId := 1

/-- The two subclasses of `IOHandler`, as `dynamic_cast` tells them apart. -/
inductive HandlerKind
  | iterator
  | write
deriving DecidableEq, Repr

namespace HandlerKind

def other : HandlerKind → HandlerKind
  | iterator => write
  | write => iterator

theorem ne_iff_eq_other {k k' : HandlerKind} : k' ≠ k ↔ k' = k.other := by
  cases k <;> cases k' <;> decide

end HandlerKind

/-- What an `IteratorHandlerImpl` and a `WriteHandlerImpl` hold besides their database. -/
inductive HandlerImpl
  | iterator (iter : Cursor)
  | write (batch : List WriteOp)

/-- `HandlerImpl.new kind db` is what the constructor makes on the opened database `db`. -/
def HandlerImpl.new (db : Database) : HandlerKind → HandlerImpl
  | .iterator => .iterator (.ofDatabase db)
  | .write => .write (WriteHandlerImpl.new db).batch

def HandlerImpl.kind : HandlerImpl → HandlerKind
  | iterator _ => .iterator
  | write _ => .write

@[simp] theorem HandlerImpl.kind_new (db : Database) (kind : HandlerKind) :
    (HandlerImpl.new db kind).kind = kind := by
  cases kind <;> rfl

/-- The count of references has no bound here. In the source it is an `int`; `Sessions.reference_lt_of_exec` says when
that makes no difference. -/
structure IOHandler where
  relid : RelationId
  reference : Int
  impl : HandlerImpl

namespace IOHandler

/-- The constructor: no relation yet, and no reference. -/
def new (impl : HandlerImpl) : IOHandler := ⟨0, 0, impl⟩

def kind (handler : IOHandler) : HandlerKind := handler.impl.kind

def addRef (handler : IOHandler) : IOHandler := { handler with reference := handler.reference + 1 }

def subRef (handler : IOHandler) : IOHandler := { handler with reference := handler.reference - 1 }

def ref (handler : IOHandler) : Int := handler.reference

def setRelationID (handler : IOHandler) (relid : RelationId) : IOHandler := { handler with relid }

end IOHandler

structure LevelStore where
  handlers : Nat → Option IOHandler
  next : Nat
  /-- `iterator_handler_map_` and `write_handler_map_`. -/
  handlerMap : HandlerKind → RelationId → Option Nat
  opened : RelationId → Bool
  databases : RelationId → Database

namespace LevelStore

/-- The store after `Start`: no handlers, and the two catalog databases open. -/
def started (databases : RelationId → Database) : LevelStore where
  handlers _ := none
  next := 0
  handlerMap _ _ := none
  opened relid := relid = sysRelation ∨ relid = sysAttribute
  databases := databases

def setHandler (s : LevelStore) (h : Nat) (handler : IOHandler) : LevelStore :=
  { s with handlers := Function.update s.handlers h (some handler) }

def setMap (s : LevelStore) (kind : HandlerKind) (relid : RelationId) (entry : Option Nat) : LevelStore :=
  { s with handlerMap := Function.update s.handlerMap kind (Function.update (s.handlerMap kind) relid entry) }

/-- `DB::Open`; `none` when the path is already open. -/
def openDatabase (s : LevelStore) (relid : RelationId) : Option (Database × LevelStore) :=
  if s.opened relid then none
  else some (s.databases relid, { s with opened := Function.update s.opened relid true })

/-- `new` of a handler object: it gets the next address. -/
def alloc (s : LevelStore) (handler : IOHandler) : LevelStore :=
  { s.setHandler s.next handler with next := s.next + 1 }

/-- The two acquisitions, `NewIterator` and `NewWriteHandler`, which differ in the map they use and in
the handler they construct. -/
def newHandler (kind : HandlerKind) (s : LevelStore) (relid : RelationId) : Res (Nat × LevelStore) :=
  match s.handlerMap kind relid with
  | none => do
    -- the constructor of the handler, with its `assert(status.ok())`
    let (db, s) ← Res.getD (s.openDatabase relid) .assertion
    let handler := ((IOHandler.new (.new db kind)).setRelationID relid).addRef
    return (s.next, (s.alloc handler).setMap kind handler.relid (some s.next))
  | some h => do
    let handler ← Res.getD (s.handlers h) .useAfterFree
    return (h, s.setHandler h handler.addRef)

def newIterator : LevelStore → RelationId → Res (Nat × LevelStore) := newHandler .iterator

def newWriteHandler : LevelStore → RelationId → Res (Nat × LevelStore) := newHandler .write

/-- The first statement of `DeleteIOObject`. -/
def subRef (s : LevelStore) (h : Nat) : Res LevelStore := do
  let handler ← Res.getD (s.handlers h) .useAfterFree
  return s.setHandler h handler.subRef

/-- The test that follows. -/
def ref (s : LevelStore) (h : Nat) : Res Int := do
  let handler ← Res.getD (s.handlers h) .useAfterFree
  return handler.ref

/-- `delete io_object`: the handler's destructor closes its database. -/
def free (s : LevelStore) (h : Nat) (relid : RelationId) : LevelStore :=
  { s with
    handlers := Function.update s.handlers h none
    opened := Function.update s.opened relid false }

/-- The locked section of `DeleteIOObject`. The map is erased by relation id, so `n == 1` says that
some handler of this kind is registered there. -/
def eraseAndDelete (s : LevelStore) (h : Nat) : Res LevelStore := do
  let handler ← Res.getD (s.handlers h) .useAfterFree
  Res.check (s.handlerMap handler.kind handler.relid).isSome .assertion
  return (s.setMap handler.kind handler.relid none).free h handler.relid

def deleteIOObject (s : LevelStore) (h : Nat) : Res LevelStore := do
  let s ← s.subRef h
  if (← s.ref h) = 0 then s.eraseAndDelete h else return s

/-! ## What each call does -/

def constructed (kind : HandlerKind) (s : LevelStore) (relid : RelationId) : LevelStore where
  handlers := Function.update s.handlers s.next (some ⟨relid, 1, .new (s.databases relid) kind⟩)
  next := s.next + 1
  handlerMap := Function.update s.handlerMap kind
    (Function.update (s.handlerMap kind) relid (some s.next))
  opened := Function.update s.opened relid true
  databases := s.databases

variable {s s' : LevelStore} {kind : HandlerKind} {relid : RelationId} {h : Nat} {handler : IOHandler}

theorem newHandler_of_mapped (hmap : s.handlerMap kind relid = some h) (hh : s.handlers h = some handler) :
    s.newHandler kind relid = .ok (h, s.setHandler h handler.addRef) := by
  simp [newHandler, hmap, hh]

theorem newHandler_of_unmapped (hmap : s.handlerMap kind relid = none) (hopen : s.opened relid = false) :
    s.newHandler kind relid = .ok (s.next, s.constructed kind relid) := by
  simp only [newHandler, hmap, openDatabase, hopen]
  rfl

theorem newHandler_of_opened (hmap : s.handlerMap kind relid = none) (hopen : s.opened relid = true) :
    s.newHandler kind relid = .error .assertion := by
  simp [newHandler, hmap, openDatabase, hopen]

theorem subRef_of_live (hh : s.handlers h = some handler) :
    s.subRef h = .ok (s.setHandler h handler.subRef) := by
  simp [subRef, hh]

theorem ref_of_live (hh : s.handlers h = some handler) : s.ref h = .ok handler.reference := by
  simp [ref, hh, IOHandler.ref]

theorem eraseAndDelete_of_mapped (hh : s.handlers h = some handler) (hmap : s.handlerMap handler.kind handler.relid = some h) :
    s.eraseAndDelete h = .ok ((s.setMap handler.kind handler.relid none).free h handler.relid) := by
  simp [eraseAndDelete, hh, hmap, Res.check]

@[simp] theorem handlers_setHandler (s : LevelStore) (h h' : Nat) (handler : IOHandler) :
    (s.setHandler h handler).handlers h' = if h' = h then some handler else s.handlers h' :=
  Function.update_apply ..

@[simp] theorem handlers_constructed (s : LevelStore) (kind : HandlerKind) (relid : RelationId) (h : Nat) :
    (s.constructed kind relid).handlers h =
      if h = s.next then some ⟨relid, 1, .new (s.databases relid) kind⟩ else s.handlers h :=
  Function.update_apply ..

@[simp] theorem handlers_free (s : LevelStore) (h h' : Nat) (relid : RelationId) :
    (s.free h relid).handlers h' = if h' = h then none else s.handlers h' :=
  Function.update_apply ..

theorem update_map_apply (m : HandlerKind → RelationId → Option Nat) (kind kind' : HandlerKind)
    (relid relid' : RelationId) (entry : Option Nat) :
    Function.update m kind (Function.update (m kind) relid entry) kind' relid' =
      if kind' = kind ∧ relid' = relid then entry else m kind' relid' := by
  by_cases hkind : kind' = kind
  · subst hkind
    simp [Function.update_apply]
  · simp [hkind]

theorem databases_newHandler (hnew : s.newHandler kind relid = .ok (h, s')) : s'.databases = s.databases := by
  cases hmap : s.handlerMap kind relid with
  | some h' =>
    rw [newHandler, hmap] at hnew
    obtain ⟨handler, -, heq⟩ := Res.bind_eq_ok.1 hnew
    obtain ⟨-, rfl⟩ := Prod.mk.inj (Except.ok.inj heq)
    rfl
  | none =>
    cases hopen : s.opened relid with
    | true => cases hnew.symm.trans (newHandler_of_opened hmap hopen)
    | false =>
      obtain ⟨-, rfl⟩ := Prod.mk.inj (Except.ok.inj (hnew.symm.trans (newHandler_of_unmapped hmap hopen)))
      rfl

theorem databases_deleteIOObject (hdelete : s.deleteIOObject h = .ok s') : s'.databases = s.databases := by
  obtain ⟨s₁, hsub, hdelete⟩ := Res.bind_eq_ok.1 hdelete
  obtain ⟨handler, -, hsub⟩ := Res.bind_eq_ok.1 hsub
  obtain rfl := Except.ok.inj hsub
  obtain ⟨n, -, hdelete⟩ := Res.bind_eq_ok.1 hdelete
  split at hdelete
  · obtain ⟨handler', -, herase⟩ := Res.bind_eq_ok.1 hdelete
    obtain ⟨_, -, heq⟩ := Res.bind_eq_ok.1 herase
    exact Except.ok.inj heq ▸ rfl
  · exact Except.ok.inj hdelete ▸ rfl

theorem newHandler_twice {databases : RelationId → Database} {h₁ h₂ : Nat} {s₁ s₂ : LevelStore}
    (h1 : (started databases).newHandler kind relid = .ok (h₁, s₁)) (h2 : s₁.newHandler kind relid = .ok (h₂, s₂)) :
    h₁ = 0 ∧ h₂ = 0 ∧ s₂.handlers 0 = some ⟨relid, 2, .new (databases relid) kind⟩ ∧
      s₂.databases = databases := by
  cases hopen : (started databases).opened relid with
  | true => cases h1.symm.trans (newHandler_of_opened rfl hopen)
  | false =>
    obtain ⟨rfl, rfl⟩ := Prod.mk.inj (Except.ok.inj (h1.symm.trans (newHandler_of_unmapped rfl hopen)))
    have hmap : ((started databases).constructed kind relid).handlerMap kind relid = some 0 := by
      simp [LevelStore.constructed, started]
    have h2' := newHandler_of_mapped hmap (by simp [started]; rfl)
    obtain ⟨rfl, rfl⟩ := Prod.mk.inj (Except.ok.inj (h2.symm.trans h2'))
    exact ⟨rfl, rfl, by simp [IOHandler.addRef], rfl⟩

/-! ## The invariant of the handler maps -/

/-- The live handlers are exactly the registered ones, each under its own kind and relation, and a
database is open exactly when it is one of the catalog's or a handler of its relation is live. -/
structure Wf (s : LevelStore) : Prop where
  lt_next : ∀ {h handler}, s.handlers h = some handler → h < s.next
  mapped : ∀ {h handler}, s.handlers h = some handler → s.handlerMap handler.kind handler.relid = some h
  live : ∀ {kind relid h}, s.handlerMap kind relid = some h →
    ∃ handler, s.handlers h = some handler ∧ handler.kind = kind ∧ handler.relid = relid
  opened_iff : ∀ relid, s.opened relid = true ↔
    relid = sysRelation ∨ relid = sysAttribute ∨ ∃ kind h, s.handlerMap kind relid = some h
  exclusive : ∀ {kind relid h}, s.handlerMap kind relid = some h →
    relid ≠ sysRelation ∧ relid ≠ sysAttribute ∧ s.handlerMap kind.other relid = none

theorem wf_started (databases : RelationId → Database) : (started databases).Wf := by
  constructor <;> simp [started]

theorem Wf.setHandler (hs : s.Wf) (hh : s.handlers h = some handler) {handler' : IOHandler}
    (hkind : handler'.kind = handler.kind) (hrelid : handler'.relid = handler.relid) :
    (s.setHandler h handler').Wf where
  lt_next {h' x} hx := by
    rw [handlers_setHandler] at hx
    split at hx
    · next heq =>
      rw [heq]
      exact hs.lt_next hh
    · exact hs.lt_next hx
  mapped {h' x} hx := by
    rw [handlers_setHandler] at hx
    split at hx
    · next heq =>
      obtain rfl := Option.some.inj hx
      rw [hkind, hrelid, heq]
      exact hs.mapped hh
    · exact hs.mapped hx
  live {k r h'} hmap := by
    obtain ⟨x, hx, hk, hr⟩ := hs.live hmap
    by_cases heq : h' = h
    · subst heq
      obtain rfl := Option.some.inj (hh.symm.trans hx)
      exact ⟨handler', by simp, hkind.trans hk, hrelid.trans hr⟩
    · exact ⟨x, by simp [heq, hx], hk, hr⟩
  opened_iff := hs.opened_iff
  exclusive := hs.exclusive

theorem handlerMap_constructed (s : LevelStore) (kind kind' : HandlerKind) (relid relid' : RelationId) :
    (s.constructed kind relid).handlerMap kind' relid' =
      if kind' = kind ∧ relid' = relid then some s.next else s.handlerMap kind' relid' :=
  update_map_apply ..

theorem handlerMap_erased (s : LevelStore) (kind kind' : HandlerKind) (relid relid' : RelationId) (h : Nat) :
    ((s.setMap kind relid none).free h relid).handlerMap kind' relid' =
      if kind' = kind ∧ relid' = relid then none else s.handlerMap kind' relid' :=
  update_map_apply ..

theorem Wf.of_not_opened (hs : s.Wf) (hopen : s.opened relid = false) :
    relid ≠ sysRelation ∧ relid ≠ sysAttribute ∧ ∀ kind, s.handlerMap kind relid = none := by
  have hclosed := mt (hs.opened_iff relid).2 (by simp [hopen])
  simp only [not_or, not_exists] at hclosed
  exact ⟨hclosed.1, hclosed.2.1, fun kind => Option.eq_none_iff_forall_ne_some.2 (hclosed.2.2 kind)⟩

theorem Wf.constructed (hs : s.Wf) (hopen : s.opened relid = false) : (s.constructed kind relid).Wf := by
  obtain ⟨hrel, hattr, hunmapped⟩ := hs.of_not_opened hopen
  refine ⟨fun {h x} hx => ?_, fun {h x} hx => ?_, fun {k r h} hmap => ?_, fun r => ?_,
    fun {k r h} hmap => ?_⟩
  · rw [handlers_constructed] at hx
    split at hx
    · next heq => exact heq ▸ Nat.lt_succ_self _
    · exact Nat.lt_succ_of_lt (hs.lt_next hx)
  · rw [handlers_constructed] at hx
    rw [handlerMap_constructed]
    split at hx
    · next heq =>
      obtain rfl := Option.some.inj hx
      simp [IOHandler.kind, heq]
    · -- an older handler is registered elsewhere: nothing was registered for `relid`
      have hne : x.relid ≠ relid := fun heq => by
        have := hs.mapped hx
        rw [heq, hunmapped] at this
        cases this
      simpa [hne] using hs.mapped hx
  · rw [handlerMap_constructed] at hmap
    split at hmap
    · next heq =>
      obtain rfl := Option.some.inj hmap
      exact ⟨⟨relid, 1, .new (s.databases relid) kind⟩, by simp, by simp [IOHandler.kind, heq.1], heq.2.symm⟩
    · obtain ⟨x, hx, hk, hr⟩ := hs.live hmap
      exact ⟨x, by simp [Nat.ne_of_lt (hs.lt_next hx), hx], hk, hr⟩
  · show Function.update s.opened relid true r = true ↔ _
    by_cases hr : r = relid
    · subst hr
      simpa using .inr (.inr ⟨kind, s.next, by simp [handlerMap_constructed]⟩)
    · simpa [handlerMap_constructed, hr] using hs.opened_iff r
  · rw [handlerMap_constructed] at hmap
    rw [handlerMap_constructed]
    split at hmap
    · next heq =>
      rw [heq.1, heq.2]
      refine ⟨hrel, hattr, ?_⟩
      rw [if_neg (fun hk => HandlerKind.ne_iff_eq_other.2 rfl hk.1), hunmapped]
    · obtain ⟨h1, h2, h3⟩ := hs.exclusive hmap
      have hne : r ≠ relid := fun heq => by
        rw [heq, hunmapped] at hmap
        cases hmap
      exact ⟨h1, h2, by simpa [hne] using h3⟩

theorem Wf.erased (hs : s.Wf) (hh : s.handlers h = some handler) :
    ((s.setMap handler.kind handler.relid none).free h handler.relid).Wf := by
  have hreg := hs.mapped hh
  obtain ⟨hrel, hattr, hother⟩ := hs.exclusive hreg
  have hunmapped : ∀ k, ¬(k = handler.kind) → s.handlerMap k handler.relid = none := fun k hk => by
    rw [HandlerKind.ne_iff_eq_other.1 hk, hother]
  refine ⟨fun {h' x} hx => ?_, fun {h' x} hx => ?_, fun {k r h'} hmap => ?_, fun r => ?_,
    fun {k r h'} hmap => ?_⟩
  · rw [handlers_free] at hx
    split at hx
    · cases hx
    · exact hs.lt_next hx
  · rw [handlers_free] at hx
    rw [handlerMap_erased]
    split at hx
    · cases hx
    · next hne =>
      have hx' := hs.mapped hx
      rw [if_neg, hx']
      rintro ⟨hk, hr⟩
      rw [hk, hr, hreg] at hx'
      exact hne (Option.some.inj hx').symm
  · rw [handlerMap_erased] at hmap
    split at hmap
    · cases hmap
    · next hne =>
      obtain ⟨x, hx, hk, hr⟩ := hs.live hmap
      refine ⟨x, ?_, hk, hr⟩
      rw [handlers_free, if_neg]
      · exact hx
      · rintro rfl
        obtain rfl := Option.some.inj (hh.symm.trans hx)
        exact hne ⟨hk.symm, hr.symm⟩
  · show Function.update s.opened handler.relid false r = true ↔ _
    by_cases hr : r = handler.relid
    · subst hr
      simp only [handlerMap_erased, Function.update_self, hrel, hattr, false_or]
      simpa using fun k hk x => by simp [hunmapped k hk]
    · simpa [handlerMap_erased, hr] using hs.opened_iff r
  · rw [handlerMap_erased] at hmap ⊢
    split at hmap
    · cases hmap
    · obtain ⟨h1, h2, h3⟩ := hs.exclusive hmap
      refine ⟨h1, h2, ?_⟩
      split
      · rfl
      · exact h3

end LevelStore

end Dbms18
