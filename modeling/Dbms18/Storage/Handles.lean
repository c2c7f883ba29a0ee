import Mathlib.Data.List.Count
import Dbms18.Lib.Run
import Dbms18.Storage.LevelStore

/-!
# Sessions that acquire and release handlers

`held` lists the outstanding handles, one entry for each call of `NewIterator` or `NewWriteHandler`
that has not been undone by a `DeleteIOObject`. `Counted` ties the reference counts to it.

Two systems are built on this. In the first the three calls are atomic; what goes wrong there is that
readers and writers are shared by two separate maps while leveldb opens a path only once. In the
second `DeleteIOObject` is the sequence of its three steps; what goes wrong there is that a handler
is taken out of its map later than its count is seen to be zero.
-/

namespace Dbms18

variable {S : Type}

namespace LevelStore

def Live (s : LevelStore) (h : Nat) : Prop := ∃ handler, s.handlers h = some handler

variable {s s' : LevelStore} {kind : HandlerKind} {relid : RelationId} {h h' : Nat} {handler : IOHandler}

theorem Live.setHandler (hh' : s.Live h') : (s.setHandler h handler).Live h' := by
  obtain ⟨y, hy⟩ := hh'
  by_cases heq : h' = h
  · exact ⟨handler, by simp [heq]⟩
  · exact ⟨y, by simp [heq, hy]⟩

theorem live_constructed_next (kind : HandlerKind) (s : LevelStore) (relid : RelationId) :
    (s.constructed kind relid).Live s.next :=
  ⟨_, Function.update_self ..⟩

theorem Live.constructed (hh' : s.Live h') : (s.constructed kind relid).Live h' := by
  obtain ⟨y, hy⟩ := hh'
  by_cases heq : h' = s.next
  · exact heq ▸ live_constructed_next kind s relid
  · exact ⟨y, by simp [heq, hy]⟩

theorem Live.free (hh' : s.Live h') (hne : h' ≠ h) : (s.free h relid).Live h' := by
  obtain ⟨y, hy⟩ := hh'
  exact ⟨y, by simp [hne, hy]⟩

theorem not_live_free (s : LevelStore) (h : Nat) (relid : RelationId) : ¬ (s.free h relid).Live h := by
  rintro ⟨y, hy⟩
  simp at hy

/-- The maps are well formed, every reference count is the number of handles outstanding, and every
handle outstanding is to a live handler. -/
structure Counted (s : LevelStore) (held : List (S × Nat)) : Prop extends s.Wf where
  reference_eq : ∀ {h handler}, s.handlers h = some handler →
    handler.reference = (held.map Prod.snd).count h
  held_live : ∀ {p}, p ∈ held → s.Live p.2

variable {held : List (S × Nat)} {x : S}

theorem counted_started (databases : RelationId → Database) :
    (started databases).Counted ([] : List (S × Nat)) :=
  ⟨wf_started databases, by simp [started], by simp⟩

section Counted

variable (hs : s.Counted held)

include hs

theorem Counted.reference_eq_zero_iff (hh : s.handlers h = some handler) :
    handler.reference = 0 ↔ ∀ p ∈ held, p.2 ≠ h := by
  rw [hs.reference_eq hh, Int.natCast_eq_zero, List.count_eq_zero, List.mem_map]
  exact ⟨fun hn p hp heq => hn ⟨p, hp, heq⟩, fun hn ⟨p, hp, heq⟩ => hn p hp heq⟩

theorem Counted.reference_le_length (hh : s.handlers h = some handler) :
    0 ≤ handler.reference ∧ handler.reference ≤ held.length := by
  have hcount : (held.map Prod.snd).count h ≤ held.length := List.count_le_length.trans_eq (List.length_map ..)
  rw [hs.reference_eq hh]
  omega

theorem Counted.setHandler {handler' : IOHandler} (hh : s.handlers h = some handler)
    (hkind : handler'.kind = handler.kind) (hrelid : handler'.relid = handler.relid)
    (href : handler'.reference = handler.reference) : (s.setHandler h handler').Counted held where
  toWf := hs.toWf.setHandler hh hkind hrelid
  reference_eq {h' y} hy := by
    rw [handlers_setHandler] at hy
    split at hy
    · next heq =>
      obtain rfl := Option.some.inj hy
      rw [href, heq]
      exact hs.reference_eq hh
    · exact hs.reference_eq hy
  held_live hp := (hs.held_live hp).setHandler

theorem Counted.addRef (hh : s.handlers h = some handler) (x : S) :
    (s.setHandler h handler.addRef).Counted ((x, h) :: held) where
  toWf := hs.toWf.setHandler hh rfl rfl
  reference_eq {h' y} hy := by
    rw [handlers_setHandler] at hy
    split at hy
    · next heq =>
      obtain rfl := Option.some.inj hy
      simp [IOHandler.addRef, hs.reference_eq hh, heq]
    · next hne => simp [hs.reference_eq hy, Ne.symm hne]
  held_live {p} hp := by
    rcases List.mem_cons.1 hp with rfl | hp
    · exact Live.setHandler ⟨handler, hh⟩
    · exact (hs.held_live hp).setHandler

theorem Counted.constructed (hopen : s.opened relid = false) (x : S) :
    (s.constructed kind relid).Counted ((x, s.next) :: held) where
  toWf := hs.toWf.constructed hopen
  reference_eq {h' y} hy := by
    rw [handlers_constructed] at hy
    split at hy
    · next heq =>
      obtain rfl := Option.some.inj hy
      -- nobody holds the new address, since every handle is to a handler allocated before it
      have hnew : s.next ∉ held.map Prod.snd := fun hmem => by
        obtain ⟨p, hp, hp2⟩ := List.mem_map.1 hmem
        obtain ⟨z, hz⟩ := hs.held_live hp
        exact Nat.ne_of_lt (hs.lt_next hz) hp2
      simp [heq, List.count_eq_zero.2 hnew]
    · next hne => simp [hs.reference_eq hy, Ne.symm hne]
  held_live {p} hp := by
    rcases List.mem_cons.1 hp with rfl | hp
    · exact live_constructed_next kind s relid
    · exact (hs.held_live hp).constructed

theorem Counted.subRef [DecidableEq S] (hh : s.handlers h = some handler)
    (hx : (x, h) ∈ held) : (s.setHandler h handler.subRef).Counted (held.erase (x, h)) where
  toWf := hs.toWf.setHandler hh rfl rfl
  reference_eq {h' y} hy := by
    have hcount : ∀ k, (held.map Prod.snd).count k =
        ((held.erase (x, h)).map Prod.snd).count k + if h = k then 1 else 0 := fun k => by
      rw [((List.perm_cons_erase hx).map Prod.snd).count_eq]
      simp [List.count_cons]
    rw [handlers_setHandler] at hy
    split at hy
    · next heq =>
      obtain rfl := Option.some.inj hy
      have := hs.reference_eq hh
      simp [IOHandler.subRef, this, hcount, heq]
    · next hne => simp [hs.reference_eq hy, hcount, Ne.symm hne]
  held_live {p} hp := (hs.held_live (List.mem_of_mem_erase hp)).setHandler

theorem Counted.erased (hh : s.handlers h = some handler) (hheld : ∀ p ∈ held, p.2 ≠ h) :
    ((s.setMap handler.kind handler.relid none).free h handler.relid).Counted held where
  toWf := hs.toWf.erased hh
  reference_eq {h' y} hy := by
    rw [handlers_free] at hy
    split at hy
    · cases hy
    · exact hs.reference_eq hy
  held_live {p} hp := Live.free (s := s.setMap ..) (hs.held_live hp) (hheld p hp)

end Counted

def Openable (s : LevelStore) (kind : HandlerKind) (relid : RelationId) : Prop :=
  s.handlerMap kind relid ≠ none ∨
    s.handlerMap kind.other relid = none ∧ relid ≠ sysRelation ∧ relid ≠ sysAttribute

theorem Wf.openable_iff (hs : s.Wf) :
    s.Openable kind relid ↔ s.handlerMap kind relid ≠ none ∨ s.opened relid = false := by
  unfold Openable
  by_cases hmap : s.handlerMap kind relid = none
  · refine or_congr_right ⟨fun ⟨hother, hrel, hattr⟩ => ?_, fun hopen => ?_⟩
    · rw [← Bool.not_eq_true, hs.opened_iff]
      rintro (heq | heq | ⟨k, h, hk⟩)
      · exact hrel heq
      · exact hattr heq
      · by_cases heq : k = kind
        · simp [heq, hmap] at hk
        · simp [HandlerKind.ne_iff_eq_other.1 heq, hother] at hk
    · obtain ⟨hrel, hattr, hunmapped⟩ := hs.of_not_opened hopen
      exact ⟨hunmapped _, hrel, hattr⟩
  · simp [hmap]

theorem Counted.newHandler (hs : s.Counted held) (kind : HandlerKind) (relid : RelationId) (x : S) :
    s.Openable kind relid ∧ (∃ h s', s.newHandler kind relid = .ok (h, s') ∧
        s'.Counted ((x, h) :: held) ∧ (∀ {h'}, s.Live h' → s'.Live h') ∧
        (s.handlerMap kind relid = some h ∨ ¬ s.Live h)) ∨
      ¬ s.Openable kind relid ∧ s.newHandler kind relid = .error .assertion := by
  rw [hs.openable_iff]
  cases hmap : s.handlerMap kind relid with
  | some h =>
    obtain ⟨y, hy, -⟩ := hs.live hmap
    exact .inl ⟨.inl (by simp), h, _, newHandler_of_mapped hmap hy, hs.addRef hy x,
      fun hl => hl.setHandler, .inl rfl⟩
  | none =>
    cases hopen : s.opened relid with
    | false =>
      refine .inl ⟨.inr rfl, s.next, _, newHandler_of_unmapped hmap hopen, hs.constructed hopen x,
        fun hl => hl.constructed, .inr ?_⟩
      rintro ⟨y, hy⟩
      exact Nat.lt_irrefl _ (hs.lt_next hy)
    | true => exact .inr ⟨by simp, newHandler_of_opened hmap hopen⟩

theorem Counted.deleteIOObject [DecidableEq S] (hs : s.Counted held) (hx : (x, h) ∈ held) :
    ∃ s', s.deleteIOObject h = .ok s' ∧ s'.Counted (held.erase (x, h)) := by
  obtain ⟨y, hy⟩ := hs.held_live hx
  have hs₁ := hs.subRef hy hx
  have hy₁ : (s.setHandler h y.subRef).handlers h = some y.subRef := by simp
  by_cases hzero : y.subRef.reference = 0
  · refine ⟨_, ?_, hs₁.erased hy₁ ((hs₁.reference_eq_zero_iff hy₁).1 hzero)⟩
    simp [LevelStore.deleteIOObject, subRef_of_live hy, ref_of_live hy₁, hzero,
      eraseAndDelete_of_mapped hy₁ (hs₁.mapped hy₁)]
  · exact ⟨_, by simp [LevelStore.deleteIOObject, subRef_of_live hy, ref_of_live hy₁, hzero], hs₁⟩

end LevelStore

/-! ## Atomic calls -/

structure Sessions (S : Type) where
  store : LevelStore
  held : List (S × Nat)

inductive HandleCall (S : Type)
  | newIterator (x : S) (relid : RelationId)
  | newWriteHandler (x : S) (relid : RelationId)
  | deleteIOObject (x : S) (h : Nat)

namespace Sessions

def start (S : Type) (databases : RelationId → Database) : Sessions S := ⟨.started databases, []⟩

def holds [DecidableEq S] (w : Sessions S) (x : S) (h : Nat) : Bool := (x, h) ∈ w.held

variable {w : Sessions S}

@[simp] theorem holds_iff [DecidableEq S] {x : S} {h : Nat} :
    w.holds x h = true ↔ (x, h) ∈ w.held :=
  decide_eq_true_iff

/-- A session deletes only handles it holds: another `deleteIOObject` is not a call that is made. -/
def call [DecidableEq S] (w : Sessions S) : HandleCall S → Res (Sessions S)
  | .newIterator x relid => do
    let (h, store) ← w.store.newIterator relid
    return ⟨store, (x, h) :: w.held⟩
  | .newWriteHandler x relid => do
    let (h, store) ← w.store.newWriteHandler relid
    return ⟨store, (x, h) :: w.held⟩
  | .deleteIOObject x h =>
    if w.holds x h then do
      let store ← w.store.deleteIOObject h
      return ⟨store, w.held.erase (x, h)⟩
    else return w

def ExclusivePaths (w : Sessions S) : Prop :=
  ∀ h h' y y', w.store.handlers h = some y → w.store.handlers h' = some y' → y.relid = y'.relid → h = h'

/-- No acquisition meets a handler of the other kind on its relation, or a catalog database. -/
def NoClash (w : Sessions S) : HandleCall S → Prop
  | .newIterator _ relid => w.store.Openable .iterator relid
  | .newWriteHandler _ relid => w.store.Openable .write relid
  | .deleteIOObject _ _ => True

def Counted (w : Sessions S) : Prop := w.store.Counted w.held

theorem Counted.exclusivePaths (hw : w.Counted) : w.ExclusivePaths := by
  intro h h' y y' hy hy' hrelid
  have hmap := LevelStore.Wf.mapped hw.toWf hy
  have hmap' := LevelStore.Wf.mapped hw.toWf hy'
  have hkind : y.kind = y'.kind := by
    by_contra hne
    rw [HandlerKind.ne_iff_eq_other.1 hne, hrelid, (hw.exclusive hmap').2.2] at hmap
    cases hmap
  rw [hkind, hrelid, hmap'] at hmap
  exact (Option.some.inj hmap).symm

theorem Counted.acquire (hw : w.Counted) (kind : HandlerKind) (relid : RelationId) (x : S) :
    let r : Res (Sessions S) := do
      let (h, store) ← w.store.newHandler kind relid
      return ⟨store, (x, h) :: w.held⟩
    w.store.Openable kind relid ∧ (∃ w', r = .ok w' ∧ w'.Counted) ∨
      ¬ w.store.Openable kind relid ∧ r = .error .assertion := by
  rcases LevelStore.Counted.newHandler hw kind relid x with ⟨hopen, h, store, heq, hw', -⟩ | ⟨hopen, heq⟩
  · exact .inl ⟨hopen, ⟨store, (x, h) :: w.held⟩, by simp [heq], hw'⟩
  · exact .inr ⟨hopen, by simp [heq]⟩

theorem Counted.call [DecidableEq S] (hw : w.Counted) (c : HandleCall S) :
    w.NoClash c ∧ (∃ w', w.call c = .ok w' ∧ w'.Counted) ∨ ¬ w.NoClash c ∧ w.call c = .error .assertion := by
  cases c with
  | newIterator x relid => exact hw.acquire .iterator relid x
  | newWriteHandler x relid => exact hw.acquire .write relid x
  | deleteIOObject x h =>
    refine .inl ⟨trivial, ?_⟩
    by_cases hx : (x, h) ∈ w.held
    · obtain ⟨store, heq, hw'⟩ := LevelStore.Counted.deleteIOObject hw hx
      exact ⟨⟨store, w.held.erase (x, h)⟩, by simp [Sessions.call, hx, heq], hw'⟩
    · exact ⟨w, by simp [Sessions.call, hx], hw⟩

theorem length_held_of_call [DecidableEq S] {w w' : Sessions S} {c : HandleCall S} (h : w.call c = .ok w') :
    w'.held.length ≤ w.held.length + 1 := by
  cases c with
  | newIterator x relid =>
    obtain ⟨p, -, hp⟩ := Res.bind_eq_ok.1 h
    obtain rfl := Except.ok.inj hp
    exact Nat.le_refl _
  | newWriteHandler x relid =>
    obtain ⟨p, -, hp⟩ := Res.bind_eq_ok.1 h
    obtain rfl := Except.ok.inj hp
    exact Nat.le_refl _
  | deleteIOObject x h' =>
    rw [Sessions.call] at h
    split at h
    · obtain ⟨store, -, hstore⟩ := Res.bind_eq_ok.1 h
      obtain rfl := Except.ok.inj hstore
      exact (List.erase_sublist.length_le).trans (Nat.le_succ _)
    · obtain rfl := Except.ok.inj h
      exact Nat.le_succ _

theorem Counted.exec [DecidableEq S] {w w' : Sessions S} {calls : List (HandleCall S)} (hw : w.Counted)
    (h : Run.exec Sessions.call w calls = .ok w') : w'.Counted ∧ w'.held.length ≤ w.held.length + calls.length := by
  induction calls generalizing w with
  | nil =>
    obtain rfl := Except.ok.inj h
    exact ⟨hw, Nat.le_refl _⟩
  | cons c calls ih =>
    obtain ⟨w₁, hc, hrest⟩ := Res.bind_eq_ok.1 h
    have hlen := length_held_of_call hc
    rcases hw.call c with ⟨-, w₂, hok, hw₂⟩ | ⟨-, herror⟩
    · obtain rfl := Except.ok.inj (hok.symm.trans hc)
      obtain ⟨hw', hlen'⟩ := ih hw₂ hrest
      rw [List.length_cons]
      exact ⟨hw', by omega⟩
    · cases herror.symm.trans hc

/-- `reference_` is an `int` in the source, and no run of fewer than `2 ^ 31` calls brings it out of that range. -/
theorem reference_lt_of_exec [DecidableEq S] {databases : RelationId → Database} {calls : List (HandleCall S)}
    (h : Run.exec call (start S databases) calls = .ok w) (hcalls : calls.length < 2 ^ 31) {a : Nat}
    {handler : IOHandler} (ha : w.store.handlers a = some handler) : 0 ≤ handler.reference ∧ handler.reference < 2 ^ 31 := by
  have hstart : (start S databases).Counted := LevelStore.counted_started databases
  obtain ⟨hw, hlen⟩ := Counted.exec hstart h
  obtain ⟨hle, hge⟩ := LevelStore.Counted.reference_le_length hw ha
  have hnil : (start S databases).held.length = 0 := rfl
  omega

/-- The assertions in the handler constructors hold and every path is open at most once throughout a
sequence of calls exactly when no call of it clashes. -/
theorem safe_iff_noClash [DecidableEq S] (databases : RelationId → Database) (calls : List (HandleCall S)) :
    Run.Safe call ExclusivePaths (start S databases) calls ↔
      Run.Guarded call NoClash (start S databases) calls :=
  Run.safe_iff_guarded_of_step (fun _ => Counted.exclusivePaths) (fun _ c hw => Counted.call hw c)
    (LevelStore.counted_started databases)

/-- A reader and a writer of the same relation: the constructor of the second handler cannot open the
database. -/
theorem not_safe_reader_writer :
    ¬ Run.Safe call ExclusivePaths (start Nat fun _ => ∅) [.newIterator 0 7, .newWriteHandler 1 7] :=
  Run.not_safe_of_exec_error (e := .assertion) rfl

end Sessions

end Dbms18
