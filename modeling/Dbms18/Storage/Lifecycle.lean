import Dbms18.Storage.Handles

/-!
# The life cycle of a handler under preemption

`DeleteIOObject` is taken apart into its steps: the decrement, the test of the count, and the locked
section that erases the handler from its map and deletes it. An acquisition is one locked step. The
steps of any number of sessions interleave.

The count is read outside the lock, so it may be zero when the handler is still registered. Two
interleavings break: an acquisition of a handler that another session is about to delete, and two
sessions that both read zero for the same handler. In every other run each handle outstanding is to a
live handler and each handler is deleted once (`safe_of_undisturbed`).
-/

namespace Dbms18

/-- How far a session has come in `DeleteIOObject`. -/
inductive Phase
  | idle
  | subRefed (h : Nat)
  | lastRef (h : Nat)
deriving DecidableEq

def Phase.releasing : Phase → Option Nat
  | idle => none
  | subRefed h => some h
  | lastRef h => some h

structure Lifecycle (S : Type) extends Sessions S where
  phase : S → Phase

inductive LifeStep (S : Type)
  | acquire (x : S) (kind : HandlerKind) (relid : RelationId)
  | subRef (x : S) (h : Nat)
  | test (x : S)
  | eraseAndDelete (x : S)

namespace Lifecycle

variable {S : Type} [DecidableEq S]

def start (S : Type) (databases : RelationId → Database) : Lifecycle S :=
  ⟨.start S databases, fun _ => .idle⟩

def setPhase (w : Lifecycle S) (x : S) (phase : Phase) : Lifecycle S :=
  { w with phase := Function.update w.phase x phase }

/-- A step that is not the session's next one leaves the state as it is; so does an acquisition that
cannot open its database, since the process ends there. -/
def step (w : Lifecycle S) : LifeStep S → Res (Lifecycle S)
  | .acquire x kind relid =>
    if w.phase x = .idle then
      match w.store.newHandler kind relid with
      | .ok (h, store) => return { w with store, held := (x, h) :: w.held }
      | .error .assertion => return w
      | .error e => .error e
    else return w
  | .subRef x h =>
    if w.phase x = .idle ∧ w.holds x h then do
      let store ← w.store.subRef h
      return { w with store, held := w.held.erase (x, h) }.setPhase x (.subRefed h)
    else return w
  | .test x =>
    match w.phase x with
    | .subRefed h => do
      if (← w.store.ref h) = 0 then return w.setPhase x (.lastRef h) else return w.setPhase x .idle
    | _ => return w
  | .eraseAndDelete x =>
    match w.phase x with
    | .lastRef h => do
      let store ← w.store.eraseAndDelete h
      return { w with store }.setPhase x .idle
    | _ => return w

def HeldLive (w : Lifecycle S) : Prop := ∀ p ∈ w.held, w.store.Live p.2

/-- The handler acquired is not one that a session is about to delete, and a session that reads zero
is the only one releasing the handler. -/
def Undisturbed (w : Lifecycle S) : LifeStep S → Prop
  | .acquire x kind relid => w.phase x = .idle →
    ∀ h y, w.store.handlerMap kind relid = some h → w.phase y ≠ .lastRef h
  | .test x => ∀ h y, w.phase x = .subRefed h → w.store.ref h = .ok 0 → (w.phase y).releasing = some h → y = x
  | .subRef _ _ => True
  | .eraseAndDelete _ => True

structure Inv (w : Lifecycle S) : Prop extends w.store.Counted w.held where
  releasing_live : ∀ {x h}, (w.phase x).releasing = some h → w.store.Live h
  lastRef_unheld : ∀ {x h}, w.phase x = .lastRef h → ∀ p ∈ w.held, p.2 ≠ h
  lastRef_alone : ∀ {x y h}, w.phase x = .lastRef h → (w.phase y).releasing = some h → y = x

variable {w : Lifecycle S} {x : S} {h : Nat}

omit [DecidableEq S] in
theorem inv_start (databases : RelationId → Database) : (start S databases).Inv :=
  ⟨LevelStore.counted_started databases, by simp [start, Phase.releasing], by simp [start], by simp [start]⟩

theorem Inv.acquire (hw : w.Inv) {kind : HandlerKind} {relid : RelationId}
    (hg : w.Undisturbed (.acquire x kind relid)) : ∃ w', w.step (.acquire x kind relid) = .ok w' ∧ w'.Inv := by
  by_cases hidle : w.phase x = .idle
  · rcases hw.newHandler kind relid x with ⟨-, h, store, heq, hcounted, hlive, hh⟩ | ⟨-, heq⟩
    · refine ⟨{ w with store, held := (x, h) :: w.held }, by simp [step, hidle, heq], hcounted,
        fun hr => hlive (hw.releasing_live hr), fun {y k} hy p hp => ?_, hw.lastRef_alone⟩
      rcases List.mem_cons.1 hp with rfl | hp
      · rintro rfl
        rcases hh with hh | hh
        · exact hg hidle h y hh hy
        · exact hh (hw.releasing_live (x := y) (by rw [hy]; rfl))
      · exact hw.lastRef_unheld hy p hp
    · exact ⟨w, by simp [step, hidle, heq], hw⟩
  · exact ⟨w, by simp [step, hidle], hw⟩

@[simp] theorem store_setPhase (w : Lifecycle S) (x : S) (phase : Phase) :
    (w.setPhase x phase).store = w.store := rfl

@[simp] theorem phase_setPhase (w : Lifecycle S) (x y : S) (phase : Phase) :
    (w.setPhase x phase).phase y = if y = x then phase else w.phase y :=
  Function.update_apply ..

theorem Inv.setPhase (hw : w.Inv) (x : S) (phase : Phase) (hlive : ∀ h, phase.releasing = some h → w.store.Live h)
    (hlast : ∀ h, phase = .lastRef h →
      (∀ p ∈ w.held, p.2 ≠ h) ∧ ∀ y, (w.phase y).releasing = some h → y = x)
    (halone : ∀ h y, phase.releasing = some h → w.phase y = .lastRef h → y = x) :
    (w.setPhase x phase).Inv where
  toCounted := hw.toCounted
  releasing_live {y h} hy := by
    rw [phase_setPhase] at hy
    split at hy
    · exact hlive h hy
    · exact hw.releasing_live hy
  lastRef_unheld {y h} hy := by
    rw [phase_setPhase] at hy
    split at hy
    · exact (hlast h hy).1
    · exact hw.lastRef_unheld hy
  lastRef_alone {y z h} hy hz := by
    rw [phase_setPhase] at hy hz
    split at hy <;> split at hz
    · next hyx hzx => exact hzx.trans hyx.symm
    · next hyx _ => exact ((hlast h hy).2 z hz).trans hyx.symm
    · next hyx _ => exact absurd (halone h y hz hy) hyx
    · exact hw.lastRef_alone hy hz

theorem Inv.subRef (hw : w.Inv) (x : S) (h : Nat) : ∃ w', w.step (.subRef x h) = .ok w' ∧ w'.Inv := by
  by_cases hen : w.phase x = .idle ∧ w.holds x h
  · have hmem := Sessions.holds_iff.1 hen.2
    obtain ⟨y, hy⟩ := hw.held_live hmem
    have hlive : ∀ {k}, w.store.Live k → (w.store.setHandler h y.subRef).Live k := fun hk => hk.setHandler
    have hw₁ : Inv { w with store := w.store.setHandler h y.subRef, held := w.held.erase (x, h) } :=
      ⟨hw.toCounted.subRef hy hmem, fun hr => hlive (hw.releasing_live hr),
        fun hz p hp => hw.lastRef_unheld hz p (List.mem_of_mem_erase hp), hw.lastRef_alone⟩
    refine ⟨_, by simp only [step, if_pos hen, LevelStore.subRef_of_live hy]; rfl,
      hw₁.setPhase x (.subRefed h) ?_ ?_ ?_⟩
    · rintro k ⟨⟩
      exact hlive ⟨y, hy⟩
    · rintro k ⟨⟩
    · -- the session holds the handler, so nobody has read zero
      rintro k z ⟨⟩ hz
      exact absurd rfl (hw.lastRef_unheld hz (x, h) hmem)
  · exact ⟨w, by simp only [step, if_neg hen]; rfl, hw⟩

theorem Inv.test (hw : w.Inv) (hg : w.Undisturbed (.test x)) : ∃ w', w.step (.test x) = .ok w' ∧ w'.Inv := by
  cases hx : w.phase x with
  | idle => exact ⟨w, by simp [step, hx], hw⟩
  | lastRef h => exact ⟨w, by simp [step, hx], hw⟩
  | subRefed h =>
    obtain ⟨y, hy⟩ := hw.releasing_live (x := x) (h := h) (by rw [hx]; rfl)
    have hidle : (w.setPhase x .idle).Inv := hw.setPhase x .idle nofun nofun nofun
    by_cases hzero : y.reference = 0
    · have hone := fun z => hg h z hx (by rw [LevelStore.ref_of_live hy, hzero])
      refine ⟨w.setPhase x (.lastRef h), by simp [step, hx, LevelStore.ref_of_live hy, hzero],
        hw.setPhase x _ ?_ ?_ ?_⟩
      · rintro k ⟨⟩
        exact ⟨y, hy⟩
      · rintro k ⟨⟩
        exact ⟨(hw.reference_eq_zero_iff hy).1 hzero, hone⟩
      · rintro k z ⟨⟩ hz
        exact hone z (by rw [hz]; rfl)
    · exact ⟨w.setPhase x .idle, by simp [step, hx, LevelStore.ref_of_live hy, hzero], hidle⟩

theorem Inv.eraseAndDelete (hw : w.Inv) (x : S) : ∃ w', w.step (.eraseAndDelete x) = .ok w' ∧ w'.Inv := by
  cases hx : w.phase x with
  | idle => exact ⟨w, by simp [step, hx], hw⟩
  | subRefed h => exact ⟨w, by simp [step, hx], hw⟩
  | lastRef h =>
    obtain ⟨y, hy⟩ := hw.releasing_live (x := x) (h := h) (by rw [hx]; rfl)
    let store := (w.store.setMap y.kind y.relid none).free h y.relid
    have hidle : (w.setPhase x .idle).Inv := hw.setPhase x .idle nofun nofun nofun
    refine ⟨{ w with store }.setPhase x .idle, ?_, hw.erased hy (hw.lastRef_unheld hx), fun {z k} hz => ?_,
      hidle.lastRef_unheld, hidle.lastRef_alone⟩
    · simp [step, hx, LevelStore.eraseAndDelete_of_mapped hy (hw.mapped hy), store]
    · refine LevelStore.Live.free (s := w.store.setMap ..) (hidle.releasing_live hz) ?_
      -- another session releasing `h` would contradict that `x` was alone
      rintro rfl
      rw [phase_setPhase] at hz
      split at hz
      · cases hz
      · next hne => exact hne (hw.lastRef_alone hx hz)

theorem Inv.step (hw : w.Inv) {a : LifeStep S} (hg : w.Undisturbed a) : ∃ w', w.step a = .ok w' ∧ w'.Inv := by
  cases a with
  | acquire x kind relid => exact hw.acquire hg
  | subRef x h => exact hw.subRef x h
  | test x => exact hw.test hg
  | eraseAndDelete x => exact hw.eraseAndDelete x

omit [DecidableEq S] in
theorem Inv.heldLive (hw : w.Inv) : w.HeldLive := fun _ hp => hw.held_live hp

/-- In a run whose steps are all undisturbed no handler is deleted while it is held or for a second
time, and the erasure always finds an entry: each of these is a fault of the step or a dead handle. -/
theorem safe_of_undisturbed (databases : RelationId → Database) (as : List (LifeStep S))
    (h : Run.Guarded step Undisturbed (start S databases) as) :
    Run.Safe step HeldLive (start S databases) as :=
  (Run.safe_of_guarded (fun _ _ hw hg => Inv.step hw hg) (inv_start databases) h).imp fun _ => Inv.heldLive

theorem safe_shared_handler :
    Run.Safe step HeldLive (start Bool fun _ => ∅)
      [.acquire false .iterator 7, .acquire true .iterator 7, .subRef false 0, .test false,
        .subRef true 0, .test true, .eraseAndDelete true] := by
  refine safe_of_undisturbed _ _ (.cons (fun _ _ _ h => nomatch h) rfl <| .cons ?_ rfl <|
    .cons trivial rfl <| .cons ?_ rfl <| .cons trivial rfl <| .cons ?_ rfl <| .cons trivial rfl trivial)
  · intro _ h y _ hy
    cases hy
  · intro h y hx href hy
    cases y with
    | false => rfl
    | true => cases hy
  · intro h y hx href hy
    cases y with
    | false => cases hy
    | true => rfl

/-- A session acquires the handler that another one has found unreferenced and then deletes. -/
theorem not_safe_acquire_before_erase :
    ¬ Run.Safe step HeldLive (start Nat fun _ => ∅)
      [.acquire 0 .iterator 7, .subRef 0 0, .test 0, .acquire 1 .iterator 7, .eraseAndDelete 0] := by
  refine Run.not_safe_of_exec_ok rfl fun hlive => ?_
  obtain ⟨y, hy⟩ := hlive (1, 0) (by decide)
  cases hy

theorem eraseAndDelete_eq (hwf : w.store.Wf) (hlive : w.store.Live h) (hx : w.phase x = .lastRef h) :
    ∃ store, w.step (.eraseAndDelete x) = .ok ({ w with store }.setPhase x .idle) ∧ ¬ store.Live h := by
  obtain ⟨y, hy⟩ := hlive
  refine ⟨(w.store.setMap y.kind y.relid none).free h y.relid, ?_, LevelStore.not_live_free _ _ _⟩
  simp [step, hx, LevelStore.eraseAndDelete_of_mapped hy (hwf.mapped hy)]

/-- The condition is tight: a disturbed step can be continued to a run that is not safe. -/
theorem exists_not_safe_of_disturbed (hw : w.Inv) {a : LifeStep S} (hg : ¬ w.Undisturbed a) :
    ∃ as, ¬ Run.Safe step HeldLive w (a :: as) := by
  cases a with
  | subRef x h => exact absurd trivial hg
  | eraseAndDelete x => exact absurd trivial hg
  | acquire x kind relid =>
    -- the session that has read zero goes on and deletes what was just acquired
    simp only [Undisturbed, not_forall, not_not] at hg
    obtain ⟨hidle, h, y, hmap, hy⟩ := hg
    obtain ⟨z, hz, -⟩ := hw.live hmap
    have hstep : w.step (.acquire x kind relid) = .ok
        { w with store := w.store.setHandler h z.addRef, held := (x, h) :: w.held } := by
      simp [step, hidle, LevelStore.newHandler_of_mapped hmap hz]
    obtain ⟨store, herase, hdead⟩ := eraseAndDelete_eq
      (w := { w with store := w.store.setHandler h z.addRef, held := (x, h) :: w.held })
      (hw.toWf.setHandler hz rfl rfl) (LevelStore.Live.setHandler ⟨z, hz⟩) hy
    refine ⟨[.eraseAndDelete y], fun ⟨_, w₁, hw₁, _, w₂, hw₂, hlive⟩ => ?_⟩
    obtain rfl := Except.ok.inj (hstep.symm.trans hw₁)
    obtain rfl := Except.ok.inj (herase.symm.trans hw₂)
    exact hdead (hlive (x, h) List.mem_cons_self)
  | test x =>
    -- the next step of the other session reads a deleted handler
    simp only [Undisturbed, not_forall] at hg
    obtain ⟨h, y, hx, href, hy, hne⟩ := hg
    have hstep : w.step (.test x) = .ok (w.setPhase x (.lastRef h)) := by
      simp [step, hx, href]
    obtain ⟨store, herase, hdead⟩ := eraseAndDelete_eq (w := w.setPhase x (.lastRef h)) (x := x) (h := h)
      hw.toWf (hw.releasing_live hy) (by simp)
    have hfree : store.handlers h = none := Option.eq_none_iff_forall_ne_some.2 fun z hz => hdead ⟨z, hz⟩
    cases hphase : w.phase y with
    | idle => rw [hphase] at hy; cases hy
    | subRefed k =>
      rw [hphase] at hy; cases hy
      refine ⟨[.eraseAndDelete x, .test y], Run.not_safe_of_exec_error (e := .useAfterFree) ?_⟩
      simp only [Run.exec, Except.bind, hstep, herase]
      simp [step, hne, hphase, LevelStore.ref, hfree]
    | lastRef k =>
      rw [hphase] at hy; cases hy
      refine ⟨[.eraseAndDelete x, .eraseAndDelete y], Run.not_safe_of_exec_error (e := .useAfterFree) ?_⟩
      simp only [Run.exec, Except.bind, hstep, herase]
      simp [step, hne, hphase, LevelStore.eraseAndDelete, hfree]

end Lifecycle

end Dbms18
