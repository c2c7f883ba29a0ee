import Dbms18.Executor.JoinChain
import Dbms18.Common.Layout

/-!
# Selection and projection

`Streams` says which rows an executor has still to give. It asks less than `Supplies`: a selection has
written rows that it then skipped into the caller's row when it comes to the end.
-/

namespace Dbms18

open List

/-- `rest as x w` are the states in which `E` has the rows `as` still to give: each `GetNext` gives a row
of width `n` that shows the next one, and once there is none left every call returns `term`. -/
structure StreamsTo {ω σ α : Type} (E : Executor ω σ) (n : Nat) (shows : α → TupleRow → Prop) (term : State)
    (rest : List α → σ → ω → Prop) : Prop where
  next : ∀ {a as x w} {row : TupleRow}, rest (a :: as) x w → row.length = n →
    ∃ row' x' w', E.getNext x w row = .ok (.ok, row', x', w') ∧ row'.length = n ∧ shows a row' ∧ rest as x' w'
  done : ∀ {x w} {row : TupleRow}, rest [] x w → row.length = n →
    ∃ row' x' w', E.getNext x w row = .ok (term, row', x', w') ∧ row'.length = n ∧ rest [] x' w'

abbrev Streams {ω σ α : Type} (E : Executor ω σ) (n : Nat) (shows : α → TupleRow → Prop)
    (rest : List α → σ → ω → Prop) : Prop :=
  StreamsTo E n shows .eof rest

theorem Supplies.streams {σ : Type} {E : Executor LevelStore σ} {n : Nat} {hs : List Nat}
    {rest : List (List RawTuple) → σ → LevelStore → Prop} (hE : Supplies E n hs rest) :
    Streams E n (fun a row => a.map some <+: row) rest where
  next hrest hrow := by
    obtain ⟨row', x', s', hnext, hlen, hshows, hrest', -⟩ := hE.next hrest hrow
    exact ⟨row', x', s', hnext, hlen, hshows, hrest'⟩
  done {x s row} hrest hrow := by
    obtain ⟨x', s', hnext, hrest', -⟩ := hE.done hrest hrow
    exact ⟨row, x', s', hnext, hrow, hrest'⟩

section

variable {ω σ α β : Type} {E : Executor ω σ} {n : Nat} {shows : α → TupleRow → Prop} {R : List α → σ → ω → Prop}

theorem Streams.comap (hE : Streams E n shows R) (g : β → α) :
    Streams E n (fun b => shows (g b)) (fun bs => R (bs.map g)) where
  next hrest hrow := hE.next hrest hrow
  done hrest hrow := hE.done hrest hrow

variable {P : α → Prop}

namespace Select

variable {predicate : BooleanExpr} {f : α → Bool} {fuel : Nat}

/-- The selection has the rows of `outs` still to give: those of its child that satisfy `f`. -/
def rest (R : List α → σ → ω → Prop) (P : α → Prop) (f : α → Bool) (fuel : Nat) (outs : List α) (x : σ) (w : ω) : Prop :=
  ∃ as, R as x w ∧ (∀ a ∈ as, P a) ∧ as.length < fuel ∧ outs = as.filter f

def Returned (R : List α → σ → ω → Prop) (n : Nat) (shows : α → TupleRow → Prop) (outs : List α)
    (result : State × TupleRow × σ × ω) : Prop :=
  result.2.1.length = n ∧
    match outs with
    | [] => result.1 = .eof ∧ R [] result.2.2.1 result.2.2.2
    | a :: outs => result.1 = .ok ∧ shows a result.2.1 ∧ R outs result.2.2.1 result.2.2.2

theorem getNext_returned (hE : Streams E n shows R)
    (hdecides : ∀ {a row}, P a → shows a row → predicate.getValue row = .ok (f a)) {outs : List α} {x : σ} {w : ω}
    {row : TupleRow} (hrest : Select.rest R P f fuel outs x w) (hrow : row.length = n) :
    ∃ result, (executor E predicate fuel).getNext x w row = .ok result ∧
      Returned (Select.rest R P f fuel) n shows outs result := by
  obtain ⟨as, hrest, hP, hfuel, rfl⟩ := hrest
  -- the invariant of the loop: the rows that the child has left give what is asked for
  let I := fun k (lw : σ × ω × TupleRow) => k < fuel ∧ lw.2.2.length = n ∧
    ∃ as', R as' lw.1 lw.2.1 ∧ (∀ a ∈ as', P a) ∧ as'.length = k ∧ as'.filter f = as.filter f
  refine Res.loop_total (I := I) (k := as.length) ?_ ⟨hfuel, hrow, as, hrest, hP, rfl, rfl⟩ hfuel
  rintro k ⟨l, w, row⟩ ⟨hk, hrow, as', hrest', hP', rfl, hfilter⟩
  rw [← hfilter]
  cases as' with
  | nil =>
    obtain ⟨row', x', w', hnext, hlen, hdone⟩ := hE.done hrest' hrow
    refine .inr ⟨(.eof, row', x', w'), by simp [step, hnext], hlen, rfl, [], hdone, by simp, ?_, rfl⟩
    exact Nat.zero_lt_of_lt hk
  | cons a as' =>
    obtain ⟨row', x', w', hnext, hlen, hshows, hrest''⟩ := hE.next hrest' hrow
    have hvalue := hdecides (hP' a mem_cons_self) hshows
    have hP'' : ∀ a ∈ as', P a := fun b hb => hP' b (mem_cons_of_mem _ hb)
    have hk' : as'.length < fuel := Nat.lt_of_succ_lt hk
    cases hf : f a with
    | true =>
      rw [filter_cons_of_pos hf]
      refine .inr ⟨(.ok, row', x', w'), by simp [step, hnext, hvalue, hf], hlen, rfl, hshows, as', hrest'', hP'', hk', rfl⟩
    | false =>
      rw [filter_cons_of_neg (by simp [hf])] at hfilter ⊢
      exact .inl ⟨as'.length, (x', w', row'), by simp [step, hnext, hvalue, hf],
        ⟨hk', hlen, as', hrest'', hP'', rfl, hfilter⟩, Nat.lt_succ_self _⟩

theorem streams (fuel : Nat) (hE : Streams E n shows R)
    (hdecides : ∀ {a row}, P a → shows a row → predicate.getValue row = .ok (f a)) :
    Streams (executor E predicate fuel) n shows (Select.rest R P f fuel) where
  next hrest hrow := by
    obtain ⟨⟨state, row', x', w'⟩, hnext, hlen, rfl, hshows, hrest'⟩ := getNext_returned hE hdecides hrest hrow
    exact ⟨row', x', w', hnext, hlen, hshows, hrest'⟩
  done hrest hrow := by
    obtain ⟨⟨state, row', x', w'⟩, hnext, hlen, rfl, hrest'⟩ := getNext_returned hE hdecides hrest hrow
    exact ⟨row', x', w', hnext, hlen, hrest'⟩

end Select

namespace Project

variable {projectAttr : List ValueExpr} {g : α → RawTuple}

/-- The projection has a row of width `n` for its child, which has the rows `as` still to give. -/
def rest (R : List α → σ → ω → Prop) (P : α → Prop) (n : Nat) (as : List α) (p : Project σ) (w : ω) : Prop :=
  R as p.left w ∧ (∀ a ∈ as, P a) ∧ p.tupleRow.length = n

theorem streams (hE : Streams E n shows R) (hprojected : ∀ {a row}, P a → shows a row → projected projectAttr row = .ok (g a)) :
    Streams (executor E projectAttr) 1 (fun a row => row = [some (g a)]) (Project.rest R P n) where
  next {a as p w row} hrest hrow := by
    obtain ⟨hrest, hP, hlen⟩ := hrest
    obtain ⟨row', x', w', hnext, hlen', hshows, hrest'⟩ := hE.next hrest hlen
    have hset : row.setTuple 0 (g a) = .ok [some (g a)] := by
      obtain ⟨t, rfl⟩ := length_eq_one_iff.1 hrow
      rfl
    refine ⟨[some (g a)], ⟨x', row'⟩, w', ?_, rfl, rfl, hrest', fun b hb => hP b (mem_cons_of_mem _ hb), hlen'⟩
    simp [executor, getNext, hnext, hprojected (hP a mem_cons_self) hshows, hset]
  done {p w row} hrest hrow := by
    obtain ⟨hrest, hP, hlen⟩ := hrest
    obtain ⟨row', x', w', hnext, hlen', hrest'⟩ := hE.done hrest hlen
    exact ⟨row, ⟨x', row'⟩, w', by simp [executor, getNext, hnext], hrow, hrest', hP, hlen'⟩

end Project

end

/-! ## Plans -/

/-- With enough fuel the plan's executors can be prepared and opened, and then have the rows `outs` to
give. -/
def Plan.Opens {α : Type} (plan : Plan) (s : LevelStore) (n : Nat) (shows : α → TupleRow → Prop) (outs : List α) : Prop :=
  ∃ N, ∀ fuel ≥ N, ∃ R x s', Streams (plan.executor fuel) n shows R ∧
    (plan.executor fuel).prepare plan.new s = .ok (.ok, plan.new, s) ∧
    (plan.executor fuel).execOpen plan.new s = .ok (.ok, x, s') ∧ R outs x s'

theorem NestedLoopJoin.prepare_eq {n fuel : Nat} {s : LevelStore} {left right : Plan}
    (hl : (left.executor fuel).prepare left.new s = .ok (.ok, left.new, s))
    (hr : (right.executor fuel).prepare right.new s = .ok (.ok, right.new, s)) (predicate : BooleanExpr) :
    ((Plan.nestedLoopJoin n left right predicate).executor fuel).prepare (Plan.nestedLoopJoin n left right predicate).new s =
      .ok (.ok, (Plan.nestedLoopJoin n left right predicate).new, s) := by
  show NestedLoopJoin.prepare (left.executor fuel) (right.executor fuel) (NestedLoopJoin.new n left.new right.new) s = _
  simp [NestedLoopJoin.prepare, NestedLoopJoin.new, hl, hr]
  rfl

theorem Chained.prepare {n b m fuel : Nat} {s : LevelStore} {plan : Plan} {hs : List Nat} {outs : List (List RawTuple)}
    (h : Chained n s b plan hs m outs) : (plan.executor fuel).prepare plan.new s = .ok (.ok, plan.new, s) := by
  induction h with
  | scan => rfl
  | join scan predicate _ _ _ _ _ _ _ ih => exact NestedLoopJoin.prepare_eq ih rfl predicate
  | barren predicate _ _ _ ihl ihr => exact NestedLoopJoin.prepare_eq ihl ihr predicate

theorem Chained.plan_opens {α : Type} {n m : Nat} {s : LevelStore} {plan : Plan} {hs : List Nat} {as : List α}
    {g : α → List RawTuple} (h : Chained n s 0 plan hs m (as.map g)) (hm : m ≤ n) :
    plan.Opens s n (fun a row => (g a).map some <+: row) as := by
  obtain ⟨N, hN⟩ := h.opens hm
  refine ⟨N, fun fuel hfuel => ?_⟩
  obtain ⟨rest, x, s', hsupplies, -, hopen, hrest, -⟩ := hN fuel hfuel
  exact ⟨_, x, s', hsupplies.streams.comap g, h.prepare, hopen, hrest⟩

theorem Plan.close_total (plan : Plan) (fuel : Nat) (x : plan.Members) (s : LevelStore) :
    ∃ x' s', (plan.executor fuel).close x s = .ok (x', s') := by
  induction plan generalizing s with
  | seqScan scan => exact ⟨(), s, rfl⟩
  | nestedLoopJoin n left right predicate ihl ihr =>
    obtain ⟨l, s₁, hl⟩ := ihl (NestedLoopJoin.left x) s
    obtain ⟨r, s₂, hr⟩ := ihr (NestedLoopJoin.right x) s₁
    refine ⟨{ (x : NestedLoopJoin left.Members right.Members) with left := l, right := r }, s₂, ?_⟩
    show NestedLoopJoin.close (left.executor fuel) (right.executor fuel) x s = _
    simp [NestedLoopJoin.close, hl, hr]
    rfl
  | select left predicate ih => exact ih x s
  | project left attrs n ih =>
    obtain ⟨l, s₁, hl⟩ := ih (Project.left x) s
    refine ⟨{ (x : Project left.Members) with left := l }, s₁, ?_⟩
    show (Project.executor (left.executor fuel) attrs).close x s = _
    simp [Project.executor, hl]
    rfl

section

variable {α : Type} {plan : Plan} {s : LevelStore} {n : Nat} {shows : α → TupleRow → Prop} {outs : List α}

theorem Plan.Opens.select (h : plan.Opens s n shows outs) {predicate : BooleanExpr} {f : α → Bool}
    (hdecides : ∀ a ∈ outs, ∀ row, shows a row → predicate.getValue row = .ok (f a)) :
    (Plan.select plan predicate).Opens s n shows (outs.filter f) := by
  obtain ⟨N, hN⟩ := h
  refine ⟨max N (outs.length + 1), fun fuel hfuel => ?_⟩
  obtain ⟨R, x, s', hstreams, hprepare, hopen, hrest⟩ := hN fuel (le_of_max_le_left hfuel)
  have hselect := Select.streams fuel hstreams (P := (· ∈ outs)) (f := f) fun {a row} ha hshows => hdecides a ha row hshows
  refine ⟨_, x, s', hselect, hprepare, hopen, outs, hrest, fun a ha => ha, ?_, rfl⟩
  exact Nat.lt_of_succ_le (le_of_max_le_right hfuel)

theorem Plan.Opens.project (h : plan.Opens s n shows outs) {attrs : List ValueExpr} {g : α → RawTuple}
    (hprojected : ∀ a ∈ outs, ∀ row, shows a row → Project.projected attrs row = .ok (g a)) :
    (Plan.project plan attrs n).Opens s 1 (fun a row => row = [some (g a)]) outs := by
  obtain ⟨N, hN⟩ := h
  refine ⟨N, fun fuel hfuel => ?_⟩
  obtain ⟨R, x, s', hstreams, hprepare, hopen, hrest⟩ := hN fuel hfuel
  have hproject := Project.streams hstreams (P := (· ∈ outs)) (g := g) fun {a row} ha hshows => hprojected a ha row hshows
  refine ⟨_, (⟨x, TupleRow.new n⟩ : Project plan.Members), s', hproject, ?_, ?_, hrest, fun a ha => ha, TupleRow.length_new n⟩
  · show (Project.executor (plan.executor fuel) attrs).prepare (Project.new n plan.new) s = _
    simp [Project.executor, Project.new, hprepare]
    rfl
  · show (Project.executor (plan.executor fuel) attrs).execOpen (Project.new n plan.new) s = _
    simp [Project.executor, Project.new, hopen]
    rfl

end

/-! ## The projected tuple -/

namespace Project

variable {projectAttr : List ValueExpr} {row : TupleRow} {val : ValueExpr → Bytes}

/-- The expressions can be read, and `val` are their values. -/
def Reads (row : TupleRow) (val : ValueExpr → Bytes) (projectAttr : List ValueExpr) : Prop :=
  ∀ e ∈ projectAttr, ∃ p, e.getValue row = .ok p ∧ p.length = (val e).length ∧ p.bytes = .ok (val e)

def slotValues (val : SlotReference → Bytes) : ValueExpr → Bytes
  | .slotReference slot => val slot
  | _ => []

theorem map_slotValues (val : SlotReference → Bytes) (slots : List SlotReference) :
    (slots.map ValueExpr.slotReference).map (slotValues val) = slots.map val := by
  rw [map_map]
  rfl

theorem Reads.tail {e : ValueExpr} (h : Reads row val (e :: projectAttr)) : Reads row val projectAttr :=
  fun e' he' => h e' (mem_cons_of_mem _ he')

theorem foldlM_size (h : Reads row val projectAttr) {size : Nat} (hsize : size < 2 ^ 32) :
    projectAttr.foldlM (fun size e => do return (size + (← e.getValue row).length) % 2 ^ 32) size =
      .ok ((size + (projectAttr.map val).flatten.length) % 2 ^ 32) := by
  induction projectAttr generalizing size with
  | nil => exact congrArg Except.ok (Nat.mod_eq_of_lt hsize).symm
  | cons e es ih =>
    obtain ⟨p, hp, hlen, -⟩ := h e mem_cons_self
    rw [foldlM_cons, hp]
    simpa [hlen, Nat.add_assoc] using ih h.tail (Nat.mod_lt (size + p.length) (by decide))

/-- A pass of the loop without the wrap of `off`. -/
def lay (val : ValueExpr → Bytes) (acc : RawTuple × Nat) (attr : ValueExpr × Nat) : Res (RawTuple × Nat) := do
  let t ← acc.1.setSlot attr.2 acc.2 (val attr.1).length
  let t ← t.setValue acc.2 (val attr.1)
  return (t, acc.2 + (val attr.1).length)

theorem write_eq {e : ValueExpr} {b : Bytes}
    (h : ∃ p, e.getValue row = .ok p ∧ p.length = b.length ∧ p.bytes = .ok b) (t : RawTuple) (off i : Nat) :
    write row (t, off) (e, i) = (do
      let t ← t.setSlot i off b.length
      let t ← t.setValue off b
      return (t, (off + b.length) % 2 ^ 32)) := by
  obtain ⟨p, hp, hlen, hbytes⟩ := h
  simp [write, hp, hlen, hbytes]

theorem foldlM_write (h : Reads row val projectAttr) {off : Nat}
    (hoff : off + (projectAttr.map val).flatten.length < 2 ^ 32) (t : RawTuple) (i : Nat) :
    (projectAttr.zipIdx i).foldlM (write row) (t, off) = (projectAttr.zipIdx i).foldlM (lay val) (t, off) := by
  induction projectAttr generalizing t off i with
  | nil => rfl
  | cons e es ih =>
    rw [map_cons, flatten_cons, length_append] at hoff
    have hmod : (off + (val e).length) % 2 ^ 32 = off + (val e).length := Nat.mod_eq_of_lt (by omega)
    rw [zipIdx_cons, foldlM_cons, foldlM_cons, write_eq (h e mem_cons_self), hmod, lay]
    simp only [bind_assoc, pure_bind]
    congr 1
    funext t₁
    congr 1
    funext t₂
    exact ih h.tail (by omega) t₂ (i + 1)

theorem projected_eq (h : Reads row val projectAttr) (hfits : (RawTuple.layout (projectAttr.map val)).length < 2 ^ 32) :
    projected projectAttr row = .ok (Cells.ofBytes (RawTuple.layout (projectAttr.map val))) := by
  have hsize : sizeofSlot * projectAttr.length + (projectAttr.map val).flatten.length =
      (RawTuple.layout (projectAttr.map val)).length := by
    rw [RawTuple.length_layout, length_map]
  have hslots : sizeofSlot * projectAttr.length % 2 ^ 32 = sizeofSlot * projectAttr.length := Nat.mod_eq_of_lt (by omega)
  have hlay : ∀ e ∈ projectAttr, ∀ t off i, lay val (t, off) (e, i) = (do
      let t ← t.setSlot i off (val e).length
      let t ← t.setValue off (val e)
      return (t, off + (val e).length)) := fun _ _ _ _ _ => rfl
  obtain ⟨t, hfold, hload, hlen⟩ := RawTuple.foldlM_layout hlay
    (t := RawTuple.createTuple (RawTuple.layout (projectAttr.map val)).length) (by simp [RawTuple.createTuple])
  have ht : t = Cells.ofBytes (RawTuple.layout (projectAttr.map val)) := by
    obtain ⟨-, hread⟩ := Cells.load_eq_ok.1 hload
    rw [← hread, Block.read, drop_zero, take_of_length_le]
    simp [hlen, RawTuple.createTuple]
  have hwrites := foldlM_write h (by omega : sizeofSlot * projectAttr.length + _ < 2 ^ 32)
    (RawTuple.createTuple (RawTuple.layout (projectAttr.map val)).length) 0
  rw [projected, hslots, foldlM_size h (by omega), Res.ok_bind, hsize, Nat.mod_eq_of_lt hfits, hwrites, hfold, ht]
  rfl

end Project

end Dbms18
