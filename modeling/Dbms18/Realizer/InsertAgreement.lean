import Dbms18.Executor.LoadRow
import Dbms18.Realizer.Insert

/-!
# INSERT against COPY (`QueryRealizer::ExecInsert`, `Load::Exec`)

`ExecInsert` should put the same bytes for a row as the loader. It takes the values by position only if there
are none, and by the column names otherwise, so a statement without names fails in both cases; and of a column
that is named it writes the value but not the slot. The slot is then whatever the fresh block held, so no
statement for a relation that has columns is right on every block (`insertAgrees_iff`).
-/

namespace Dbms18

open Res List

namespace InsertStmt

/-- The statement gives values for distinct columns by their names, or for all columns in their order. -/
def Matches (stmt : InsertStmt) (rel : Relation) : Prop :=
  (stmt.optColumnNameList.Nodup ∧ (∀ name ∈ stmt.optColumnNameList, ∃ a ∈ rel.attributes, a.name = name) ∧
      stmt.optColumnNameList.length = stmt.valueList.length) ∨
    stmt.optColumnNameList = [] ∧ stmt.valueList.length = rel.attributes.length

/-- The value that the statement gives for the column with this place and name. -/
def given (stmt : InsertStmt) (i : Nat) (name : Bytes) : Option ConstValue :=
  if stmt.optColumnNameList = [] then stmt.valueList[i]? else (stmt.optColumnNameList.zip stmt.valueList).lookup name

/-- The value of a column, from what the statement gives: a text is read as the loader reads it, and a column
without a value is zero or empty. -/
def ColumnValue : DataType → Option ConstValue → Value → Prop
  | .integer, some (.varchar text), v => ∃ i, MiniCsv.parseInteger text = some i ∧ v = .integer i
  | .integer, some (.integer i), v => v = .integer i
  | .integer, none, v => v = .integer 0
  | .varchar, some (.varchar text), v => v = .varchar text
  | .varchar, none, v => v = .varchar []
  | _, _, _ => False

/-- The row that the statement asks for, of INTEGER and VARCHAR columns. -/
structure Asks (stmt : InsertStmt) (rel : Relation) (row : Row) : Prop where
  matching : stmt.Matches rel
  length : row.length = rel.attributes.length
  value : ∀ i (a : Attribute) v, rel.attributes[i]? = some a → row[i]? = some v →
    ColumnValue a.dataType (stmt.given i a.name) v

end InsertStmt

namespace InsertValue

/-- Whatever the fresh block holds, what `ExecInsert` puts are the bytes that the loader puts for the row. -/
def InsertAgrees (stmt : InsertStmt) (rel : Relation) (row : Row) : Prop :=
  ∀ host, ∃ tuple off, makeTuple host stmt rel = .ok (tuple, off) ∧ tuple.getValue 0 off = .ok row.record

/-! ## The slot of a named column -/

variable {name2val : List (Bytes × ConstValue)} {i j n : Nat} {attr : Attribute} {tuple tuple' : RawTuple}
variable {off off' : Nat} {host : InsertHost} {stmt : InsertStmt} {rel : Relation} {row : Row}

theorem load_setSlot_of_ne {offset length : Nat} (h : tuple.setSlot i offset length = .ok tuple') (hne : i ≠ j) :
    Cells.load tuple' (sizeofSlot * j) 4 = Cells.load tuple (sizeofSlot * j) 4 := by
  obtain ⟨t, h₁, h₂⟩ := bind_eq_ok.1 h
  have htwo : ∀ k, (leBytes 2 k).length = 2 := length_leBytes 2
  simp only [sizeofSlot] at *
  rw [Cells.load_store_of_disjoint h₂ (by rw [htwo]; omega), Cells.load_store_of_disjoint h₁ (by rw [htwo]; omega)]

theorem setColumn_keeps (hj : j < n) (hnamed : i = j → (name2val.lookup attr.name).isSome)
    (hoff : sizeofSlot * n ≤ off) (h : setColumn name2val (tuple, off) (attr, i) = .ok (tuple', off')) :
    sizeofSlot * n ≤ off' ∧ Cells.load tuple' (sizeofSlot * j) 4 = Cells.load tuple (sizeofSlot * j) 4 := by
  obtain ⟨t, hvalue, h⟩ := bind_eq_ok.1 h
  have hkeep : Cells.load t (sizeofSlot * j) 4 = Cells.load tuple (sizeofSlot * j) 4 := by
    dsimp only at hvalue
    split at hvalue
    · refine Cells.load_store_of_disjoint hvalue (.inl ?_)
      simp only [sizeofSlot] at hoff ⊢
      omega
    · rw [Except.ok.inj hvalue]
  dsimp only at h
  split at h
  · obtain ⟨rfl, rfl⟩ := Prod.mk.inj (Except.ok.inj h)
    exact ⟨hoff, hkeep⟩
  · next hnone =>
    obtain ⟨t', hslot, h⟩ := bind_eq_ok.1 h
    obtain ⟨rfl, rfl⟩ := Prod.mk.inj (Except.ok.inj h)
    have hne : i ≠ j := by
      rintro rfl
      simpa [hnone] using hnamed rfl
    exact ⟨hoff.trans (Nat.le_add_right _ _), (load_setSlot_of_ne hslot hne).trans hkeep⟩

theorem load_makeTuple (hj : rel.attributes[j]? = some attr)
    (hname2val : nameValues stmt rel = .ok name2val) (hnamed : (name2val.lookup attr.name).isSome)
    (h : makeTuple host stmt rel = .ok (tuple, off)) :
    sizeofSlot * rel.attributes.length ≤ off ∧
      Cells.load tuple (sizeofSlot * j) 4 = Cells.load (Cells.ofBytes host.block) (sizeofSlot * j) 4 := by
  rw [makeTuple, hname2val, ok_bind] at h
  have hlt := (List.getElem?_eq_some_iff.1 hj).1
  refine foldlM_keeps (P := fun acc : RawTuple × Nat => sizeofSlot * rel.attributes.length ≤ acc.2 ∧
    Cells.load acc.1 (sizeofSlot * j) 4 = Cells.load (Cells.ofBytes host.block) (sizeofSlot * j) 4) ?_ ⟨le_rfl, rfl⟩ h
  rintro ⟨t, o⟩ ⟨a, i⟩ hai ⟨t', o'⟩ ⟨ho, hload⟩ hstep
  have hi : rel.attributes[i]? = some a := mem_zipIdx_iff_getElem?.1 hai
  have hnamed' : i = j → (name2val.lookup a.name).isSome := by
    rintro rfl
    rw [Option.some.inj (hi.symm.trans hj)]
    exact hnamed
  obtain ⟨ho', hload'⟩ := setColumn_keeps hlt hnamed' ho hstep
  exact ⟨ho', hload'.trans hload⟩

theorem exists_named (hmatch : stmt.Matches rel) (hrel : rel.attributes ≠ []) (h : nameValues stmt rel = .ok name2val) :
    ∃ (j : Nat) (attr : Attribute), rel.attributes[j]? = some attr ∧ (name2val.lookup attr.name).isSome := by
  unfold nameValues at h
  split at h
  · next hnil =>
    -- the test is the wrong way round: without values it takes them by position
    obtain ⟨_, hcheck, -⟩ := bind_eq_ok.1 h
    have hlen := check_eq_ok.1 hcheck
    rw [hnil] at hlen
    exact absurd (length_eq_zero_iff.1 hlen.symm) hrel
  · next hcons =>
    obtain ⟨value, values, hvalues⟩ := exists_cons_of_ne_nil hcons
    rw [hvalues, zipIdx_cons, mapM_eq_ok] at h
    obtain ⟨pair, name2val, hpair, -, rfl⟩ := forall₂_cons_left_iff.1 h
    obtain ⟨name, hname, hpair⟩ := bind_eq_ok.1 hpair
    obtain rfl := Except.ok.inj hpair
    have hmem : name ∈ stmt.optColumnNameList := mem_of_getElem? (getD_eq_ok.1 hname)
    rcases hmatch with ⟨-, hnames, -⟩ | ⟨hnames, -⟩
    · obtain ⟨attr, hattr, rfl⟩ := hnames name hmem
      obtain ⟨j, hj⟩ := getElem?_of_mem hattr
      exact ⟨j, attr, hj, by simp⟩
    · rw [hnames] at hmem
      cases hmem

def filled (b : UInt8) : InsertHost := ⟨[], .ok, List.replicate 8192 b, length_replicate⟩

theorem load_filled (b : UInt8) (hj : sizeofSlot * j + 4 ≤ 8192) :
    Cells.load (Cells.ofBytes (filled b).block) (sizeofSlot * j) 4 = .ok [b, b, b, b] := by
  rw [Cells.load_ofBytes (by rw [(filled b).length_block]; exact hj), Block.read, filled, drop_replicate,
    take_replicate, Nat.min_eq_left (by omega)]
  rfl

theorem record_of_filled {b : UInt8} (hj : rel.attributes[j]? = some attr) (hname2val : nameValues stmt rel = .ok name2val)
    (hnamed : (name2val.lookup attr.name).isSome) (hsize : row.record.length ≤ 8192)
    (h : InsertAgrees stmt rel row) : Cells.load (Cells.ofBytes row.record) (sizeofSlot * j) 4 = .ok [b, b, b, b] := by
  obtain ⟨tuple, off, hmake, hget⟩ := h (filled b)
  obtain ⟨hoff, hload⟩ := load_makeTuple hj hname2val hnamed hmake
  have hlt := (List.getElem?_eq_some_iff.1 hj).1
  have hlen := Cells.length_load hget
  simp only [sizeofSlot] at hoff hload ⊢
  rw [Cells.load_ofBytes_of_load hget (by omega), hload]
  exact load_filled b (by simp only [sizeofSlot]; omega)

theorem not_insertAgrees (h : stmt.Asks rel row) (hsize : row.record.length ≤ 8192) (hrel : rel.attributes ≠ []) :
    ¬ InsertAgrees stmt rel row := by
  intro hagrees
  obtain ⟨_, _, hmake, -⟩ := hagrees (filled 0)
  obtain ⟨name2val, hname2val, -⟩ := bind_eq_ok.1 hmake
  obtain ⟨j, attr, hj, hnamed⟩ := exists_named h.matching hrel hname2val
  -- the record would hold in the slot what either block holds there
  have hzero := record_of_filled (b := 0) hj hname2val hnamed hsize hagrees
  have hone := record_of_filled (b := 1) hj hname2val hnamed hsize hagrees
  cases hzero.symm.trans hone

theorem insertAgrees_of_nil (h : stmt.Asks rel row) (hrel : rel.attributes = []) : InsertAgrees stmt rel row := by
  intro host
  have hrow : row = [] := length_eq_zero_iff.1 (by rw [h.length, hrel]; rfl)
  have hvalues : stmt.valueList = [] := by
    rcases h.matching with ⟨-, hnames, hlen⟩ | ⟨-, hlen⟩
    · have hnil : stmt.optColumnNameList = [] := by
        refine eq_nil_iff_forall_not_mem.2 fun name hname => ?_
        obtain ⟨a, ha, -⟩ := hnames name hname
        rw [hrel] at ha
        cases ha
      exact length_eq_zero_iff.1 (by rw [← hlen, hnil]; rfl)
    · exact length_eq_zero_iff.1 (by rw [hlen, hrel]; rfl)
  refine ⟨Cells.ofBytes host.block, 0, ?_, ?_⟩
  · simp [makeTuple, nameValues, hvalues, hrel, Res.check]
  · rw [hrow]
    exact Cells.load_ofBytes (Nat.zero_le _)

/-- A statement is stored as the loader stores its row exactly if the relation has no columns. -/
theorem insertAgrees_iff (h : stmt.Asks rel row) (hsize : row.record.length ≤ 8192) :
    InsertAgrees stmt rel row ↔ rel.attributes = [] :=
  ⟨fun hagrees => by_contra fun hrel => not_insertAgrees h hsize hrel hagrees, insertAgrees_of_nil h⟩

def emptyRelation : Relation := { name := ascii "e" }

theorem insertAgrees_iff_emptyRelation :
    InsertStmt.Asks ⟨ascii "e", [], []⟩ emptyRelation [] ∧ InsertAgrees ⟨ascii "e", [], []⟩ emptyRelation [] := by
  have hasks : InsertStmt.Asks ⟨ascii "e", [], []⟩ emptyRelation [] := by
    refine ⟨.inr ⟨rfl, rfl⟩, rfl, fun i a v ha _ => ?_⟩
    cases ha
  exact ⟨hasks, (insertAgrees_iff hasks (by decide)).2 rfl⟩

def integerColumn : Relation := { name := ascii "t", attributes := [{ name := ascii "a", dataType := .integer }] }

/-- `INSERT INTO t (a) VALUES ('5')` -/
def namedFive : InsertStmt := ⟨ascii "t", [ascii "a"], [.varchar (ascii "5")]⟩

/-- `INSERT INTO t VALUES ('5')` -/
def unnamedFive : InsertStmt := ⟨ascii "t", [], [.varchar (ascii "5")]⟩

theorem asks_five {stmt : InsertStmt} (hmatch : stmt.Matches integerColumn)
    (hgiven : stmt.given 0 (ascii "a") = some (.varchar (ascii "5"))) : stmt.Asks integerColumn [.integer 5] := by
  refine ⟨hmatch, rfl, fun i a v ha hv => ?_⟩
  cases i with
  | zero =>
    obtain rfl := Option.some.inj ha
    obtain rfl := Option.some.inj hv
    rw [hgiven]
    exact ⟨5, by decide, rfl⟩
  | succ i => cases ha

/-- With the name the record has no value at all, only what stood where its slot should be; without the name
there is no record. -/
theorem insert_five :
    namedFive.Asks integerColumn [.integer 5] ∧ unnamedFive.Asks integerColumn [.integer 5] ∧
      (∀ host, ∃ tuple, makeTuple host namedFive integerColumn = .ok (tuple, 4) ∧
        tuple.getValue 0 4 = .ok (host.block.take 4)) ∧
      (∀ host, makeTuple host unnamedFive integerColumn = .error .outOfBounds) ∧
      ¬ InsertAgrees namedFive integerColumn [.integer 5] ∧ ¬ InsertAgrees unnamedFive integerColumn [.integer 5] := by
  have hnamed : namedFive.Asks integerColumn [.integer 5] := asks_five (.inl (by decide)) rfl
  have hunnamed : unnamedFive.Asks integerColumn [.integer 5] := asks_five (.inr (by decide)) rfl
  refine ⟨hnamed, hunnamed, fun host => ?_, fun _ => rfl, not_insertAgrees hnamed (by decide) (by decide),
    not_insertAgrees hunnamed (by decide) (by decide)⟩
  have hblock := host.length_block
  have hroom : 4 + (leBytes 8 0).length ≤ (Cells.ofBytes host.block).length := by
    rw [Cells.length_ofBytes, hblock]
    decide
  obtain ⟨tuple, hstore⟩ := Cells.exists_store hroom
  have hmake : makeTuple host namedFive integerColumn = .ok (tuple, 4) := by
    change (Cells.store (Cells.ofBytes host.block) 4 (leBytes 8 0) >>= fun t => .ok (t, 4)) >>= .ok = _
    rw [hstore]
    rfl
  obtain ⟨-, hload⟩ := load_makeTuple (j := 0) rfl rfl rfl hmake
  exact ⟨tuple, hmake, hload.trans (Cells.load_ofBytes (by rw [hblock]; decide))⟩

end InsertValue

end Dbms18
