import Dbms18.Executor.Streams

/-!
# The slots of a projected tuple

A projection computes sizes and offsets as `uint32_t` and stores the offsets in 16 bits. A slot whose
value starts at `65536` or behind refers to other bytes of the tuple.
-/

namespace Dbms18

open Res

namespace Project

variable {projectAttr : List ValueExpr} {row : TupleRow} {val : ValueExpr → Bytes}

theorem length_lt_of_projected (h : Reads row val projectAttr) {t : RawTuple} (ht : projected projectAttr row = .ok t) :
    (RawTuple.layout (projectAttr.map val)).length < 2 ^ 32 := by
  by_cases hne : projectAttr = []
  · simp [hne, RawTuple.length_layout]
  rw [projected, foldlM_size h (Nat.mod_lt _ (by decide)), ok_bind] at ht
  obtain ⟨r, hfold, -⟩ := bind_eq_ok.1 ht
  have hsize : ∀ n, (RawTuple.createTuple (n % 2 ^ 32)).length < 2 ^ 32 := by
    intro n
    rw [RawTuple.createTuple, Cells.length_alloc]
    exact Nat.mod_lt n (by decide)
  obtain ⟨hslots, hvalues⟩ := RawTuple.room_of_foldlM (fun x hx => Nat.mod_eq_of_lt (hx.trans_lt (hsize _)))
    (fun e he => write_eq (h e he)) hne rfl hfold
  have hlt := hsize (sizeofSlot * projectAttr.length % 2 ^ 32 + (projectAttr.map val).flatten.length)
  rw [Nat.zero_add] at hslots
  rw [Nat.mod_eq_of_lt (hslots.trans_lt (hsize _))] at hvalues hlt
  rw [RawTuple.length_layout, List.length_map]
  exact hvalues.trans_lt hlt

theorem projected_slots_iff (h : Reads row val projectAttr) (hval : ∀ e ∈ projectAttr, (val e).length < 65536) :
    (∃ t, projected projectAttr row = .ok t ∧ ∀ i b, (projectAttr.map val)[i]? = some b → t.slotValue i = .ok b) ↔
      (RawTuple.layout (projectAttr.map val)).length < 2 ^ 32 ∧ RawTuple.SlotsExact (projectAttr.map val) := by
  have hbs : ∀ b ∈ projectAttr.map val, b.length < 65536 := by
    intro b hb
    obtain ⟨e, he, rfl⟩ := List.mem_map.1 hb
    exact hval e he
  constructor
  · rintro ⟨t, ht, hslots⟩
    have hlt := length_lt_of_projected h ht
    obtain rfl := Except.ok.inj (ht.symm.trans (projected_eq h hlt))
    exact ⟨hlt, (RawTuple.slotsExact_iff hbs).1 hslots⟩
  · rintro ⟨hlt, hexact⟩
    exact ⟨_, projected_eq h hlt, (RawTuple.slotsExact_iff hbs).2 hexact⟩

end Project

def SlotReference.valueOf (slot : SlotReference) (row : TupleRow) : Res Bytes := do (← slot.getValue row).bytes

theorem SlotReference.getValue_of_valueOf {slot : SlotReference} {row : TupleRow} {b : Bytes}
    (h : slot.valueOf row = .ok b) {n : Nat} (hsize : ∀ t, some t ∈ row → t.length ≤ n) :
    ∃ p, slot.getValue row = .ok p ∧ p.length = b.length ∧ p.bytes = .ok b ∧ b.length ≤ n := by
  obtain ⟨p, hp, hbytes⟩ := bind_eq_ok.1 h
  obtain ⟨t, ht, hget⟩ := bind_eq_ok.1 hp
  obtain ⟨length, -, hget⟩ := bind_eq_ok.1 hget
  obtain ⟨offset, -, hget⟩ := bind_eq_ok.1 hget
  obtain rfl := Except.ok.inj hget
  obtain ⟨o, ho, hsome⟩ := bind_eq_ok.1 ht
  rw [getD_eq_ok] at ho hsome
  subst hsome
  obtain ⟨hle, -⟩ := Cells.load_eq_ok.1 hbytes
  have hlen : b.length = length.toNat := Cells.length_load hbytes
  have hmem := hsize t (List.mem_of_getElem? ho)
  refine ⟨_, hp, hlen.symm, hbytes, ?_⟩
  dsimp only at hle
  omega

namespace Project

theorem projected_slotReferences_iff {row : TupleRow} {slots : List SlotReference} {val : SlotReference → Bytes}
    (hsize : ∀ t, some t ∈ row → t.length ≤ 8192) (hval : ∀ slot ∈ slots, slot.valueOf row = .ok (val slot)) :
    (∃ t, projected (slots.map .slotReference) row = .ok t ∧
      ∀ i slot, slots[i]? = some slot → t.slotValue i = .ok (val slot)) ↔
    (RawTuple.layout (slots.map val)).length < 2 ^ 32 ∧ RawTuple.SlotsExact (slots.map val) := by
  have hreads : Reads row (slotValues val) (slots.map .slotReference) := by
    intro e he
    obtain ⟨slot, hslot, rfl⟩ := List.mem_map.1 he
    obtain ⟨p, hp, hlen, hbytes, -⟩ := SlotReference.getValue_of_valueOf (hval slot hslot) hsize
    exact ⟨p, hp, hlen, hbytes⟩
  have hbound : ∀ e ∈ slots.map ValueExpr.slotReference, (slotValues val e).length < 65536 := by
    intro e he
    obtain ⟨slot, hslot, rfl⟩ := List.mem_map.1 he
    obtain ⟨-, -, -, -, hle⟩ := SlotReference.getValue_of_valueOf (hval slot hslot) hsize
    exact hle.trans_lt (by decide)
  rw [← map_slotValues val slots, ← projected_slots_iff hreads hbound, map_slotValues]
  refine exists_congr fun t => and_congr_right fun _ => forall_congr' fun i => ?_
  simp only [List.getElem?_map, Option.map_eq_some_iff]
  exact ⟨fun h b ⟨slot, hslot, heq⟩ => heq ▸ h slot hslot, fun h slot hslot => h _ ⟨slot, hslot, rfl⟩⟩

section

variable {ω σ : Type} {left : Executor ω σ} {p : Project σ} {w w' : ω} {l : σ} {row dest : TupleRow}
  (hleft : left.getNext p.left w p.tupleRow = .ok (.ok, row, l, w')) (hdest : 0 < dest.length)
include hleft hdest

theorem getNext_eq_ok_iff {projectAttr : List ValueExpr} {t : RawTuple} :
    getNext left projectAttr p w dest = .ok (.ok, dest.set 0 (some t), ⟨l, row⟩, w') ↔
      projected projectAttr row = .ok t := by
  have hset : ∀ t, dest.setTuple 0 t = .ok (dest.set 0 (some t)) := fun t => by
    rw [TupleRow.setTuple, check_of hdest]
    rfl
  constructor
  · intro hnext
    simp only [getNext, hleft, ok_bind] at hnext
    obtain ⟨t', ht', hnext⟩ := bind_eq_ok.1 hnext
    rw [hset, ok_bind] at hnext
    have hrow := (Prod.mk.inj (Prod.mk.inj (Except.ok.inj hnext)).2).1
    have hget := congrArg (fun r : TupleRow => r[0]?) hrow
    simp only [List.getElem?_set_self hdest, Option.some.injEq] at hget
    rw [ht', hget]
  · intro ht
    simp [getNext, hleft, ht, hset]

/-- The tuple that `GetNext` builds has in slot `i` the value of the `i`-th expression, for every `i`, if
and only if it has less than `2 ^ 32` bytes and the slots refer to the values. -/
theorem getNext_slots_iff {slots : List SlotReference} {val : SlotReference → Bytes}
    (hsize : ∀ t, some t ∈ row → t.length ≤ 8192) (hval : ∀ slot ∈ slots, slot.valueOf row = .ok (val slot)) :
    (∃ t, getNext left (slots.map .slotReference) p w dest = .ok (.ok, dest.set 0 (some t), ⟨l, row⟩, w') ∧
      ∀ i slot, slots[i]? = some slot → t.slotValue i = .ok (val slot)) ↔
    (RawTuple.layout (slots.map val)).length < 2 ^ 32 ∧ RawTuple.SlotsExact (slots.map val) := by
  rw [← projected_slotReferences_iff hsize hval]
  exact exists_congr fun t => and_congr_left fun _ => getNext_eq_ok_iff hleft hdest

end

theorem slotsExact_of_length_lt {bs : List Bytes} (h : (RawTuple.layout bs).length < 65536) : RawTuple.SlotsExact bs := by
  intro i b hb
  have := RawTuple.valueOffset_add_length_le hb
  exact .inl (by omega)

theorem getNext_slots_iff_integer : ∃ s t, getNext (SeqScan.executor ⟨0, 0⟩)
      ((List.replicate 2 ⟨0, 0, .integer⟩).map .slotReference) (new 1 ()) (.scanning [[([1], integerRecord 5)]]) [none] =
        .ok (.ok, [some t], ⟨(), [some (Cells.ofBytes (integerRecord 5))]⟩, s) ∧
      ∀ i slot, (List.replicate 2 (⟨0, 0, .integer⟩ : SlotReference))[i]? = some slot →
        t.slotValue i = .ok [5, 0, 0, 0, 0, 0, 0, 0] := by
  obtain ⟨s, hleft⟩ : ∃ s, (SeqScan.executor ⟨0, 0⟩).getNext () (.scanning [[([1], integerRecord 5)]]) (.new 1) =
      .ok (.ok, [some (Cells.ofBytes (integerRecord 5))], (), s) := ⟨_, rfl⟩
  have hval : ∀ slot ∈ List.replicate 2 (⟨0, 0, .integer⟩ : SlotReference),
      slot.valueOf [some (Cells.ofBytes (integerRecord 5))] = .ok [5, 0, 0, 0, 0, 0, 0, 0] := by
    intro slot hslot
    obtain rfl := List.eq_of_mem_replicate hslot
    rfl
  have hdest : 0 < [(none : Option RawTuple)].length := by decide
  refine ⟨s, (getNext_slots_iff (p := new 1 ()) hleft hdest ?_ hval).2 ⟨by decide, slotsExact_of_length_lt (by decide)⟩⟩
  simp [integerRecord]

section Wide

variable {v : Bytes}

theorem valueOf_layout (hv : v.length < 65532) (dataType : DataType) :
    SlotReference.valueOf ⟨0, 0, dataType⟩ [some (Cells.ofBytes (RawTuple.layout [v]))] = .ok v := by
  have hv₀ : [v][0]? = some v := rfl
  have hvalue := RawTuple.slotValue_layout hv₀ (by omega)
  have hoffset : RawTuple.valueOffset [v] 0 = 4 := rfl
  rw [hoffset, Nat.mod_eq_of_lt (by decide), ← hoffset, RawTuple.read_layout rfl] at hvalue
  exact hvalue

/-- Nine values of 8188 bytes: the last starts at 65540, and its slot refers to byte 4, where the slot of
the second value is. -/
theorem not_slotsExact (hv : v.length = 8188) (hhead : v.head? ≠ some 32) : ¬ RawTuple.SlotsExact (List.replicate 9 v) := by
  intro hexact
  rcases hexact 8 v rfl with hlt | hread
  · simp [RawTuple.valueOffset, hv, sizeofSlot] at hlt
  · have hoffset : RawTuple.valueOffset (List.replicate 9 v) 8 % 65536 = 4 := by
      simp [RawTuple.valueOffset, hv, sizeofSlot]
    have hsecond : (RawTuple.layout (List.replicate 9 v)).drop 4 = 32 :: (RawTuple.layout (List.replicate 9 v)).drop 5 := by
      simp [RawTuple.layout, RawTuple.slotBytes, List.replicate, hv, sizeofSlot, leBytes]
    rw [hoffset, Block.read, hsecond, hv] at hread
    exact hhead (hread ▸ rfl)

end Wide

def wideTuple : RawTuple := Cells.ofBytes (RawTuple.layout [List.replicate 8188 0])

theorem not_slots_wideTuple : (∀ t, some t ∈ [some wideTuple] → t.length ≤ 8192) ∧
    (∀ slot ∈ List.replicate 9 (⟨0, 0, .varchar⟩ : SlotReference),
      slot.valueOf [some wideTuple] = .ok (List.replicate 8188 0)) ∧
    ¬ ∃ t, projected ((List.replicate 9 ⟨0, 0, .varchar⟩).map .slotReference) [some wideTuple] = .ok t ∧
      ∀ i slot, (List.replicate 9 (⟨0, 0, .varchar⟩ : SlotReference))[i]? = some slot →
        t.slotValue i = .ok (List.replicate 8188 0) := by
  generalize hv : List.replicate 8188 (0 : UInt8) = v
  have hlen : v.length = 8188 := hv ▸ List.length_replicate
  have hhead : v.head? ≠ some 32 := by
    rw [← hv, List.replicate_succ]
    decide
  have hwide : wideTuple = Cells.ofBytes (RawTuple.layout [v]) := by rw [wideTuple, hv]
  have hsize : ∀ t, some t ∈ [some wideTuple] → t.length ≤ 8192 := by
    intro t ht
    obtain rfl := Option.some.inj (List.mem_singleton.1 ht)
    rw [hwide]
    simp [RawTuple.length_layout, hlen, sizeofSlot]
  have hval : ∀ slot ∈ List.replicate 9 (⟨0, 0, .varchar⟩ : SlotReference), slot.valueOf [some wideTuple] = .ok v := by
    intro slot hslot
    rw [List.eq_of_mem_replicate hslot, hwide]
    exact valueOf_layout (by omega) .varchar
  refine ⟨hsize, hval, fun h => ?_⟩
  obtain ⟨-, hexact⟩ := (projected_slotReferences_iff hsize hval).1 h
  rw [List.map_replicate] at hexact
  exact not_slotsExact hlen hhead hexact

end Project

end Dbms18
