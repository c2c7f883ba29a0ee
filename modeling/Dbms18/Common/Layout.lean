import Mathlib.Data.List.Perm.Subperm
import Dbms18.Common.Value

/-!
# The layout of a tuple

The loader and the projection fill a tuple alike: for one column after the other they set its slot and
copy its value behind the values that are there. What comes out is `layout`, whatever the memory held
before, and its slots refer to the values.
-/

namespace Dbms18

open List

theorem Block.read_append {α : Type*} {x y : List α} (z : List α) {off n : Nat} (hoff : x.length = off) (hn : y.length = n) :
    Block.read (x ++ (y ++ z)) off n = y := by
  rw [Block.read, drop_left' hoff, take_left' hn]

namespace RawTuple

/-- The slots of values that stand one behind the other from `off` on. -/
def slotBytes (off : Nat) : List Bytes → Bytes
  | [] => []
  | b :: bs => leBytes 2 off ++ (leBytes 2 b.length ++ slotBytes (off + b.length) bs)

/-- The slots, and behind them the values. -/
def layout (bs : List Bytes) : Bytes := slotBytes (sizeofSlot * bs.length) bs ++ bs.flatten

theorem length_slotBytes (off : Nat) (bs : List Bytes) : (slotBytes off bs).length = sizeofSlot * bs.length := by
  induction bs generalizing off with
  | nil => rfl
  | cons b bs ih =>
    simp only [slotBytes, length_append, length_leBytes, ih, length_cons, sizeofSlot]
    omega

theorem slotBytes_append (off : Nat) (bs bs' : List Bytes) :
    slotBytes off (bs ++ bs') = slotBytes off bs ++ slotBytes (off + bs.flatten.length) bs' := by
  induction bs generalizing off with
  | nil => rfl
  | cons b bs ih => simp [slotBytes, ih, Nat.add_assoc]

theorem length_layout (bs : List Bytes) : (layout bs).length = sizeofSlot * bs.length + bs.flatten.length := by
  rw [layout, length_append, length_slotBytes]

theorem length_layout_map_le {ι : Type} {f : ι → Bytes} {is js : List ι} (hnodup : is.Nodup) (hsubset : is ⊆ js) :
    (layout (is.map f)).length ≤ (layout (js.map f)).length := by
  have hsublist : ∀ {bs bs' : List Bytes}, bs.Sublist bs' → (layout bs).length ≤ (layout bs').length := by
    intro bs bs' h
    simp only [length_layout, sizeofSlot]
    induction h with
    | slnil => exact le_rfl
    | cons b _ ih | cons_cons b _ ih =>
      simp only [length_cons, flatten_cons, length_append]
      omega
  obtain ⟨l, hperm, hsub⟩ := subperm_of_subset hnodup hsubset
  calc (layout (is.map f)).length = (layout (l.map f)).length := by
        rw [length_layout, length_layout, (hperm.map f).flatten.length_eq, (hperm.map f).length_eq]
    _ ≤ (layout (js.map f)).length := hsublist (hsub.map f)

/-! ## Reading -/

variable {off i : Nat}

theorem load_layout (bs : List Bytes) (b : Bytes) (bs' : List Bytes)
    (hoff : off = sizeofSlot * (bs ++ b :: bs').length + bs.flatten.length) :
    (Cells.ofBytes (layout (bs ++ b :: bs'))).load (sizeofSlot * bs.length) 2 = .ok (leBytes 2 off) ∧
      (Cells.ofBytes (layout (bs ++ b :: bs'))).load (sizeofSlot * bs.length + 2) 2 = .ok (leBytes 2 b.length) ∧
      (Cells.ofBytes (layout (bs ++ b :: bs'))).load off b.length = .ok b := by
  have hlen := length_layout (bs ++ b :: bs')
  have hflat : (bs ++ b :: bs').flatten.length = bs.flatten.length + (b.length + bs'.flatten.length) := by simp
  have hslot : sizeofSlot * (bs ++ b :: bs').length = sizeofSlot * bs.length + 4 + sizeofSlot * bs'.length := by
    simp only [length_append, length_cons, sizeofSlot]
    omega
  generalize hbefore : slotBytes (sizeofSlot * (bs ++ b :: bs').length) bs = before
  have hbefore' : before.length = sizeofSlot * bs.length := hbefore ▸ length_slotBytes _ bs
  have hshape : layout (bs ++ b :: bs') = before ++ (leBytes 2 off ++ (leBytes 2 b.length ++
      (slotBytes (off + b.length) bs' ++ (bs.flatten ++ (b ++ bs'.flatten))))) := by
    rw [layout, slotBytes_append, hbefore]
    simp [slotBytes, hoff]
  refine ⟨?_, ?_, ?_⟩
  · rw [Cells.load_ofBytes (by omega), hshape, Block.read_append _ hbefore' (length_leBytes 2 off)]
  · rw [Cells.load_ofBytes (by omega), hshape, ← append_assoc,
      Block.read_append _ (by simp [hbefore']) (length_leBytes 2 b.length)]
  · have hbehind : layout (bs ++ b :: bs') = (before ++ (leBytes 2 off ++ (leBytes 2 b.length ++
        (slotBytes (off + b.length) bs' ++ bs.flatten)))) ++ (b ++ bs'.flatten) := by
      rw [hshape]
      simp
    rw [Cells.load_ofBytes (by omega), hbehind, Block.read_append _ ?_ rfl]
    simp only [length_append, length_leBytes, length_slotBytes, hbefore']
    omega

def valueOffset (bs : List Bytes) (i : Nat) : Nat := sizeofSlot * bs.length + (bs.take i).flatten.length

section

variable {bs : List Bytes} {i : Nat} {b : Bytes} (h : bs[i]? = some b)
include h

theorem split_of_getElem? : bs.take i ++ b :: bs.drop (i + 1) = bs ∧ (bs.take i).length = i := by
  obtain ⟨hlt, rfl⟩ := List.getElem?_eq_some_iff.1 h
  rw [getElem_cons_drop, take_append_drop, length_take, Nat.min_eq_left hlt.le]
  exact ⟨rfl, rfl⟩

theorem valueOffset_add_length_le : valueOffset bs i + b.length ≤ (layout bs).length := by
  have hflat := congrArg (fun l => l.flatten.length) (split_of_getElem? h).1
  simp only [flatten_append, flatten_cons, length_append] at hflat
  rw [length_layout, valueOffset]
  omega

theorem load_layout_of_getElem? :
    (Cells.ofBytes (layout bs)).load (sizeofSlot * i) 2 = .ok (leBytes 2 (valueOffset bs i)) ∧
      (Cells.ofBytes (layout bs)).load (sizeofSlot * i + 2) 2 = .ok (leBytes 2 b.length) ∧
      (Cells.ofBytes (layout bs)).load (valueOffset bs i) b.length = .ok b := by
  obtain ⟨hsplit, hlen⟩ := split_of_getElem? h
  have hloads := load_layout (bs.take i) b (bs.drop (i + 1)) rfl
  rwa [hsplit, hlen] at hloads

end

def slotValue (t : RawTuple) (nth : Nat) : Res Bytes := do
  let length ← t.slotLength nth
  let offset ← t.slotOffset nth
  t.getValue offset.toNat length.toNat

theorem slotValue_layout {bs : List Bytes} {b : Bytes} (h : bs[i]? = some b) (hb : b.length < 65536) :
    slotValue (Cells.ofBytes (layout bs)) i = .ok (Block.read (layout bs) (valueOffset bs i % 65536) b.length) := by
  obtain ⟨hoffset, hlength, -⟩ := load_layout_of_getElem? h
  have hle := valueOffset_add_length_le h
  have hmod : (valueOffset bs i).toUInt16.toNat = valueOffset bs i % 65536 := by simp
  have hroom : valueOffset bs i % 65536 + b.length ≤ (layout bs).length := by
    have := Nat.mod_le (valueOffset bs i) 65536
    omega
  simp only [slotValue, slotOffset_of_load i hoffset, slotLength_of_load i hlength, Res.ok_bind, toNat_toUInt16 hb, hmod]
  exact Cells.load_ofBytes hroom

theorem read_layout {bs : List Bytes} {b : Bytes} (h : bs[i]? = some b) :
    Block.read (layout bs) (valueOffset bs i) b.length = b := by
  obtain ⟨-, -, hvalue⟩ := load_layout_of_getElem? h
  exact Except.ok.inj ((Cells.load_ofBytes (valueOffset_add_length_le h)).symm.trans hvalue)

/-- The slots of the layout refer to the values as far as the offsets survive the 16 bits, or what stands
at the wrong place is the value again. -/
def SlotsExact (bs : List Bytes) : Prop :=
  ∀ i b, bs[i]? = some b → valueOffset bs i < 65536 ∨ Block.read (layout bs) (valueOffset bs i % 65536) b.length = b

theorem slotsExact_iff {bs : List Bytes} (hbs : ∀ b ∈ bs, b.length < 65536) :
    (∀ i b, bs[i]? = some b → slotValue (Cells.ofBytes (layout bs)) i = .ok b) ↔ SlotsExact bs := by
  refine forall₃_congr fun i b h => ?_
  rw [slotValue_layout h (hbs b (mem_of_getElem? h))]
  constructor
  · exact fun heq => .inr (Except.ok.inj heq)
  · rintro (hlt | heq)
    · rw [Nat.mod_eq_of_lt hlt, read_layout h]
    · rw [heq]

theorem holds_layout {row : Row} (hfits : (layout (row.map Value.bytes)).length < 65536) :
    RawTuple.Holds (Cells.ofBytes (layout (row.map Value.bytes))) row := by
  intro j v hj
  have hj' : (row.map Value.bytes)[j]? = some v.bytes := by rw [getElem?_map, hj, Option.map_some]
  obtain ⟨hoffset, hlength, hvalue⟩ := load_layout_of_getElem? hj'
  have hlen := valueOffset_add_length_le hj'
  refine ⟨_, _, slotOffset_of_load j hoffset, slotLength_of_load j hlength, toNat_toUInt16 (by omega), ?_⟩
  rw [toNat_toUInt16 (by omega)]
  exact hvalue

/-! ## Writing -/

/-- The columns `bs` of a tuple with `n` slots have been written. -/
structure Laid (n : Nat) (t : RawTuple) (bs : List Bytes) : Prop where
  slots : Cells.load t 0 (sizeofSlot * bs.length) = .ok (slotBytes (sizeofSlot * n) bs)
  values : Cells.load t (sizeofSlot * n) bs.flatten.length = .ok bs.flatten

variable {n : Nat} {t : RawTuple} {bs : List Bytes} {b : Bytes}

theorem Laid.nil (h : sizeofSlot * n ≤ t.length) : Laid n t [] := by
  refine ⟨Cells.load_eq_ok.2 ⟨by simp, ?_⟩, Cells.load_eq_ok.2 ⟨by simpa using h, ?_⟩⟩
  · simp [Block.read, slotBytes, Cells.ofBytes]
  · simp [Block.read, Cells.ofBytes]

theorem Laid.load_layout (h : Laid bs.length t bs) : Cells.load t 0 (layout bs).length = .ok (layout bs) := by
  rw [length_layout]
  exact Cells.load_extend h.slots h.values rfl

theorem Laid.push (h : Laid n t bs) (hn : bs.length < n) (hroom : sizeofSlot * n + (bs.flatten.length + b.length) ≤ t.length) :
    ∃ t₁ t₂, t.setSlot bs.length (sizeofSlot * n + bs.flatten.length) b.length = .ok t₁ ∧
      t₁.setValue (sizeofSlot * n + bs.flatten.length) b = .ok t₂ ∧ Laid n t₂ (bs ++ [b]) ∧ t₂.length = t.length := by
  have hslot : sizeofSlot * bs.length + 4 ≤ sizeofSlot * n := by
    simp only [sizeofSlot]
    omega
  generalize hoff : sizeofSlot * n + bs.flatten.length = off
  generalize hpos : sizeofSlot * bs.length = pos at hslot
  have htwo : ∀ k, (leBytes 2 k).length = 2 := length_leBytes 2
  have hroom₀ : pos + (leBytes 2 off).length ≤ t.length := by rw [htwo]; omega
  obtain ⟨t₀, h₀⟩ := Cells.exists_store hroom₀
  have hlen₀ := Cells.length_store h₀
  have hroom₁ : pos + 2 + (leBytes 2 b.length).length ≤ t₀.length := by rw [htwo]; omega
  obtain ⟨t₁, h₁⟩ := Cells.exists_store hroom₁
  have hlen₁ := Cells.length_store h₁
  have hroom₂ : off + b.length ≤ t₁.length := by omega
  obtain ⟨t₂, h₂⟩ := Cells.exists_store hroom₂
  -- what the three writes leave alone
  have hkeep : ∀ o k, o + k ≤ pos ∨ sizeofSlot * n ≤ o ∧ o + k ≤ off → Cells.load t₂ o k = Cells.load t o k := by
    intro o k hok
    rw [Cells.load_store_of_disjoint h₂ (by omega), Cells.load_store_of_disjoint h₁ (by rw [htwo]; omega),
      Cells.load_store_of_disjoint h₀ (by rw [htwo]; omega)]
  have hoffset : Cells.load t₂ pos 2 = .ok (leBytes 2 off) := by
    rw [Cells.load_store_of_disjoint h₂ (by omega), Cells.load_store_of_disjoint h₁ (by omega)]
    simpa only [htwo] using Cells.load_store_self h₀
  have hlength : Cells.load t₂ (pos + 2) 2 = .ok (leBytes 2 b.length) := by
    rw [Cells.load_store_of_disjoint h₂ (by omega)]
    simpa only [htwo] using Cells.load_store_self h₁
  refine ⟨t₁, t₂, by simp [setSlot, hpos, h₀, h₁], h₂, ⟨?_, ?_⟩, by rw [Cells.length_store h₂, hlen₁, hlen₀]⟩
  · have hslots : Cells.load t₂ 0 pos = .ok (slotBytes (sizeofSlot * n) bs) := by
      rw [hkeep 0 pos (by omega), ← hpos]
      exact h.slots
    have hcount : pos + (2 + 2) = sizeofSlot * (bs ++ [b]).length := by simp [← hpos, sizeofSlot, Nat.mul_add]
    rw [slotBytes_append, hoff]
    simpa [slotBytes] using Cells.load_extend hslots (Cells.load_append hoffset hlength rfl rfl) hcount
  · have hvalues : Cells.load t₂ (sizeofSlot * n) bs.flatten.length = .ok bs.flatten := by
      rw [hkeep _ _ (by omega)]
      exact h.values
    simpa using Cells.load_append hvalues (Cells.load_store_self h₂) hoff rfl

variable {β : Type} {f : RawTuple × Nat → β × Nat → Res (RawTuple × Nat)} {val : β → Bytes} {as : List β}

theorem Laid.foldlM (hf : ∀ a ∈ as, ∀ t off i, f (t, off) (a, i) = (do
      let t ← t.setSlot i off (val a).length
      let t ← t.setValue off (val a)
      return (t, off + (val a).length))) (h : Laid n t bs) (hn : bs.length + as.length ≤ n)
    (hroom : sizeofSlot * n + (bs ++ as.map val).flatten.length ≤ t.length) :
    ∃ t', (as.zipIdx bs.length).foldlM f (t, sizeofSlot * n + bs.flatten.length) =
        .ok (t', sizeofSlot * n + (bs ++ as.map val).flatten.length) ∧
      Laid n t' (bs ++ as.map val) ∧ t'.length = t.length := by
  induction as generalizing t bs with
  | nil => exact ⟨t, by simp, by simpa using h, rfl⟩
  | cons a as ih =>
    rw [length_cons] at hn
    have hstep := hf a mem_cons_self
    have hroom' : sizeofSlot * n + (bs.flatten.length + (val a).length) ≤ t.length := by
      simp only [map_cons, flatten_append, flatten_cons, length_append] at hroom
      omega
    obtain ⟨t₁, t₂, hslot, hvalue, hlaid, hlen⟩ := h.push (b := val a) (by omega) hroom'
    obtain ⟨t', hfold, hlaid', hlen'⟩ := ih (fun a' ha' => hf a' (mem_cons_of_mem _ ha')) hlaid
      (by simp; omega) (by simpa [hlen] using hroom)
    refine ⟨t', ?_, by simpa using hlaid', hlen'.trans hlen⟩
    rw [zipIdx_cons, foldlM_cons, hstep, hslot, Res.ok_bind, hvalue]
    simpa [Nat.add_assoc] using hfold

theorem foldlM_layout (hf : ∀ a ∈ as, ∀ t off i, f (t, off) (a, i) = (do
      let t ← t.setSlot i off (val a).length
      let t ← t.setValue off (val a)
      return (t, off + (val a).length))) (hroom : (layout (as.map val)).length ≤ t.length) :
    ∃ t', as.zipIdx.foldlM f (t, sizeofSlot * as.length) = .ok (t', (layout (as.map val)).length) ∧
      Cells.load t' 0 (layout (as.map val)).length = .ok (layout (as.map val)) ∧ t'.length = t.length := by
  have hlen := length_layout (as.map val)
  rw [length_map] at hlen
  have hnil : Laid as.length t [] := .nil (by omega)
  obtain ⟨t', hfold, hlaid, hlen'⟩ := hnil.foldlM hf (by simp) (by simpa [hlen] using hroom)
  refine ⟨t', by simpa [hlen] using hfold, Laid.load_layout (by simpa using hlaid), hlen'⟩

theorem room_of_setSlot {t t' : RawTuple} {nth n : Nat} (h : t.setSlot nth off n = .ok t') :
    sizeofSlot * (nth + 1) ≤ t.length ∧ t'.length = t.length := by
  obtain ⟨t₁, h₁, h₂⟩ := Res.bind_eq_ok.1 h
  have hlen₁ := Cells.length_store h₁
  obtain ⟨hle, -⟩ := Cells.store_eq_ok.1 h₂
  rw [length_leBytes, hlen₁] at hle
  refine ⟨?_, (Cells.length_store h₂).trans hlen₁⟩
  simp only [sizeofSlot] at hle ⊢
  omega

/-- Writes that succeed are all inside the tuple. `wrap` is what the loop does to an offset that has
become too large, which it then has not. -/
theorem room_of_foldlM {wrap : Nat → Nat} {m : Nat} (hwrap : ∀ x ≤ m, wrap x = x)
    (hf : ∀ a ∈ as, ∀ t off i, f (t, off) (a, i) = (do
      let t ← t.setSlot i off (val a).length
      let t ← t.setValue off (val a)
      return (t, wrap (off + (val a).length)))) (hne : as ≠ []) {t : RawTuple} {r : RawTuple × Nat} (ht : t.length = m)
    (hfold : (as.zipIdx i).foldlM f (t, off) = .ok r) :
    sizeofSlot * (i + as.length) ≤ m ∧ off + (as.map val).flatten.length ≤ m := by
  induction as generalizing t off i with
  | nil => exact absurd rfl hne
  | cons a as ih =>
    rw [zipIdx_cons, foldlM_cons, hf a mem_cons_self] at hfold
    obtain ⟨⟨t₂, off'⟩, hwrite, hfold⟩ := Res.bind_eq_ok.1 hfold
    obtain ⟨t₁, hslot, hwrite⟩ := Res.bind_eq_ok.1 hwrite
    obtain ⟨t₂', hvalue, hwrite⟩ := Res.bind_eq_ok.1 hwrite
    obtain ⟨rfl, rfl⟩ := Prod.mk.inj (Except.ok.inj hwrite)
    obtain ⟨hroom, hlen₁⟩ := room_of_setSlot hslot
    obtain ⟨hle, -⟩ := Cells.store_eq_ok.1 hvalue
    have hlen₂ := Cells.length_store hvalue
    rw [hlen₁, ht] at hle hlen₂
    rw [ht] at hroom
    cases as with
    | nil => exact ⟨by simpa using hroom, by simpa using hle⟩
    | cons a' as =>
      obtain ⟨hslots, hvalues⟩ := ih (fun a' ha' => hf a' (mem_cons_of_mem _ ha')) (by simp) hlen₂ hfold
      rw [hwrap _ hle] at hvalues
      simp only [sizeofSlot, length_cons, map_cons, flatten_cons, length_append] at hslots hvalues ⊢
      exact ⟨by omega, by omega⟩

end RawTuple

end Dbms18
