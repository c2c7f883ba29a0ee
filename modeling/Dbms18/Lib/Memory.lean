import Dbms18.Lib.Block
import Dbms18.Lib.Fault

/-!
# Checked accesses to a block of memory

The cells of an allocated block hold nothing until they are written. `store` and `load` are `memcpy`
into and out of a block: they fault outside the block, and `load` also on a cell that was never
written. Two rules suffice to follow a program that writes several fields: a load of what was just
stored (`load_store_self`), and a load elsewhere (`load_store_of_disjoint`).
-/

namespace Dbms18

open Res List

abbrev Cells := List (Option UInt8)

namespace Cells

def alloc (n : Nat) : Cells := List.replicate n none

def ofBytes (bs : Bytes) : Cells := bs.map some

def bytes? : Cells → Option Bytes
  | [] => some []
  | none :: _ => none
  | some b :: cs => (bytes? cs).map (b :: ·)

def store (c : Cells) (off : Nat) (bs : Bytes) : Res Cells := do
  Res.check (off + bs.length ≤ c.length) .outOfBounds
  return Block.write c off (ofBytes bs)

def load (c : Cells) (off n : Nat) : Res Bytes := do
  Res.check (off + n ≤ c.length) .outOfBounds
  Res.getD (bytes? (Block.read c off n)) .uninitialized

@[simp] theorem length_alloc (n : Nat) : (alloc n).length = n := length_replicate

@[simp] theorem length_ofBytes (bs : Bytes) : (ofBytes bs).length = bs.length := length_map _

@[simp] theorem bytes?_ofBytes (bs : Bytes) : bytes? (ofBytes bs) = some bs := by
  induction bs with
  | nil => rfl
  | cons b bs ih => simpa [ofBytes, bytes?] using ih

theorem bytes?_eq_some {c : Cells} {bs : Bytes} : bytes? c = some bs ↔ c = ofBytes bs := by
  refine ⟨fun h => ?_, fun h => h ▸ bytes?_ofBytes bs⟩
  induction c generalizing bs with
  | nil =>
    obtain rfl := Option.some.inj h
    rfl
  | cons x c ih =>
    cases x with
    | none => cases h
    | some b =>
      obtain ⟨bs', hbs', rfl⟩ := Option.map_eq_some_iff.1 h
      simp [ofBytes, ih hbs']

variable {c c' : Cells} {off o n : Nat} {bs : Bytes}

theorem store_eq_ok :
    c.store off bs = .ok c' ↔ off + bs.length ≤ c.length ∧ c' = Block.write c off (ofBytes bs) := by
  rw [store, bind_eq_ok]
  exact ⟨fun ⟨_, hc, h⟩ => ⟨check_eq_ok.1 hc, (Except.ok.inj h).symm⟩,
    fun ⟨hc, h⟩ => ⟨(), check_of hc, h ▸ rfl⟩⟩

theorem load_eq_ok :
    c.load off n = .ok bs ↔ off + n ≤ c.length ∧ Block.read c off n = ofBytes bs := by
  rw [load, bind_eq_ok]
  exact ⟨fun ⟨_, hc, h⟩ => ⟨check_eq_ok.1 hc, bytes?_eq_some.1 (getD_eq_ok.1 h)⟩,
    fun ⟨hc, h⟩ => ⟨(), check_of hc, getD_eq_ok.2 (bytes?_eq_some.2 h)⟩⟩

theorem length_load (h : c.load off n = .ok bs) : bs.length = n := by
  obtain ⟨hle, hread⟩ := load_eq_ok.1 h
  rw [← length_ofBytes, ← hread, Block.read, length_take, length_drop]
  omega

theorem length_store (h : c.store off bs = .ok c') : c'.length = c.length := by
  obtain ⟨hle, rfl⟩ := store_eq_ok.1 h
  exact Block.length_write (by simpa using hle)

theorem exists_store (h : off + bs.length ≤ c.length) : ∃ c', c.store off bs = .ok c' :=
  ⟨_, store_eq_ok.2 ⟨h, rfl⟩⟩

theorem load_store_self (h : c.store off bs = .ok c') : c'.load off bs.length = .ok bs := by
  obtain ⟨hle, rfl⟩ := store_eq_ok.1 h
  refine load_eq_ok.2 ⟨?_, ?_⟩
  · rwa [length_store h]
  · rw [← length_ofBytes bs]
    exact Block.read_write_self (by simpa using hle)

theorem load_store_of_disjoint (h : c.store off bs = .ok c') (hdisj : o + n ≤ off ∨ off + bs.length ≤ o) :
    c'.load o n = c.load o n := by
  have hlen := length_store h
  obtain ⟨hle, rfl⟩ := store_eq_ok.1 h
  rw [load, load, hlen, Block.read_write_of_disjoint (by simpa using hle) (by simpa using hdisj)]

theorem load_ofBytes (h : o + n ≤ bs.length) : (ofBytes bs).load o n = .ok (Block.read bs o n) :=
  load_eq_ok.2 ⟨by simpa using h, by simp [Block.read, ofBytes, map_take, map_drop]⟩

theorem load_append {m k j : Nat} {bs' : Bytes} (h : c.load o m = .ok bs) (h' : c.load j n = .ok bs')
    (hj : o + m = j) (hk : m + n = k) : c.load o k = .ok (bs ++ bs') := by
  obtain ⟨-, hread⟩ := load_eq_ok.1 h
  obtain ⟨hle, hread'⟩ := load_eq_ok.1 h'
  refine load_eq_ok.2 ⟨by omega, ?_⟩
  have hsplit : Block.read c o k = Block.read c o m ++ Block.read c j n := by
    simp [Block.read, ← hk, ← hj, take_add, drop_drop]
  rw [hsplit, hread, hread']
  simp [ofBytes]

theorem load_extend {m k : Nat} {bs' : Bytes} (h : c.load 0 m = .ok bs) (h' : c.load m n = .ok bs')
    (hk : m + n = k) : c.load 0 k = .ok (bs ++ bs') :=
  load_append h h' (Nat.zero_add _) hk

theorem load_ofBytes_of_load {k : Nat} (h : c.load 0 n = .ok bs) (hle : o + k ≤ n) :
    (ofBytes bs).load o k = c.load o k := by
  obtain ⟨hn, hread⟩ := load_eq_ok.1 h
  have hlen : bs.length = n := by
    have := congrArg List.length hread
    simp [Block.read] at this
    omega
  have hsub : Block.read (ofBytes bs) o k = Block.read c o k := by
    rw [← hread]
    simp only [Block.read, drop_zero, drop_take, take_take]
    congr 1
    omega
  unfold load
  rw [hsub, check_of (by simpa [hlen] using hle), check_of (by omega)]

/-! ## Several writes -/

def storeAll (c : Cells) : List (Nat × Bytes) → Res Cells
  | [] => .ok c
  | w :: ws => do
    let c ← c.store w.1 w.2
    storeAll c ws

theorem storeAll_append (c : Cells) (ws ws' : List (Nat × Bytes)) :
    c.storeAll (ws ++ ws') = c.storeAll ws >>= fun c => c.storeAll ws' := by
  induction ws generalizing c with
  | nil => rfl
  | cons w ws ih =>
    simp only [cons_append, storeAll, ih, bind_assoc]

variable {ws : List (Nat × Bytes)}

theorem exists_storeAll :
    (∃ c', c.storeAll ws = .ok c') ↔ ∀ w ∈ ws, w.1 + w.2.length ≤ c.length := by
  induction ws generalizing c with
  | nil => simp [storeAll]
  | cons w ws ih =>
    constructor
    · rintro ⟨c', h⟩
      obtain ⟨c₁, h₁, h⟩ := bind_eq_ok.1 h
      have htail := ih.1 ⟨c', h⟩
      rw [length_store h₁] at htail
      simpa using ⟨(store_eq_ok.1 h₁).1, fun a b hab => htail (a, b) hab⟩
    · intro h
      obtain ⟨c₁, h₁⟩ := exists_store (h w mem_cons_self)
      obtain ⟨c', h'⟩ := ih.2 fun w' hw' => by
        rw [length_store h₁]
        exact h w' (mem_cons_of_mem _ hw')
      exact ⟨c', by simp [storeAll, h₁, h']⟩

theorem load_storeAll_of_disjoint (h : c.storeAll ws = .ok c')
    (hdisj : ∀ w ∈ ws, o + n ≤ w.1 ∨ w.1 + w.2.length ≤ o) : c'.load o n = c.load o n := by
  induction ws generalizing c with
  | nil => rw [← Except.ok.inj h]
  | cons w ws ih =>
    obtain ⟨c₁, h₁, h⟩ := bind_eq_ok.1 h
    rw [ih h fun w' hw' => hdisj w' (mem_cons_of_mem _ hw'),
      load_store_of_disjoint h₁ (hdisj w mem_cons_self)]

theorem load_storeAll (h : c.storeAll ws = .ok c') (i : Nat) (hi : ws[i]? = some (off, bs)) (hn : bs.length = n)
    (hdisj : ∀ w ∈ ws.drop (i + 1), off + n ≤ w.1 ∨ w.1 + w.2.length ≤ off) : c'.load off n = .ok bs := by
  subst hn
  obtain ⟨hlt, hget⟩ := List.getElem?_eq_some_iff.1 hi
  rw [← take_append_drop i ws, drop_eq_getElem_cons hlt, hget, storeAll_append] at h
  obtain ⟨c₁, -, h⟩ := bind_eq_ok.1 h
  obtain ⟨c₂, h₂, h⟩ := bind_eq_ok.1 h
  rw [load_storeAll_of_disjoint h hdisj]
  exact load_store_self h₂

def Apart (w w' : Nat × Bytes) : Prop := w.1 + w.2.length ≤ w'.1 ∨ w'.1 + w'.2.length ≤ w.1

theorem load_storeAll_of_apart {k : Nat} (h : c.storeAll ws = .ok c')
    (hws : (ws.drop k).Pairwise Apart) (i : Nat) (hi : (ws.drop k)[i]? = some (off, bs)) (hn : bs.length = n) :
    c'.load off n = .ok bs := by
  subst hn
  obtain ⟨hlt, hget⟩ := List.getElem?_eq_some_iff.1 hi
  have hdrop := hws.drop (i := i)
  rw [drop_eq_getElem_cons hlt, hget, pairwise_cons] at hdrop
  refine load_storeAll h (k + i) (by rw [← getElem?_drop, hi]) rfl fun w hw => ?_
  rw [Nat.add_assoc, ← drop_drop] at hw
  exact hdrop.1 w hw

end Cells

end Dbms18
